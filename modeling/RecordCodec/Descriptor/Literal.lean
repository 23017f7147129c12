import RecordCodec.Descriptor

/-! # Type literals

A descriptor as bytes, from which a type's signature is made. Names and compatible fields leave no
trace in it, so it stays the same from release to release; everything else does.
-/
namespace RecordCodec

namespace Literal

def unit : UInt8 := 0x01
def text : UInt8 := 0x10
def sequence : UInt8 := 0x11
def set : UInt8 := 0x12
def map : UInt8 := 0x13
def array : UInt8 := 0x14
def optional : UInt8 := 0x15
def variantBegin : UInt8 := 0x16
def variantEnd : UInt8 := 0x17
def extensibleBegin : UInt8 := 0xFD
def aggregateBegin : UInt8 := 0xFE
def aggregateEnd : UInt8 := 0xFF

end Literal

def Scalar.tag : Scalar → UInt8
  | bool => 0x02
  | u8 => 0x03
  | i8 => 0x04
  | u16 => 0x05
  | i16 => 0x06
  | u32 => 0x07
  | i32 => 0x08
  | u64 => 0x09
  | i64 => 0x0A
  | u128 => 0x0B
  | i128 => 0x0C
  | f32 => 0x0D
  | f64 => 0x0E
  | char => 0x0F

namespace Descriptor

mutual

def literal : Descriptor → List UInt8
  | unit => [Literal.unit]
  | scalar s => [s.tag, UInt8.ofNat s.width]
  | text => [Literal.text]
  | sequence element => Literal.sequence :: element.literal
  | set element => Literal.set :: element.literal
  | map key value => Literal.map :: (key.literal ++ value.literal)
  | array element length => Literal.array :: (element.literal ++ Bytes.Varint.encode length)
  | optional payload => Literal.optional :: payload.literal
  | variant _ alternatives =>
    Literal.variantBegin ::
      (Bytes.Varint.encode alternatives.length ++ alternativesLiteral alternatives)
  | aggregate _ fields extensible =>
    (if extensible then Literal.extensibleBegin else Literal.aggregateBegin) :: fieldsLiteral fields
termination_by structural d => d

/-- The literals of the mandatory fields and the end of their aggregate. -/
def fieldsLiteral : List FieldDescriptor → List UInt8
  | [] => [Literal.aggregateEnd]
  | ⟨_, shape, none⟩ :: fs => shape.literal ++ fieldsLiteral fs
  | ⟨_, _, some _⟩ :: fs => fieldsLiteral fs
termination_by structural fs => fs

def alternativesLiteral : List AlternativeDescriptor → List UInt8
  | [] => [Literal.variantEnd]
  | ⟨_, fields⟩ :: as =>
    Literal.aggregateBegin :: (fieldsLiteral fields ++ alternativesLiteral as)
termination_by structural as => as

end

/-- The literal of a record's type. An outermost aggregate is written like a sealed one: the header
tells whether it has compatible fields. -/
def topLevelLiteral : Descriptor → List UInt8
  | aggregate _ fields _ => Literal.aggregateBegin :: fieldsLiteral fields
  | d => d.literal

end Descriptor
end RecordCodec
