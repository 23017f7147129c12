import RecordCodec.Reader
import RecordCodec.Schema

/-! # Scalars as bytes

Every scalar is a little-endian number of its width: booleans and characters by their codes, signed
numbers modulo their range, floats by their bits.
-/
namespace RecordCodec.Scalar

def code (s : Scalar) : Value → Nat
  | .bool b => b.toNat
  | .int i => Bytes.LittleEndian.residue s.width i
  | .float bits => bits
  | .char c => c.toNat
  | _ => 0

def encode (s : Scalar) (v : Value) : List UInt8 := Bytes.LittleEndian.encode s.width (s.code v)

def read : Scalar → Read Value
  | bool => .bool <$> Read.bool
  | char => .char <$> Read.char
  | u8 => unsigned 1
  | u16 => unsigned 2
  | u32 => unsigned 4
  | u64 => unsigned 8
  | u128 => unsigned 16
  | i8 => signed 1
  | i16 => signed 2
  | i32 => signed 4
  | i64 => signed 8
  | i128 => signed 16
  | f32 => .float <$> Read.nat 4
  | f64 => .float <$> Read.nat 8
where
  unsigned (width : Nat) : Read Value := (fun n => .int (n : Int)) <$> Read.nat width
  signed (width : Nat) : Read Value :=
    (fun n => .int (Bytes.LittleEndian.signed width n)) <$> Read.nat width

end RecordCodec.Scalar
