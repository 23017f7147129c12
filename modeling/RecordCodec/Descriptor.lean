import RecordCodec.Bytes.Varint
import RecordCodec.Discriminant
import RecordCodec.Schema

/-! # Descriptors

What remains of a schema once pointers and other names are gone: the structure that the bytes of a
value follow. Two types with the same descriptor up to names have the same wire format.
-/
namespace RecordCodec

/-- The numbers that a length, a count or a width can be: those of 64 bits. -/
def addressSpace : Nat := 0x10000000000000000

def checked (n : Nat) : Option Nat := if n < addressSpace then some n else none

/-- A described field; one with a version is compatible. -/
structure FieldOf (α : Type) where
  name : String
  shape : α
  version : Option Nat
deriving Repr

namespace FieldOf

def isCompatible {α : Type} (f : FieldOf α) : Bool := f.version.isSome

end FieldOf

structure AlternativeOf (α : Type) where
  name : String
  fields : List (FieldOf α)
deriving Repr

inductive Descriptor where
  | unit
  | scalar (s : Scalar)
  | text
  | sequence (element : Descriptor)
  | set (element : Descriptor)
  | map (key value : Descriptor)
  | array (element : Descriptor) (length : Nat)
  | optional (payload : Descriptor)
  | variant (typeName : String) (alternatives : List (AlternativeOf Descriptor))
  /-- Fields one behind the other. An extensible aggregate can get compatible fields in a later
  release, a sealed one cannot. -/
  | aggregate (typeName : String) (fields : List (FieldOf Descriptor)) (extensible : Bool)
deriving Repr

abbrev FieldDescriptor := FieldOf Descriptor

abbrev AlternativeDescriptor := AlternativeOf Descriptor

namespace Descriptor

def mandatoryFields (fields : List FieldDescriptor) : List FieldDescriptor :=
  fields.filter fun f => !f.isCompatible

def compatibleFields (fields : List FieldDescriptor) : List FieldDescriptor :=
  fields.filter (·.isCompatible)

def anyCompatible (fields : List FieldDescriptor) : Bool := fields.any (·.isCompatible)

mutual

/-- The number of bytes that every value takes, where it is the same for all and fits the address
space. -/
def fixedWidth : Descriptor → Option Nat
  | unit => some 0
  | scalar s => some s.width
  | array element length => do checked ((← element.fixedWidth) * length)
  | aggregate _ fields extensible =>
    if extensible || anyCompatible fields then none else fieldsWidth 0 fields
  | text | sequence _ | set _ | map .. | optional _ | variant .. => none
termination_by structural d => d

def fieldsWidth (start : Nat) : List FieldDescriptor → Option Nat
  | [] => some start
  | ⟨_, shape, _⟩ :: fs => do
    let width ← shape.fixedWidth
    fieldsWidth (← checked (start + width)) fs
termination_by structural fs => fs

end

/-- The number of bytes that the fields of an outermost aggregate take, where no field is
compatible. -/
def bodyWidth (fields : List FieldDescriptor) : Option Nat :=
  if anyCompatible fields then none else fieldsWidth 0 fields

end Descriptor
end RecordCodec
