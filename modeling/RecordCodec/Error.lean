import RecordCodec.Signature

/-! # Errors

The causes for which a type is rejected, a record cannot be written or bytes cannot be read, and the
text of each.
-/
namespace RecordCodec

inductive Fault where
  | boolean (byte : Nat)
  | scalarValue (code : Nat)
  | varint
  | length (declared limit : Nat)
  | text (reason : String)
  | fieldText (field reason : String)
  | nanoseconds (nanos : Nat)
  | duplicate
  /-- A compatible field read outside the aggregate that has its slot. -/
  | loneCompatible
  | discriminant (index : Nat) (owner : String) (alternatives : Nat)
  | unwritableDiscriminant (index alternatives : Nat)
  /-- One slot more than a presence bitmap can hold. -/
  | slotOverflow
  | slotCount (count : Nat)
  | strayBit
  | payload (slot declared consumed : Nat)
  /-- A header that announces a presence bitmap for a type without slots. -/
  | announcement (typeName : String)
  | run (count width : Nat)
  | undecoded (field : String) (count : Nat)
  | other (reason : String)
deriving DecidableEq, Repr

/-- How many compatible fields an aggregate may have, and so how many slots a presence bitmap. -/
def maxSlots : Nat := 64

inductive ShapeFault where
  | misplaced
  | inAlternative (field : String)
  | decreasing (field : String) (version preceding : Nat)
  | crowded
  | late (field : String)
  | alternatives
  | other (reason : String)
deriving DecidableEq, Repr

inductive Error where
  | schemaMismatch (expected found : Signature)
  | truncated (needed available : Nat)
  | capacity (required available : Nat)
  | invalidData (fault : Fault)
  | trailingBytes (count : Nat)
  | cyclicType (typeName : String)
  | invalidShape (typeName : String) (fault : ShapeFault)
  | unknownField (selector : String)
  | fieldShapeMismatch (field : String)
  | fieldAbsent (field : String)
deriving DecidableEq, Repr

def Fault.message : Fault → String
  | .boolean byte => s!"invalid boolean byte {Text.Hex.marked 2 byte}"
  | .scalarValue code => s!"invalid Unicode scalar value: {code}"
  | .varint => "varint exceeds 64 bits"
  | .length declared limit => s!"length {declared} exceeds the limit of {limit}"
  | .text reason => s!"invalid UTF-8: {reason}"
  | .fieldText field reason => s!"invalid UTF-8 in field {field}: {reason}"
  | .nanoseconds nanos => s!"duration nanoseconds {nanos} out of range"
  | .duplicate => "duplicate key in set or map"
  | .loneCompatible => "a compatible field can only be decoded as part of its aggregate"
  | .discriminant index owner alternatives =>
    s!"invalid discriminant {index} for {owner} (expected 0..{alternatives})"
  | .unwritableDiscriminant index alternatives =>
    s!"discriminant {index} out of range for {alternatives} alternatives"
  | .slotOverflow => s!"more than {maxSlots} compatible slots"
  | .slotCount count =>
    s!"presence bitmap declares {count} slots, at most {maxSlots} are allowed"
  | .strayBit => "presence bit set past the slot count"
  | .payload slot declared consumed =>
    s!"compatible slot {slot} declares {declared} bytes but its payload has {consumed}"
  | .announcement typeName =>
    "presence bitmap announced for `" ++ typeName ++ "`, which is not an aggregate"
  | .run count width => s!"{count} elements of {width} bytes overflow the address space"
  | .undecoded field count => s!"field {field} left {count} bytes undecoded"
  | .other reason => reason

def ShapeFault.message : ShapeFault → String
  | .misplaced => "a compatible field may only appear directly inside a struct"
  | .inAlternative field => "compatible field `" ++ field ++ "` is not allowed in a variant"
  | .decreasing field version preceding =>
    "compatible field `" ++ field ++
      s!"` has version {version}, lower than the preceding compatible field's {preceding}"
  | .crowded => s!"more than {maxSlots} compatible fields"
  | .late field => "mandatory field `" ++ field ++ "` is declared after a compatible field"
  | .alternatives => "too many alternatives"
  | .other reason => reason

namespace Error

def message : Error → String
  | .schemaMismatch expected found =>
    s!"schema mismatch: expected signature {expected.text}, found {found.text}"
  | .truncated needed available =>
    s!"truncated input: {needed} bytes required but only {available} remain"
  | .capacity required available =>
    s!"insufficient capacity: {required} bytes required but only {available} available"
  | .invalidData fault => "invalid data: " ++ fault.message
  | .trailingBytes count => s!"{count} trailing bytes after the last record"
  | .cyclicType typeName => "type `" ++ typeName ++ "` contains itself"
  | .invalidShape typeName fault => "invalid shape for `" ++ typeName ++ "`: " ++ fault.message
  | .unknownField selector => "no field matching " ++ selector
  | .fieldShapeMismatch field => s!"field {field} has a different shape than the requested type"
  | .fieldAbsent field => s!"compatible field {field} is absent from the buffer"

def isSchemaMismatch : Error → Bool
  | .schemaMismatch .. => true
  | _ => false

def isTruncated : Error → Bool
  | .truncated .. => true
  | _ => false

def isCapacity : Error → Bool
  | .capacity .. => true
  | _ => false

end Error
end RecordCodec
