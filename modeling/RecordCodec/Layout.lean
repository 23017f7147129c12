import RecordCodec.Descriptor.Describe
import RecordCodec.Descriptor.Literal

/-! # Layouts

What the writer and the reader of a record need to know about its type: the literal, the signature
and, of an aggregate, where its fields are found.
-/
namespace RecordCodec

inductive Encoding where
  | fixed (width : Nat)
  | lengthPrefixed
  | optional
  | variant (discriminantWidth : Nat)
  | nested
  | compatible
deriving DecidableEq, Repr

def Encoding.of (d : Descriptor) : Encoding :=
  match d.fixedWidth with
  | some width => .fixed width
  | none =>
    match d with
    | .text | .sequence _ | .set _ | .map .. => .lengthPrefixed
    | .optional _ => .optional
    | .variant _ alternatives => .variant (discriminantWidth alternatives.length)
    | .unit | .scalar _ | .array .. | .aggregate .. => .nested

structure Slot where
  index : Nat
  version : Nat
deriving DecidableEq, Repr

structure FieldLayout where
  index : Nat
  name : String
  descriptor : Descriptor
  encoding : Encoding
  /-- The bytes of the mandatory fields before this one, if they are the same in every record. -/
  offset : Option Nat
  slot : Option Slot
deriving Repr

namespace FieldLayout

def isCompatible (f : FieldLayout) : Bool := f.slot.isSome

def literal (f : FieldLayout) : List UInt8 := f.descriptor.literal

/-- The fields from number `index` on, where the mandatory ones begin at `offset` and the compatible
ones with `slot`. -/
def plan (index : Nat) (offset : Option Nat) (slot : Nat) : List FieldDescriptor → List FieldLayout
  | [] => []
  | ⟨name, shape, some version⟩ :: fs =>
    ⟨index, name, shape, .compatible, none, some ⟨slot, version⟩⟩ ::
      plan (index + 1) offset (slot + 1) fs
  | ⟨name, shape, none⟩ :: fs =>
    let next := do checked ((← offset) + (← shape.fixedWidth))
    ⟨index, name, shape, .of shape, offset, none⟩ :: plan (index + 1) next slot fs

end FieldLayout

inductive Selector where
  | index (i : Nat)
  | name (s : String)
deriving DecidableEq, Repr

def Selector.text : Selector → String
  | index i => s!"#{i}"
  | name s => "`" ++ s ++ "`"

structure Layout where
  typeName : String
  descriptor : Descriptor
deriving Repr

namespace Layout

def of (t : Schema) : Except Error Layout := do
  let descriptor ← t.descriptor
  pure ⟨t.name, descriptor⟩

def literal (l : Layout) : List UInt8 := l.descriptor.topLevelLiteral

def signature (l : Layout) : Signature := .ofLiteral l.literal

def fields (l : Layout) : List FieldLayout :=
  match l.descriptor with
  | .aggregate _ fields _ => FieldLayout.plan 0 (some 0) 0 fields
  | _ => []

def isAggregate (l : Layout) : Bool :=
  match l.descriptor with
  | .aggregate .. => true
  | _ => false

/-- Whether some field is compatible, so that a presence bitmap follows the header. -/
def hasCompatible (l : Layout) : Bool :=
  match l.descriptor with
  | .aggregate _ fields _ => Descriptor.anyCompatible fields
  | _ => false

def mandatoryFields (l : Layout) : List FieldLayout := l.fields.filter fun f => !f.isCompatible

def compatibleFields (l : Layout) : List FieldLayout := l.fields.filter (·.isCompatible)

/-- The number of bytes behind the header, if it is the same in every record. -/
def fixedSize (l : Layout) : Option Nat :=
  match l.descriptor with
  | .aggregate _ fields _ => Descriptor.bodyWidth fields
  | d => d.fixedWidth

def header (l : Layout) : Header := ⟨l.signature, l.hasCompatible⟩

/-- The field that a selector names: of equal names the first. -/
def field? (l : Layout) : Selector → Option FieldLayout
  | .index i => l.fields[i]?
  | .name s => l.fields.find? (·.name == s)

end Layout

def Schema.literal (t : Schema) : Except Error (List UInt8) := Layout.literal <$> Layout.of t

def Schema.signature (t : Schema) : Except Error Signature := Layout.signature <$> Layout.of t

end RecordCodec
