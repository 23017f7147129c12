import RecordCodec.Body.Decode

/-! # Reading over a value

Reads a value in the place of an old one. A struct is overwritten field by field: compatible fields
that the bytes lack and skipped fields keep what they had. So is what a pointer points to, unless
the pointee is shared: then the pointer gets a new one. Every other value is replaced as a whole.
After a failure the place holds what was read by then.
-/
namespace RecordCodec

/-- Whether shared pointers are the only owners of what they point to. -/
inductive Ownership where
  | unique
  | shared
deriving DecidableEq, Repr

/-- What became of a place, and of the reader. -/
structure Overwritten (α : Type) where
  place : α
  outcome : EStateM.Result Error Reader Unit

namespace Overwritten

def map {α β : Type} (f : α → β) (o : Overwritten α) : Overwritten β := ⟨f o.place, o.outcome⟩

def replace (read : Read Value) (old : Value) (r : Reader) : Overwritten Value :=
  match read r with
  | .ok v r => ⟨v, .ok () r⟩
  | .error e r => ⟨old, .error e r⟩

def andThen {α : Type} (o : Overwritten α) (next : Read Unit) : Overwritten α :=
  match o.outcome with
  | .ok () r => ⟨o.place, next r⟩
  | .error .. => o

end Overwritten

/-- Whether a pointee is read over in place. -/
def Pointer.isInPlace : Pointer → Ownership → Bool
  | box, _ => true
  | _, ownership => ownership == .unique

namespace Schema

mutual

def overwrite (ownership : Ownership) : Schema → Value → Reader → Overwritten Value
  | struct _ _ fields, .record vs, r =>
    match Slots.start true r with
    | .ok slots r => (overwriteFields ownership fields vs slots r).map .record
    | .error e r => ⟨.record vs, .error e r⟩
  | pointer p t, old, r =>
    if p.isInPlace ownership then t.overwrite ownership old r
    else .replace t.decode old r
  | named _ t, old, r => t.overwrite ownership old r
  | t, old, r => .replace t.decode old r
termination_by structural t => t

/-- Reads over the fields of a struct, whose presence bitmap is read, and steps over the slots that
are left. -/
def overwriteFields (ownership : Ownership) :
    List Field → List Value → Slots → Reader → Overwritten (List Value)
  | .mandatory _ t :: fs, v :: vs, slots, r =>
    let first := t.overwrite ownership v r
    match first.outcome with
    | .ok () r => (overwriteFields ownership fs vs slots r).map (first.place :: ·)
    | .error e r => ⟨first.place :: vs, .error e r⟩
  | .compatible _ _ t :: fs, v :: vs, slots, r =>
    match slots.read t.decode r with
    | .ok (found, slots) r =>
      let place := (found.map Value.present).getD v
      (overwriteFields ownership fs vs slots r).map (place :: ·)
    | .error e r => ⟨v :: vs, .error e r⟩
  | .skipped .. :: fs, v :: vs, slots, r => (overwriteFields ownership fs vs slots r).map (v :: ·)
  | _, vs, slots, r => ⟨vs, slots.finish r⟩
termination_by structural fs => fs

end

def overwriteBody (ownership : Ownership) : Schema → Value → Slots → Reader → Overwritten Value
  | struct _ _ fields, .record vs, slots, r =>
    (overwriteFields ownership fields vs slots r).map .record
  | pointer p t, old, slots, r =>
    if p.isInPlace ownership then t.overwriteBody ownership old slots r
    else .replace (t.decodeBody slots) old r
  | named _ t, old, slots, r => t.overwriteBody ownership old slots r
  | t, old, slots, r => (t.overwrite ownership old r).andThen slots.finish

end Schema
end RecordCodec
