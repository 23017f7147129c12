import RecordCodec.Body.Overwrite
import RecordCodec.Machine.Slots

/-! # Values on a machine

Values are read, read over and stepped over by what a machine can do. Before the elements of a
collection are read, room is made for as many of them as the options allow; a collection whose
elements are put in one at a time asks for no bytes.
-/
namespace RecordCodec
namespace Machine

/-! ## Values from bytes -/

mutual

/-- Reads a value of a type, which is known as `as`: room is made by the name of a collection. -/
def decodeAs (memory : Memory) : (as : Schema) → Schema → Run Value
  | _, .unit => pure .unit
  | _, .scalar s => scalar s
  | _, .text => .text <$> text
  | _, .duration => duration
  | as, .sequence t => do
    let n ← length
    reserve memory as (← preallocation n)
    .sequence <$> replicate (decodeAs memory t t) n
  | as, .set t => do
    let n ← length
    reserve memory as (← preallocation n)
    .sequence <$> distinct id (decodeAs memory t t) n []
  | as, .map k v => do
    let n ← length
    reserve memory as (← preallocation n)
    let entry := do
      let key ← decodeAs memory k k
      let value ← decodeAs memory v v
      pure (Value.entry key value)
    .sequence <$> distinct Value.key entry n []
  | as, .array t n => do
    reserve memory as n
    .sequence <$> replicate (decodeAs memory t t) n
  | _, .option t => do
    if ← bool then .present <$> decodeAs memory t t else pure .absent
  | _, .tuple ts => .record <$> decodeComponents memory ts
  | _, .pointer _ t => decodeAs memory t t
  | _, .compatible .. => fault .loneCompatible
  | _, .struct _ _ fields => do
    let slots ← Slots.start true
    .record <$> decodeFields memory fields slots
  | _, .enum _ label alternatives => do
    let index ← discriminant alternatives.length
    .variant index <$> decodeAlternative memory alternatives index
      (fault (.discriminant index label alternatives.length))
  | as, .named _ t => decodeAs memory as t
  | _, .reference name => fail (.cyclicType name)
termination_by structural _ t => t

def decodeComponents (memory : Memory) : List Schema → Run (List Value)
  | [] => pure []
  | t :: ts => do
    let v ← decodeAs memory t t
    let vs ← decodeComponents memory ts
    pure (v :: vs)
termination_by structural ts => ts

def decodeFields (memory : Memory) : List Field → Slots → Run (List Value)
  | [], slots => do
    slots.finish
    pure []
  | .mandatory _ t :: fs, slots => do
    let v ← decodeAs memory t t
    let vs ← decodeFields memory fs slots
    pure (v :: vs)
  | .compatible _ _ t :: fs, slots => do
    let (v, slots) ← slots.read (decodeAs memory t t)
    let vs ← decodeFields memory fs slots
    pure (Value.ofOption v :: vs)
  | .skipped _ _ default :: fs, slots => do
    let vs ← decodeFields memory fs slots
    pure (default :: vs)
termination_by structural fs => fs

def decodePayload (memory : Memory) : List Field → Run (List Value)
  | [] => pure []
  | .mandatory _ t :: fs => do
    let v ← decodeAs memory t t
    let vs ← decodePayload memory fs
    pure (v :: vs)
  | .compatible .. :: _ => fault .loneCompatible
  | .skipped _ _ default :: fs => do
    let vs ← decodePayload memory fs
    pure (default :: vs)
termination_by structural fs => fs

def decodeAlternative (memory : Memory) :
    List Alternative → (index : Nat) → Run (List Value) → Run (List Value)
  | [], _, missing => missing
  | .mk _ _ fields :: _, 0, _ => decodePayload memory fields
  | _ :: as, index + 1, missing => decodeAlternative memory as index missing
termination_by structural as => as

end

def decode (memory : Memory) (t : Schema) : Run Value := decodeAs memory t t

def decodeBodyAs (memory : Memory) : (as : Schema) → Schema → Slots → Run Value
  | _, .struct _ _ fields, slots => .record <$> decodeFields memory fields slots
  | _, .pointer _ t, slots => decodeBodyAs memory t t slots
  | as, .named _ t, slots => decodeBodyAs memory as t slots
  | as, t, slots => do
    let v ← decodeAs memory as t
    slots.finish
    pure v

def decodeBody (memory : Memory) (t : Schema) : Slots → Run Value := decodeBodyAs memory t t

/-! ## Reading over a value -/

/-- What became of a place, and of the machine. -/
structure Placed (α : Type) where
  place : α
  outcome : EStateM.Result Halt Cursor Unit

namespace Placed

variable {α β : Type}

def map (f : α → β) (o : Placed α) : Placed β := ⟨f o.place, o.outcome⟩

def replace (read : Run Value) (old : Value) (c : Cursor) : Placed Value :=
  match read c with
  | .ok v c => ⟨v, .ok () c⟩
  | .error h c => ⟨old, .error h c⟩

def andThen (o : Placed α) (next : Run Unit) : Placed α :=
  match o.outcome with
  | .ok () c => ⟨o.place, next c⟩
  | .error .. => o

end Placed

mutual

def overwriteAs (memory : Memory) (ownership : Ownership) :
    (as : Schema) → Schema → Value → Cursor → Placed Value
  | _, .struct _ _ fields, .record vs, c =>
    match Slots.start true c with
    | .ok slots c => (overwriteFields memory ownership fields vs slots c).map .record
    | .error h c => ⟨.record vs, .error h c⟩
  | _, .pointer p t, old, c =>
    if p.isInPlace ownership then overwriteAs memory ownership t t old c
    else .replace (decode memory t) old c
  | as, .named _ t, old, c => overwriteAs memory ownership as t old c
  | as, t, old, c => .replace (decodeAs memory as t) old c
termination_by structural _ t => t

def overwriteFields (memory : Memory) (ownership : Ownership) :
    List Field → List Value → Slots → Cursor → Placed (List Value)
  | .mandatory _ t :: fs, v :: vs, slots, c =>
    let first := overwriteAs memory ownership t t v c
    match first.outcome with
    | .ok () c => (overwriteFields memory ownership fs vs slots c).map (first.place :: ·)
    | .error h c => ⟨first.place :: vs, .error h c⟩
  | .compatible _ _ t :: fs, v :: vs, slots, c =>
    match slots.read (decode memory t) c with
    | .ok (found, slots) c =>
      let place := (found.map Value.present).getD v
      (overwriteFields memory ownership fs vs slots c).map (place :: ·)
    | .error h c => ⟨v :: vs, .error h c⟩
  | .skipped .. :: fs, v :: vs, slots, c =>
    (overwriteFields memory ownership fs vs slots c).map (v :: ·)
  | _, vs, slots, c => ⟨vs, slots.finish c⟩
termination_by structural fs => fs

end

def overwriteBodyAs (memory : Memory) (ownership : Ownership) :
    (as : Schema) → Schema → Value → Slots → Cursor → Placed Value
  | _, .struct _ _ fields, .record vs, slots, c =>
    (overwriteFields memory ownership fields vs slots c).map .record
  | _, .pointer p t, old, slots, c =>
    if p.isInPlace ownership then overwriteBodyAs memory ownership t t old slots c
    else .replace (decodeBody memory t slots) old c
  | as, .named _ t, old, slots, c => overwriteBodyAs memory ownership as t old slots c
  | as, t, old, slots, c => (overwriteAs memory ownership as t old c).andThen slots.finish

/-! ## Stepping over values -/

def passOr (width : Option Nat) (walk : Run Unit) : Run Unit :=
  match width with
  | some w => do let _ ← take w
  | none => walk

/-- Passes so many elements. The product of their number and width is only used where it does not
overflow. -/
def passRun (width : Option Nat) (count : Nat) (element : Run Unit) : Run Unit :=
  match width with
  | some w =>
    match checked (count * w) with
    | some total => do let _ ← take (← represent total)
    | none => fault (.run count w)
  | none => times element count

mutual

def skip : Descriptor → Run Unit
  | .unit => do let _ ← take 0
  | .scalar s => do let _ ← take s.width
  | .text => do let _ ← take (← length)
  | .sequence element | .set element => do
    passRun element.fixedWidth (← length) (skip element)
  | .map key value => do
    let count ← length
    let entry := do
      skip key
      skip value
    times entry count
  | .array element count =>
    passOr (Descriptor.array element count).fixedWidth
      (passRun element.fixedWidth count (skip element))
  | .optional payload => do
    if ← bool then skip payload
  | .variant typeName alternatives => do
    let index ← discriminant alternatives.length
    skipAlternative alternatives index
      (fault (.discriminant index typeName alternatives.length))
  | .aggregate typeName fields extensible =>
    passOr (Descriptor.aggregate typeName fields extensible).fixedWidth do
      let slots ← Slots.start extensible
      skipMandatory fields
      slots.finish
termination_by structural d => d

def skipMandatory : List FieldDescriptor → Run Unit
  | [] => pure ()
  | ⟨_, shape, none⟩ :: fs => do
    skip shape
    skipMandatory fs
  | ⟨_, _, some _⟩ :: fs => skipMandatory fs
termination_by structural fs => fs

def skipPayload : List FieldDescriptor → Run Unit
  | [] => pure ()
  | ⟨_, shape, _⟩ :: fs => do
    skip shape
    skipPayload fs
termination_by structural fs => fs

def skipAlternative : List AlternativeDescriptor → (index : Nat) → Run Unit → Run Unit
  | [], _, missing => missing
  | ⟨_, fields⟩ :: _, 0, _ => skipPayload fields
  | _ :: as, index + 1, missing => skipAlternative as index missing
termination_by structural as => as

end

end Machine
end RecordCodec
