import RecordCodec.Body.Scalar
import RecordCodec.Presence

/-! # Values from bytes

Reads the value of a schema. A struct inside another value opens with its presence bitmap; the
bitmap of an outermost struct, if it has one, is read with the header. Fields are read in their
order: mandatory ones in place, compatible ones from the next slot, and skipped ones get their
default. Slots that the schema does not know are stepped over.
-/
namespace RecordCodec

namespace Read

/-- Reads `n` values into a collection that ascends by `view`; one that is there already is a
fault. -/
def distinct (view : Value → Value) (item : Read Value) :
    (n : Nat) → (collected : List Value) → Read (List Value)
  | 0, collected => pure collected
  | n + 1, collected => do
    let v ← item
    match Value.insert? view v collected with
    | some collected => distinct view item n collected
    | none => fault .duplicate

def duration : Read Value := do
  let secs ← nat 8
  let nanos ← nat 4
  if nanos < 1000000000 then pure (.record [.int secs, .int nanos])
  else fault (.nanoseconds nanos)

end Read

namespace Value

def ofOption : Option Value → Value
  | some v => present v
  | none => absent

end Value

namespace Schema

mutual

def decode : Schema → Read Value
  | unit => pure .unit
  | scalar s => s.read
  | text => .text <$> Read.text
  | duration => Read.duration
  | sequence t => do
    let n ← Read.length
    .sequence <$> Read.replicate n t.decode
  | set t => do
    let n ← Read.length
    .sequence <$> Read.distinct id t.decode n []
  | map k v => do
    let n ← Read.length
    let entry := do
      let key ← k.decode
      let value ← v.decode
      pure (Value.entry key value)
    .sequence <$> Read.distinct Value.key entry n []
  | array t n => .sequence <$> Read.replicate n t.decode
  | option t => do
    if ← Read.bool then .present <$> t.decode else pure .absent
  | tuple ts => .record <$> decodeComponents ts
  | pointer _ t => t.decode
  | compatible .. => Read.fault .loneCompatible
  | struct _ _ fields => do
    let slots ← Slots.start true
    .record <$> decodeFields fields slots
  | enum _ label alternatives => do
    let index ← Read.discriminant alternatives.length
    .variant index <$> decodeAlternative alternatives index
      (Read.fault (.discriminant index label alternatives.length))
  | named _ t => t.decode
  | reference name => throw (.cyclicType name)
termination_by structural t => t

def decodeComponents : List Schema → Read (List Value)
  | [] => pure []
  | t :: ts => do
    let v ← t.decode
    let vs ← decodeComponents ts
    pure (v :: vs)
termination_by structural ts => ts

/-- Reads the fields of a struct, whose presence bitmap is read, and steps over the slots that are
left. -/
def decodeFields : List Field → Slots → Read (List Value)
  | [], slots => do
    slots.finish
    pure []
  | .mandatory _ t :: fs, slots => do
    let v ← t.decode
    let vs ← decodeFields fs slots
    pure (v :: vs)
  | .compatible _ _ t :: fs, slots => do
    let (v, slots) ← slots.read t.decode
    let vs ← decodeFields fs slots
    pure (Value.ofOption v :: vs)
  | .skipped _ _ default :: fs, slots => do
    let vs ← decodeFields fs slots
    pure (default :: vs)
termination_by structural fs => fs

def decodePayload : List Field → Read (List Value)
  | [] => pure []
  | .mandatory _ t :: fs => do
    let v ← t.decode
    let vs ← decodePayload fs
    pure (v :: vs)
  | .compatible .. :: _ => Read.fault .loneCompatible
  | .skipped _ _ default :: fs => do
    let vs ← decodePayload fs
    pure (default :: vs)
termination_by structural fs => fs

/-- Reads the fields of the alternative at `index`, or fails as told if there is none. -/
def decodeAlternative : List Alternative → (index : Nat) → Read (List Value) → Read (List Value)
  | [], _, missing => missing
  | .mk _ _ fields :: _, 0, _ => decodePayload fields
  | _ :: as, index + 1, missing => decodeAlternative as index missing
termination_by structural as => as

end

/-- Reads a value as the body of a record, whose slots the header has told. -/
def decodeBody : Schema → Slots → Read Value
  | struct _ _ fields, slots => .record <$> decodeFields fields slots
  | pointer _ t, slots => t.decodeBody slots
  | named _ t, slots => t.decodeBody slots
  | t, slots => do
    let v ← t.decode
    slots.finish
    pure v

end Schema
end RecordCodec
