import RecordCodec.Body.Scalar
import RecordCodec.Emission

/-! # Values as bytes

The pieces that a value comes to under its schema. A struct inside another value opens with its
presence bitmap; an outermost struct has one only if it has slots, because the header announces it.
Each filled slot is written behind the length of its payload. A value that does not fit its schema
comes to nothing.
-/
namespace RecordCodec

namespace Schema

/-- The slots that a field of this type and value fills or leaves empty: pointers pass on those of
their pointees, and no other type but a compatible one has any. -/
def slots : Schema → Value → List Bool
  | compatible .., .present _ => [true]
  | compatible .., _ => [false]
  | pointer _ t, v => t.slots v
  | _, _ => []

end Schema

namespace Field

def slots : List Field → List Value → List Bool
  | mandatory _ t :: fs, v :: vs => t.slots v ++ slots fs vs
  | compatible _ version t :: fs, v :: vs => (Schema.compatible t version).slots v ++ slots fs vs
  | skipped .. :: fs, _ :: vs => slots fs vs
  | _, _ => []

end Field

namespace Schema

def encodeDuration : Value → List Emission
  | .record [secs, nanos] =>
    [.bytes (Scalar.u64.encode secs), .bytes (Scalar.u32.encode nanos)]
  | _ => []

def encodeEntry (key value : Value → Except Error (List Emission)) :
    Value → Except Error (List Emission)
  | .record [k, v] => do pure ((← key k) ++ (← value v))
  | _ => .ok []

mutual

def encode : Schema → Value → Except Error (List Emission)
  | unit, _ => .ok []
  | scalar s, v => .ok [.bytes (s.encode v)]
  | text, .text s => .ok (Emission.text s)
  | duration, v => .ok (encodeDuration v)
  | sequence t, .sequence vs | set t, .sequence vs => do
    pure (.varint vs.length :: (← vs.mapM t.encode).flatten)
  | map k v, .sequence es => do
    pure (.varint es.length :: (← es.mapM (encodeEntry k.encode v.encode)).flatten)
  | array t _, .sequence vs => do pure (← vs.mapM t.encode).flatten
  | option _, .absent => .ok [.bytes (Scalar.bool.encode (.bool false))]
  | option t, .present v => do
    pure (.bytes (Scalar.bool.encode (.bool true)) :: (← t.encode v))
  | tuple ts, .record vs => encodeComponents ts vs
  | pointer _ t, v => t.encode v
  | compatible t _, .present v => Emission.framed <$> t.encode v
  | struct _ _ fields, .record vs => do
    let presence ← Presence.ofSlots (Field.slots fields vs)
    pure (Emission.presence presence ++ (← encodeFields fields vs))
  | enum _ _ alternatives, .variant index vs => do
    let discriminant ← Emission.discriminant index alternatives.length
    pure (discriminant :: (← encodeAlternative alternatives index vs))
  | named _ t, v => t.encode v
  | _, _ => .ok []
termination_by structural t => t

def encodeComponents : List Schema → List Value → Except Error (List Emission)
  | t :: ts, v :: vs => do pure ((← t.encode v) ++ (← encodeComponents ts vs))
  | _, _ => .ok []
termination_by structural ts => ts

def encodeFields : List Field → List Value → Except Error (List Emission)
  | .mandatory _ t :: fs, v :: vs => do pure ((← t.encode v) ++ (← encodeFields fs vs))
  | .compatible _ _ t :: fs, .present v :: vs => do
    pure (Emission.framed (← t.encode v) ++ (← encodeFields fs vs))
  | .compatible .. :: fs, _ :: vs => encodeFields fs vs
  | .skipped .. :: fs, _ :: vs => encodeFields fs vs
  | _, _ => .ok []
termination_by structural fs => fs

def encodeAlternative : List Alternative → (index : Nat) → List Value → Except Error (List Emission)
  | .mk _ _ fields :: _, 0, vs => encodeFields fields vs
  | _ :: as, index + 1, vs => encodeAlternative as index vs
  | [], _, _ => .ok []
termination_by structural as => as

end

/-- The pieces of a value as the body of a record. -/
def encodeBody : Schema → Value → Except Error (List Emission)
  | struct _ _ fields, .record vs => do
    let presence ← Presence.ofSlots (Field.slots fields vs)
    let opening := if presence.isEmpty then [] else Emission.presence presence
    pure (opening ++ (← encodeFields fields vs))
  | pointer _ t, v => t.encodeBody v
  | named _ t, v => t.encodeBody v
  | t, v => t.encode v

end Schema
end RecordCodec
