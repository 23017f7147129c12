import RecordCodec.Body.Encode
import RecordCodec.Proofs.Order

/-! # The values of a type

Which values a type has, which length prefixes their records hold, what becomes of them once skipped
fields are reset, and whether their sets and maps hold anything twice.
-/
namespace RecordCodec

open Bytes (LittleEndian.range)

def Scalar.admits : Scalar → Value → Bool
  | bool, .bool _ | char, .char _ => true
  | f32, .float bits => bits < LittleEndian.range 4
  | f64, .float bits => bits < LittleEndian.range 8
  | u8, .int i => fits 1 i
  | u16, .int i => fits 2 i
  | u32, .int i => fits 4 i
  | u64, .int i => fits 8 i
  | u128, .int i => fits 16 i
  | i8, .int i => fitsSigned 1 i
  | i16, .int i => fitsSigned 2 i
  | i32, .int i => fitsSigned 4 i
  | i64, .int i => fitsSigned 8 i
  | i128, .int i => fitsSigned 16 i
  | _, _ => false
where
  fits (width : Nat) (i : Int) : Bool := 0 ≤ i ∧ i < (LittleEndian.range width : Nat)
  fitsSigned (width : Nat) (i : Int) : Bool :=
    -(LittleEndian.range width : Nat) ≤ 2 * i ∧ 2 * i < (LittleEndian.range width : Nat)

namespace Value

def isDuration : Value → Bool
  | record [int secs, int nanos] =>
    Scalar.admits.fits 8 secs && decide (0 ≤ nanos ∧ nanos < 1000000000)
  | _ => false

def isEntry (key value : Value → Bool) : Value → Bool
  | record [k, v] => key k && value v
  | _ => false

def mapEntry (key value : Value → Value) : Value → Value
  | record [k, v] => entry (key k) (value v)
  | v => v

def entryParts {α : Type} (key value : Value → List α) : Value → List α
  | record [k, v] => key k ++ value v
  | _ => []

theorem isEntry_eq_true {p q : Value → Bool} {e : Value} (h : isEntry p q e = true) :
    ∃ a b, e = record [a, b] ∧ p a = true ∧ q b = true := by
  unfold isEntry at h
  split at h
  · exact ⟨_,_,rfl,Bool.and_eq_true_iff.mp h⟩
  · cases h

theorem isDuration_eq_true {v : Value} (h : v.isDuration = true) :
    ∃ secs nanos : Int, v = record [int secs, int nanos] ∧
      (0 ≤ secs ∧ secs < (LittleEndian.range 8 : Nat)) ∧ 0 ≤ nanos ∧ nanos < 1000000000 := by
  unfold isDuration at h
  split at h
  · obtain ⟨hs,hn⟩ := Bool.and_eq_true_iff.mp h
    exact ⟨_,_,rfl,of_decide_eq_true hs,of_decide_eq_true hn⟩
  · cases h

end Value

namespace Schema

mutual

/-- Whether a value is one of the type. A set may come with its elements in any order, and so may a
map with its entries. -/
def admits : Schema → Value → Bool
  | unit, .unit | text, .text _ | option _, .absent => true
  | scalar s, v => s.admits v
  | duration, v => v.isDuration
  | sequence t, .sequence vs | set t, .sequence vs => vs.all t.admits
  | map k v, .sequence es => es.all (Value.isEntry k.admits v.admits)
  | array t n, .sequence vs => vs.length == n && vs.all t.admits
  | option t, .present v => t.admits v
  | tuple ts, .record vs => componentsAdmit ts vs
  | pointer _ t, v | named _ t, v => t.admits v
  | struct _ _ fields, .record vs => fieldsAdmit fields vs
  | enum _ _ alternatives, .variant index vs => alternativeAdmits alternatives index vs
  | _, _ => false
termination_by structural t => t

def componentsAdmit : List Schema → List Value → Bool
  | [], [] => true
  | t :: ts, v :: vs => t.admits v && componentsAdmit ts vs
  | _, _ => false
termination_by structural ts => ts

def fieldsAdmit : List Field → List Value → Bool
  | [], [] => true
  | .mandatory _ t :: fs, v :: vs => t.admits v && fieldsAdmit fs vs
  | .compatible _ _ t :: fs, .present v :: vs => t.admits v && fieldsAdmit fs vs
  | .compatible .. :: fs, .absent :: vs => fieldsAdmit fs vs
  | .skipped .. :: fs, _ :: vs => fieldsAdmit fs vs
  | _, _ => false
termination_by structural fs => fs

def alternativeAdmits : List Alternative → (index : Nat) → List Value → Bool
  | .mk _ _ fields :: _, 0, vs => fieldsAdmit fields vs
  | _ :: as, index + 1, vs => alternativeAdmits as index vs
  | [], _, _ => false
termination_by structural as => as

end

/-- A compatible field holds what an option of its type does. -/
theorem fieldsAdmit_compatible (name : String) (version : Nat) (t : Schema) (fs : List Field)
    (v : Value) (vs : List Value) :
    fieldsAdmit (.compatible name version t :: fs) (v :: vs) =
      ((option t).admits v && fieldsAdmit fs vs) := by
  cases v <;> rfl

theorem fieldsAdmit_of_compatible {name : String} {version : Nat} {t : Schema} {fs : List Field}
    {v : Value} {vs : List Value}
    (h : fieldsAdmit (.compatible name version t :: fs) (v :: vs) = true) :
    fieldsAdmit fs vs = true := by
  rw [fieldsAdmit_compatible, Bool.and_eq_true_iff] at h
  exact h.2

def payloadLength (t : Schema) (v : Value) : Nat :=
  match t.encode v with
  | .ok es => (Emission.allBytes es).length
  | .error _ => 0

mutual

/-- The length prefixes of a value: the bytes of each text, the elements of each collection, the
bytes of each payload of a compatible field. -/
def lengths : Schema → Value → List Nat
  | text, .text s => [(Text.Utf8.encode s).length]
  | sequence t, .sequence vs | set t, .sequence vs => vs.length :: vs.flatMap t.lengths
  | map k v, .sequence es => es.length :: es.flatMap (Value.entryParts k.lengths v.lengths)
  | array t _, .sequence vs => vs.flatMap t.lengths
  | option t, .present v => t.lengths v
  | tuple ts, .record vs => componentLengths ts vs
  | pointer _ t, v | named _ t, v => t.lengths v
  | struct _ _ fields, .record vs => fieldLengths fields vs
  | enum _ _ alternatives, .variant index vs => alternativeLengths alternatives index vs
  | _, _ => []
termination_by structural t => t

def componentLengths : List Schema → List Value → List Nat
  | t :: ts, v :: vs => t.lengths v ++ componentLengths ts vs
  | _, _ => []
termination_by structural ts => ts

def fieldLengths : List Field → List Value → List Nat
  | .mandatory _ t :: fs, v :: vs => t.lengths v ++ fieldLengths fs vs
  | .compatible _ _ t :: fs, .present v :: vs =>
    t.payloadLength v :: (t.lengths v ++ fieldLengths fs vs)
  | .compatible .. :: fs, _ :: vs | .skipped .. :: fs, _ :: vs => fieldLengths fs vs
  | _, _ => []
termination_by structural fs => fs

def alternativeLengths : List Alternative → (index : Nat) → List Value → List Nat
  | .mk _ _ fields :: _, 0, vs => fieldLengths fields vs
  | _ :: as, index + 1, vs => alternativeLengths as index vs
  | [], _, _ => []
termination_by structural as => as

end

mutual

/-- A value with every skipped field reset to its default, and sets and maps in order. -/
def reset : Schema → Value → Value
  | sequence t, .sequence vs | array t _, .sequence vs => .sequence (vs.map t.reset)
  | set t, .sequence vs => .sequence (Value.arranged id (vs.map t.reset))
  | map k v, .sequence es =>
    .sequence (Value.arranged Value.key (es.map (Value.mapEntry k.reset v.reset)))
  | option t, .present v => .present (t.reset v)
  | tuple ts, .record vs => .record (resetComponents ts vs)
  | pointer _ t, v | named _ t, v => t.reset v
  | struct _ _ fields, .record vs => .record (resetFields fields vs)
  | enum _ _ alternatives, .variant index vs =>
    .variant index (resetAlternative alternatives index vs)
  | _, v => v
termination_by structural t => t

def resetComponents : List Schema → List Value → List Value
  | t :: ts, v :: vs => t.reset v :: resetComponents ts vs
  | _, _ => []
termination_by structural ts => ts

def resetFields : List Field → List Value → List Value
  | .mandatory _ t :: fs, v :: vs => t.reset v :: resetFields fs vs
  | .compatible _ _ t :: fs, .present v :: vs => .present (t.reset v) :: resetFields fs vs
  | .compatible .. :: fs, _ :: vs => .absent :: resetFields fs vs
  | .skipped _ _ default :: fs, _ :: vs => default :: resetFields fs vs
  | _, _ => []
termination_by structural fs => fs

def resetAlternative : List Alternative → (index : Nat) → List Value → List Value
  | .mk _ _ fields :: _, 0, vs => resetFields fields vs
  | _ :: as, index + 1, vs => resetAlternative as index vs
  | [], _, _ => []
termination_by structural as => as

end

mutual

/-- Whether no set of a value has an element twice, and no map a key. What skipped fields hold does
not count. -/
def distinct : Schema → Value → Bool
  | sequence t, .sequence vs | array t _, .sequence vs => vs.all t.distinct
  | set t, .sequence vs => vs.all t.distinct && decide vs.Nodup
  | map k v, .sequence es =>
    es.all (Value.isEntry k.distinct v.distinct) && decide (es.map Value.key).Nodup
  | option t, .present v => t.distinct v
  | tuple ts, .record vs => componentsDistinct ts vs
  | pointer _ t, v | named _ t, v => t.distinct v
  | struct _ _ fields, .record vs => fieldsDistinct fields vs
  | enum _ _ alternatives, .variant index vs => alternativeDistinct alternatives index vs
  | _, _ => true
termination_by structural t => t

def componentsDistinct : List Schema → List Value → Bool
  | t :: ts, v :: vs => t.distinct v && componentsDistinct ts vs
  | _, _ => true
termination_by structural ts => ts

def fieldsDistinct : List Field → List Value → Bool
  | .mandatory _ t :: fs, v :: vs | .compatible _ _ t :: fs, .present v :: vs =>
    t.distinct v && fieldsDistinct fs vs
  | .compatible .. :: fs, _ :: vs | .skipped .. :: fs, _ :: vs => fieldsDistinct fs vs
  | _, _ => true
termination_by structural fs => fs

def alternativeDistinct : List Alternative → (index : Nat) → List Value → Bool
  | .mk _ _ fields :: _, 0, vs => fieldsDistinct fields vs
  | _ :: as, index + 1, vs => alternativeDistinct as index vs
  | [], _, _ => true
termination_by structural as => as

end
end Schema
end RecordCodec
