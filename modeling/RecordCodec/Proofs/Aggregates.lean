import RecordCodec.Proofs.Composition

/-! # Aggregates

A struct, a tuple and a duration are each described as fields one behind the other. Whichever of them
a type is, and whatever points to it, the body of a record consists of the fields' bytes behind the
bitmap of the slots, which is not there if there are none.
-/
namespace RecordCodec

open Emission (joined)

def Field.ofDuration : List Field :=
  [.mandatory "secs" (.scalar .u64), .mandatory "nanos" (.scalar .u32)]

namespace Schema

open RecordCodec.Field (slotSchemas ofComponents ofDuration)

/-- The fields of a struct, a tuple or a duration, whatever points to it. -/
def aggregateFields? (t : Schema) : Option (List Field) :=
  match t.bare with
  | duration => some ofDuration
  | _ => t.recordFields?

/-! ## Tuples as fields -/

theorem encodeFields_ofComponents (index : Nat) (ts : List Schema) (vs : List Value) :
    encodeFields (ofComponents index ts) vs = encodeComponents ts vs := by
  induction ts generalizing index vs with
  | nil => rfl
  | cons t ts ih =>
    cases vs with
    | nil => rfl
    | cons v vs => exact congrArg (joined (t.encode v)) (ih (index + 1) vs)

theorem fieldsAdmit_ofComponents (index : Nat) (ts : List Schema) (vs : List Value) :
    fieldsAdmit (ofComponents index ts) vs = componentsAdmit ts vs := by
  induction ts generalizing index vs with
  | nil => cases vs <;> rfl
  | cons t ts ih =>
    cases vs with
    | nil => rfl
    | cons v vs => exact congrArg (t.admits v && ·) (ih (index + 1) vs)

theorem fieldLengths_ofComponents (index : Nat) (ts : List Schema) (vs : List Value) :
    fieldLengths (ofComponents index ts) vs = componentLengths ts vs := by
  induction ts generalizing index vs with
  | nil => rfl
  | cons t ts ih =>
    cases vs with
    | nil => rfl
    | cons v vs => exact congrArg (t.lengths v ++ ·) (ih (index + 1) vs)

/-! ## Aggregates as fields -/

variable {t : Schema} {fs : List Field} {v : Value}

theorem aggregateFields?_eq_some (h : t.aggregateFields? = some fs) :
    (t.bare = duration ∧ fs = ofDuration) ∨ t.recordFields? = some fs := by
  unfold aggregateFields? at h
  split at h
  · exact .inl ⟨by assumption,(Option.some.inj h).symm⟩
  · exact .inr h

theorem shape_of_aggregate (h : t.aggregateFields? = some fs) :
    ∃ name extensible, t.shape = .aggregate name (fieldShapes fs) extensible := by
  rcases aggregateFields?_eq_some h with ⟨hb,rfl⟩ | h
  · rw [← shape_bare, hb]
    exact ⟨_,false,rfl⟩
  · exact shape_of_record h

theorem wellFormed_of_aggregate (h : t.aggregateFields? = some fs) (hw : t.WellFormed) :
    Field.InOrder fs ∧ (slotSchemas fs).length ≤ maxSlots ∧ FieldsWellFormed fs := by
  rcases aggregateFields?_eq_some h with ⟨hb,rfl⟩ | h
  · exact ⟨trivial,Nat.zero_le _,trivial,trivial,trivial⟩
  · obtain ⟨hi,hf⟩ := wellFormed_of_record h hw
    refine ⟨hi,?_,hf⟩
    rw [← wellFormed_bare] at hw
    rcases recordFields?_eq_some h with ⟨name,style,hb⟩ | ⟨ts,hb,rfl⟩
    · rw [hb] at hw
      exact hw.2.1
    · rw [slotSchemas_ofComponents]
      exact Nat.zero_le _

theorem isPlain_bare : ∀ t : Schema, t.WellFormed →
    t.bare.isPlain = true ∨ ∃ name style fields, t.bare = struct name style fields
  | struct name style fields, _ => .inr ⟨name,style,fields,rfl⟩
  | pointer _ t, hw | named _ t, hw => isPlain_bare t hw
  | compatible .., hw | reference _, hw => hw.elim
  | unit, _ | scalar _, _ | text, _ | duration, _ | sequence _, _ | set _, _ | map .., _ | array .., _
  | option _, _ | tuple _, _ | enum .., _ => .inl rfl

/-- Without fields a type is no aggregate, and its body is a value like one inside another. -/
theorem plain_of_no_fields (hw : t.WellFormed) (h : t.aggregateFields? = none) (typeName : String) :
    Layout.isAggregate ⟨typeName,t.shape⟩ = false ∧ t.encodeBody v = t.encode v := by
  unfold aggregateFields? recordFields? at h
  rw [← encodeBody_bare, ← encode_bare, ← shape_bare]
  rcases isPlain_bare t hw with hp | ⟨name,style,fields,hb⟩
  · refine ⟨?_,encodeBody_of_isPlain hp v⟩
    cases hb : t.bare with
    | duration | tuple | struct =>
      rw [hb] at h
      cases h
    | pointer | named | compatible | reference =>
      rw [hb] at hp
      cases hp
    | _ => rfl
  · rw [hb] at h
    cases h

theorem exists_durationValues (h : v.isDuration = true) : ∃ vs, v = .record vs ∧
    fieldsAdmit ofDuration vs = true ∧ fieldLengths ofDuration vs = [] ∧
      duration.encode v = encodeFields ofDuration vs := by
  obtain ⟨secs,nanos,rfl,hsecs,hnanos⟩ := Value.isDuration_eq_true h
  refine ⟨_,rfl,?_,rfl,rfl⟩
  have hs : (scalar .u64).admits (.int secs) = true := decide_eq_true hsecs
  have hrange : (1000000000 : Int) < (Bytes.LittleEndian.range 4 : Nat) := by decide
  have hn : (scalar .u32).admits (.int nanos) = true :=
    decide_eq_true ⟨hnanos.1,hnanos.2.trans hrange⟩
  change ((scalar .u64).admits _ && ((scalar .u32).admits _ && true)) = true
  rw [hs, hn]
  rfl

/-- The value has those of the fields, and its body their bytes behind the bitmap of the slots. -/
structure Consists (t : Schema) (v : Value) (fs : List Field) (vs : List Value) (p : Presence) :
    Prop where
  value_eq : v = .record vs
  admits : fieldsAdmit fs vs = true
  lengths_eq : t.lengths v = fieldLengths fs vs
  built : Presence.ofSlots (Field.slots fs vs) = .ok p
  isEmpty_eq : p.isEmpty = (slotSchemas fs).isEmpty
  body_eq : t.encodeBody v =
    joined (.ok (if p.isEmpty then [] else Emission.presence p)) (encodeFields fs vs)

/-- A value of an aggregate has those of the fields. Its body is theirs, unless it is a struct and can
have a bitmap. -/
theorem exists_fieldValues (h : t.aggregateFields? = some fs) (ha : t.admits v = true) :
    ∃ vs, v = .record vs ∧ fieldsAdmit fs vs = true ∧ t.lengths v = fieldLengths fs vs ∧
      ((slotSchemas fs = [] ∧ t.encodeBody v = encodeFields fs vs) ∨
        ∃ name style, t.bare = struct name style fs) := by
  rw [← admits_bare] at ha
  rw [← lengths_bare, ← encodeBody_bare]
  rcases aggregateFields?_eq_some h with ⟨hb,rfl⟩ | h
  · rw [hb] at ha ⊢
    obtain ⟨vs,rfl,hvs,hl,he⟩ := exists_durationValues ha
    exact ⟨vs,rfl,hvs,hl.symm,.inl ⟨rfl,he⟩⟩
  rcases recordFields?_eq_some h with ⟨name,style,hb⟩ | ⟨ts,hb,rfl⟩
  · rw [hb] at ha ⊢
    cases v with
    | record vs => exact ⟨vs,rfl,ha,rfl,.inr ⟨name,style,rfl⟩⟩
    | _ => cases ha
  · rw [hb] at ha ⊢
    cases v with
    | record vs =>
      refine ⟨vs,rfl,(fieldsAdmit_ofComponents 0 ts vs).trans ha,?_,.inl ⟨?_,?_⟩⟩
      · exact (fieldLengths_ofComponents 0 ts vs).symm
      · exact slotSchemas_ofComponents 0 ts
      · exact (encodeFields_ofComponents 0 ts vs).symm
    | _ => cases ha

theorem exists_consists (h : t.aggregateFields? = some fs) (hw : t.WellFormed)
    (ha : t.admits v = true) : ∃ vs p, t.Consists v fs vs p := by
  obtain ⟨-,hn,hf⟩ := wellFormed_of_aggregate h hw
  obtain ⟨vs,rfl,hvs,hl,hbody⟩ := exists_fieldValues h ha
  obtain ⟨p,hp,hslots⟩ := ofSlots_fields hn hf hvs
  have hempty := isEmpty_of_slots hvs hslots
  refine ⟨vs,p,rfl,hvs,hl,hp,hempty,?_⟩
  rcases hbody with ⟨hnone,he⟩ | ⟨name,style,hb⟩
  · rw [hempty, hnone, he]
    exact (Emission.joined_nil _).symm
  · rw [← encodeBody_bare, hb]
    exact encodeBody_struct hp

/-! ## Layouts of aggregates -/

theorem announcesBitmap_of_aggregate (h : t.aggregateFields? = some fs) (typeName : String) :
    (Layout.header ⟨typeName,t.shape⟩).announcesBitmap = !(slotSchemas fs).isEmpty := by
  obtain ⟨name,extensible,hs⟩ := shape_of_aggregate h
  rw [hs]
  exact anyCompatible_fieldShapes fs

end Schema
end RecordCodec
