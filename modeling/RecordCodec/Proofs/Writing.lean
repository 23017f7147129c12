import RecordCodec.Proofs.Pieces
import RecordCodec.Proofs.Related
import RecordCodec.Proofs.Slots

/-! # Every value of a type can be written

What a value is written as, constructor by constructor: pieces behind each other. The pieces of a
struct's fields are those of its mandatory parts and, behind them, those of its filled slots. A value
of a well-formed type can always be written, and has as many bytes as are counted.
-/
namespace RecordCodec

open Emission (allBytes joined eachOf framed)

/-- The type is well formed, the value is one of it, and its length prefixes are within the
limit. -/
structure Fits (o : Options) (part : Schema × Value) : Prop where
  wellFormed : part.1.WellFormed
  admits : part.1.admits part.2 = true
  within : ∀ n ∈ part.1.lengths part.2, n ≤ o.maxLength

/-- The largest limit under which lengths are numbers of 64 bits. -/
def Options.widest : Options := { maxLength := addressSpace - 1 }

theorem Options.widest_lt : widest.maxLength < addressSpace := by decide

theorem Fits.widest {t : Schema} {v : Value} (hw : t.WellFormed) (ha : t.admits v = true)
    (hl : ∀ n ∈ t.lengths v, n < addressSpace) : Fits .widest (t,v) :=
  ⟨hw,ha,fun n hn => Nat.le_sub_one_of_lt (hl n hn)⟩

/-- The slot is empty, or its payload fits and has a length within the limit. -/
inductive SlotFits (o : Options) : Schema × Value → Prop where
  | empty (t : Schema) : SlotFits o (t,.absent)
  | filled {t : Schema} {v : Value} (h : Fits o (t,v)) (hl : t.payloadLength v ≤ o.maxLength) :
    SlotFits o (t,.present v)

namespace Field

/-- Whether a slot is filled. -/
def isFilled : Schema × Value → Bool
  | (_,.present _) => true
  | _ => false

/-- The pieces of mandatory parts. -/
def mandatoryPieces : List (Schema × Value) → Except Error (List Emission)
  | [] => .ok []
  | m :: ms => joined (m.1.encode m.2) (mandatoryPieces ms)

/-- The pieces of slots: each payload behind its length, and nothing for an empty slot. -/
def slotPieces : List (Schema × Value) → Except Error (List Emission)
  | [] => .ok []
  | (t,.present v) :: ss => joined (framed <$> t.encode v) (slotPieces ss)
  | _ :: ss => slotPieces ss

end Field

namespace Schema

open RecordCodec.Field (mandatorySchemas slotSchemas mandatoryParts slotParts mandatoryPieces
  slotPieces isFilled)

/-! ## Equations of the writer -/

theorem encode_sequence (t : Schema) (vs : List Value) :
    (sequence t).encode (.sequence vs) = joined (.ok [.varint vs.length]) (eachOf t.encode vs) :=
  Emission.joined_eachOf _ vs

theorem encode_set (t : Schema) (vs : List Value) :
    (set t).encode (.sequence vs) = joined (.ok [.varint vs.length]) (eachOf t.encode vs) :=
  Emission.joined_eachOf _ vs

theorem encode_map (k v : Schema) (es : List Value) :
    (map k v).encode (.sequence es) =
      joined (.ok [.varint es.length]) (eachOf (encodeEntry k.encode v.encode) es) :=
  Emission.joined_eachOf _ es

theorem encode_array (t : Schema) (n : Nat) (vs : List Value) :
    (array t n).encode (.sequence vs) = eachOf t.encode vs := by
  unfold eachOf
  change (vs.mapM t.encode >>= fun es => pure es.flatten) = _
  cases vs.mapM t.encode <;> rfl

theorem encode_present (t : Schema) (v : Value) :
    (option t).encode (.present v) =
      joined (.ok [.bytes (Scalar.bool.encode (.bool true))]) (t.encode v) := rfl

theorem encode_struct {name : String} {style : Style} {fields : List Field} {vs : List Value}
    {p : Presence} (h : Presence.ofSlots (Field.slots fields vs) = .ok p) :
    (struct name style fields).encode (.record vs) =
      joined (.ok (Emission.presence p)) (encodeFields fields vs) := by
  change (Presence.ofSlots (Field.slots fields vs) >>= _) = _
  rw [h]
  rfl

/-- An outermost struct opens with its bitmap only if that has slots. -/
theorem encodeBody_struct {name : String} {style : Style} {fields : List Field} {vs : List Value}
    {p : Presence} (h : Presence.ofSlots (Field.slots fields vs) = .ok p) :
    (struct name style fields).encodeBody (.record vs) =
      joined (.ok (if p.isEmpty then [] else Emission.presence p)) (encodeFields fields vs) := by
  change (Presence.ofSlots (Field.slots fields vs) >>= _) = _
  rw [h]
  rfl

theorem encode_enum {name label : String} {alternatives : List Alternative} {index : Nat}
    {vs : List Value} {e : Emission}
    (h : Emission.discriminant index alternatives.length = .ok e) :
    (enum name label alternatives).encode (.variant index vs) =
      joined (.ok [e]) (encodeAlternative alternatives index vs) := by
  change (Emission.discriminant index alternatives.length >>= _) = _
  rw [h]
  rfl

theorem encodeFields_mandatory (name : String) (t : Schema) (fs : List Field) (v : Value)
    (vs : List Value) :
    encodeFields (.mandatory name t :: fs) (v :: vs) = joined (t.encode v) (encodeFields fs vs) :=
  rfl

theorem encodeFields_present (name : String) (version : Nat) (t : Schema) (fs : List Field)
    (v : Value) (vs : List Value) :
    encodeFields (.compatible name version t :: fs) (.present v :: vs) =
      joined (framed <$> t.encode v) (encodeFields fs vs) := by
  change (t.encode v >>= _) = _
  cases t.encode v <;> rfl

theorem discriminant_eq_ok {index alternatives : Nat} (h : index < alternatives)
    (hn : alternatives ≤ maxAlternatives) :
    Emission.discriminant index alternatives =
      .ok (.nat (discriminantWidth alternatives) index) :=
  if_pos ⟨h,Read.lt_discriminant_range h (Nat.le_trans hn (by decide))⟩

/-! ## Parts -/

theorem slots_of_wellFormed (t : Schema) (v : Value) (h : t.WellFormed) : t.slots v = [] := by
  unfold slots
  split
  · cases h
  · cases h
  · rename_i t
    exact t.slots_of_wellFormed v h
  · rfl

/-- What fits as a whole fits part by part. -/
theorem parts_fit {o : Options} {fs : List Field} {vs : List Value} (hw : FieldsWellFormed fs)
    (ha : fieldsAdmit fs vs = true) (hl : ∀ n ∈ fieldLengths fs vs, n ≤ o.maxLength) :
    (∀ m ∈ mandatoryParts fs vs, Fits o m) ∧ ∀ s ∈ slotParts fs vs, SlotFits o s := by
  induction fs generalizing vs with
  | nil =>
    cases vs with
    | nil => exact ⟨nofun,nofun⟩
    | cons v vs => cases ha
  | cons f fs ih =>
    cases vs with
    | nil => cases f <;> cases ha
    | cons v vs =>
      cases f with
      | mandatory name t =>
        obtain ⟨ht,hs⟩ := Bool.and_eq_true_iff.mp ha
        obtain ⟨hlt,hls⟩ := List.forall_mem_append.mp hl
        obtain ⟨hm,hc⟩ := ih hw.2 hs hls
        exact ⟨List.forall_mem_cons.mpr ⟨⟨hw.1,ht,hlt⟩,hm⟩,hc⟩
      | compatible name version t =>
        cases v with
        | present v =>
          obtain ⟨ht,hs⟩ := Bool.and_eq_true_iff.mp ha
          obtain ⟨hp,hl⟩ := List.forall_mem_cons.mp hl
          obtain ⟨hlt,hls⟩ := List.forall_mem_append.mp hl
          obtain ⟨hm,hc⟩ := ih hw.2 hs hls
          exact ⟨hm,List.forall_mem_cons.mpr ⟨.filled ⟨hw.1,ht,hlt⟩ hp,hc⟩⟩
        | absent =>
          obtain ⟨hm,hc⟩ := ih hw.2 ha hl
          exact ⟨hm,List.forall_mem_cons.mpr ⟨.empty t,hc⟩⟩
        | _ => cases ha
      | skipped name t default => exact ih hw ha hl

/-- The parts of a value have the types of the fields. -/
theorem map_fst_parts {fs : List Field} {vs : List Value} (ha : fieldsAdmit fs vs = true) :
    (mandatoryParts fs vs).map Prod.fst = mandatorySchemas fs ∧
      (slotParts fs vs).map Prod.fst = slotSchemas fs := by
  induction fs generalizing vs with
  | nil => exact ⟨rfl,rfl⟩
  | cons f fs ih =>
    cases vs with
    | nil => cases f <;> cases ha
    | cons v vs =>
      cases f with
      | mandatory name t =>
        obtain ⟨hm,hs⟩ := ih (Bool.and_eq_true_iff.mp ha).2
        exact ⟨congrArg (t :: ·) hm,hs⟩
      | compatible name version t =>
        obtain ⟨hm,hs⟩ := ih (fieldsAdmit_of_compatible ha)
        exact ⟨hm,congrArg (t :: ·) hs⟩
      | skipped name t default => exact ih ha

/-- The bits of a struct's bitmap tell which of its slots are filled. -/
theorem slots_eq {fs : List Field} {vs : List Value} (hw : FieldsWellFormed fs) :
    Field.slots fs vs = (slotParts fs vs).map isFilled := by
  induction fs generalizing vs with
  | nil => rfl
  | cons f fs ih =>
    cases vs with
    | nil => cases f <;> rfl
    | cons v vs =>
      cases f with
      | mandatory name t =>
        rw [Field.slots, t.slots_of_wellFormed v hw.1]
        exact ih hw.2
      | compatible name version t =>
        rw [Field.slots, ih hw.2]
        cases v <;> rfl
      | skipped name t default => exact ih hw

/-- The pieces of fields are those of the mandatory parts and, behind them, those of the slots. -/
theorem encodeFields_eq {fs : List Field} {vs : List Value} (hi : Field.InOrder fs)
    (ha : fieldsAdmit fs vs = true) :
    encodeFields fs vs =
      joined (mandatoryPieces (mandatoryParts fs vs)) (slotPieces (slotParts fs vs)) := by
  induction fs generalizing vs with
  | nil => rfl
  | cons f fs ih =>
    cases vs with
    | nil => cases f <;> cases ha
    | cons v vs =>
      cases f with
      | mandatory name t =>
        rw [encodeFields_mandatory, ih hi (Bool.and_eq_true_iff.mp ha).2, ← Emission.joined_assoc]
        rfl
      | compatible name version t =>
        have hm : fieldsAdmit fs vs = true → mandatoryParts fs vs = [] := by
          intro hk
          have hl := (map_fst_parts hk).1
          rw [hi.1] at hl
          exact List.map_eq_nil_iff.mp hl
        cases v with
        | present v =>
          have hk := (Bool.and_eq_true_iff.mp ha).2
          rw [encodeFields_present, ih hi.2 hk, mandatoryParts, hm hk]
          rw [mandatoryPieces, Emission.joined_nil, Emission.joined_nil]
          rfl
        | absent => exact ih hi.2 ha
        | _ => cases ha
      | skipped name t default => exact ih hi ha

theorem slotParts_of_no_slots {fs : List Field} {vs : List Value} (h : slotSchemas fs = [])
    (ha : fieldsAdmit fs vs = true) : slotParts fs vs = [] := by
  have hs := (map_fst_parts ha).2
  rw [h] at hs
  exact List.map_eq_nil_iff.mp hs

/-- A value that fits a struct has the bitmap of its slots. -/
theorem ofSlots_fields {fs : List Field} {vs : List Value}
    (hn : (slotSchemas fs).length ≤ maxSlots) (hw : FieldsWellFormed fs)
    (ha : fieldsAdmit fs vs = true) :
    ∃ p, Presence.ofSlots (Field.slots fs vs) = .ok p ∧
      p.slots = (slotParts fs vs).map isFilled := by
  rw [slots_eq hw]
  apply Presence.ofSlots_eq_ok
  rw [List.length_map, ← List.length_map (f := Prod.fst), (map_fst_parts ha).2]
  exact hn

theorem isEmpty_of_slots {fs : List Field} {vs : List Value} {p : Presence}
    (ha : fieldsAdmit fs vs = true) (h : p.slots = (slotParts fs vs).map isFilled) :
    p.isEmpty = (slotSchemas fs).isEmpty := by
  unfold Presence.isEmpty
  rw [h, List.isEmpty_map, ← (map_fst_parts ha).2, List.isEmpty_map]

theorem writes_presence (p : Presence) : Writes (.ok (Emission.presence p)) :=
  (Writes.bytes p.bitBytes).cons (Emission.size_varint p.size_lt)

/-! ## Elements -/

theorem fits_element {o : Options} {t : Schema} {vs : List Value} (hw : t.WellFormed)
    (ha : vs.all t.admits = true) (hl : ∀ n ∈ vs.flatMap t.lengths, n ≤ o.maxLength) :
    ∀ v ∈ vs, Fits o (t,v) := by
  intro v hv
  refine ⟨hw,List.all_eq_true.mp ha v hv,?_⟩
  exact fun n hn => hl n (List.mem_flatMap_of_mem hv hn)

theorem fits_entry {o : Options} {k v : Schema} {es : List Value} (hk : k.WellFormed)
    (hv : v.WellFormed) (ha : es.all (Value.isEntry k.admits v.admits) = true)
    (hl : ∀ n ∈ es.flatMap (Value.entryParts k.lengths v.lengths), n ≤ o.maxLength) :
    ∀ e ∈ es, ∃ a b, e = .record [a, b] ∧ Fits o (k,a) ∧ Fits o (v,b) := by
  intro e he
  obtain ⟨a,b,rfl,hka,hvb⟩ := Value.isEntry_eq_true (List.all_eq_true.mp ha e he)
  have hm : ∀ n ∈ k.lengths a ++ v.lengths b, n ≤ o.maxLength :=
    fun n hn => hl n (List.mem_flatMap_of_mem he hn)
  obtain ⟨hla,hlb⟩ := List.forall_mem_append.mp hm
  exact ⟨a,b,rfl,⟨hk,hka,hla⟩,⟨hv,hvb,hlb⟩⟩

/-! ## Writing -/

section Writing
variable {o : Options}

theorem writes_framed (ho : o.maxLength < addressSpace) {t : Schema} {v : Value}
    (h : Writes (t.encode v)) (hl : t.payloadLength v ≤ o.maxLength) :
    Writes (framed <$> t.encode v) := by
  refine h.framed ?_
  intro es he
  have hp : t.payloadLength v = (allBytes es).length := by
    unfold payloadLength
    rw [he]
  exact Nat.lt_of_le_of_lt (hp ▸ hl) ho

theorem writes_counted (ho : o.maxLength < addressSpace)
    {encode : Value → Except Error (List Emission)} {vs : List Value} (hn : vs.length ≤ o.maxLength)
    (h : ∀ v ∈ vs, Writes (encode v)) :
    Writes (joined (.ok [.varint vs.length]) (eachOf encode vs)) :=
  (Writes.eachOf h).cons (Emission.size_varint (Nat.lt_of_le_of_lt hn ho))

mutual

/-- A value that fits its type can be written. -/
theorem writes (ho : o.maxLength < addressSpace) :
    ∀ (t : Schema) (v : Value), Fits o (t,v) → Writes (t.encode v)
  | unit, v, _ => .of_ok rfl
  | scalar s, v, _ => .bytes (s.encode v)
  | text, v, h => by
    cases v with
    | text s =>
      have hl := h.within _ List.mem_cons_self
      exact (Writes.bytes (Text.Utf8.encode s)).cons
        (Emission.size_varint (Nat.lt_of_le_of_lt hl ho))
    | _ => cases h.admits
  | duration, v, h => by
    obtain ⟨secs,nanos,rfl,-⟩ := Value.isDuration_eq_true h.admits
    exact (Writes.bytes _).cons (e := .bytes (Scalar.u64.encode (.int secs))) rfl
  | sequence t, v, h => by
    cases v with
    | sequence vs =>
      obtain ⟨hn,hl⟩ := List.forall_mem_cons.mp h.within
      rw [encode_sequence]
      exact writes_counted ho hn fun v hv =>
        writes ho t v (fits_element (t := t) h.wellFormed h.admits hl v hv)
    | _ => cases h.admits
  | set t, v, h => by
    cases v with
    | sequence vs =>
      obtain ⟨hn,hl⟩ := List.forall_mem_cons.mp h.within
      rw [encode_set]
      exact writes_counted ho hn fun v hv =>
        writes ho t v (fits_element (t := t) h.wellFormed h.admits hl v hv)
    | _ => cases h.admits
  | map k w, v, h => by
    cases v with
    | sequence es =>
      obtain ⟨hn,hl⟩ := List.forall_mem_cons.mp h.within
      rw [encode_map]
      refine writes_counted ho hn fun e he => ?_
      obtain ⟨a,b,rfl,ha,hb⟩ := fits_entry h.wellFormed.1 h.wellFormed.2 h.admits hl e he
      exact (writes ho k a ha).joined (writes ho w b hb)
    | _ => cases h.admits
  | array t n, v, h => by
    cases v with
    | sequence vs =>
      rw [encode_array]
      have ha := (Bool.and_eq_true_iff.mp h.admits).2
      exact .eachOf fun v hv => writes ho t v (fits_element (t := t) h.wellFormed ha h.within v hv)
    | _ => cases h.admits
  | option t, v, h => by
    cases v with
    | absent => exact .bytes _
    | present v =>
      rw [encode_present]
      exact (writes ho t v ⟨h.wellFormed,h.admits,h.within⟩).cons rfl
    | _ => cases h.admits
  | tuple ts, v, h => by
    cases v with
    | record vs => exact writesComponents ho ts vs h.wellFormed h.admits h.within
    | _ => cases h.admits
  | pointer _ t, v, h => writes ho t v ⟨h.wellFormed,h.admits,h.within⟩
  | named _ t, v, h => writes ho t v ⟨h.wellFormed,h.admits,h.within⟩
  | struct _ _ fields, v, h => by
    cases v with
    | record vs =>
      obtain ⟨hi,hn,hw⟩ := h.wellFormed
      obtain ⟨p,hp,-⟩ := ofSlots_fields hn hw h.admits
      rw [encode_struct hp]
      exact (writes_presence p).joined (writesFields ho fields vs hw h.admits h.within)
    | _ => cases h.admits
  | enum _ _ alternatives, v, h => by
    cases v with
    | variant index vs =>
      obtain ⟨hn,hw⟩ := h.wellFormed
      obtain ⟨hi,hs⟩ := writesAlternative ho alternatives index vs hw h.admits h.within
      rw [encode_enum (discriminant_eq_ok hi hn)]
      exact hs.cons rfl
    | _ => cases h.admits
  | compatible _ _, _, h => by cases h.wellFormed
  | reference _, _, h => by cases h.wellFormed

theorem writesComponents (ho : o.maxLength < addressSpace) :
    ∀ (ts : List Schema) (vs : List Value), AllWellFormed ts → componentsAdmit ts vs = true →
      (∀ n ∈ componentLengths ts vs, n ≤ o.maxLength) → Writes (encodeComponents ts vs)
  | [], _, _, _, _ => .of_ok rfl
  | _ :: _, [], _, ha, _ => by cases ha
  | t :: ts, v :: vs, hw, ha, hl => by
    obtain ⟨ht,hs⟩ := Bool.and_eq_true_iff.mp ha
    obtain ⟨hlt,hls⟩ := List.forall_mem_append.mp hl
    exact (writes ho t v ⟨hw.1,ht,hlt⟩).joined (writesComponents ho ts vs hw.2 hs hls)

theorem writesFields (ho : o.maxLength < addressSpace) :
    ∀ (fs : List Field) (vs : List Value), FieldsWellFormed fs → fieldsAdmit fs vs = true →
      (∀ n ∈ fieldLengths fs vs, n ≤ o.maxLength) → Writes (encodeFields fs vs)
  | [], _, _, _, _ => .of_ok rfl
  | .mandatory _ t :: fs, v :: vs, hw, ha, hl => by
    obtain ⟨ht,hs⟩ := Bool.and_eq_true_iff.mp ha
    obtain ⟨hlt,hls⟩ := List.forall_mem_append.mp hl
    exact (writes ho t v ⟨hw.1,ht,hlt⟩).joined (writesFields ho fs vs hw.2 hs hls)
  | .compatible _ _ t :: fs, v :: vs, hw, ha, hl => by
    cases v with
    | present v =>
      obtain ⟨ht,hs⟩ := Bool.and_eq_true_iff.mp ha
      obtain ⟨hp,hl⟩ := List.forall_mem_cons.mp hl
      obtain ⟨hlt,hls⟩ := List.forall_mem_append.mp hl
      rw [encodeFields_present]
      have hv := writes_framed ho (writes ho t v ⟨hw.1,ht,hlt⟩) hp
      exact hv.joined (writesFields ho fs vs hw.2 hs hls)
    | absent => exact writesFields ho fs vs hw.2 ha hl
    | _ => cases ha
  | .skipped .. :: fs, _ :: vs, hw, ha, hl => writesFields ho fs vs hw ha hl
  | .mandatory .. :: _, [], _, ha, _ => by cases ha
  | .compatible .. :: _, [], _, ha, _ => by cases ha
  | .skipped .. :: _, [], _, ha, _ => by cases ha

theorem writesAlternative (ho : o.maxLength < addressSpace) :
    ∀ (as : List Alternative) (index : Nat) (vs : List Value), AlternativesWellFormed as →
      alternativeAdmits as index vs = true → (∀ n ∈ alternativeLengths as index vs, n ≤ o.maxLength) →
        index < as.length ∧ Writes (encodeAlternative as index vs)
  | [], _, _, _, ha, _ => by cases ha
  | .mk _ _ fields :: as, 0, vs, hw, ha, hl =>
    ⟨Nat.zero_lt_succ _,writesFields ho fields vs hw.2.1 ha hl⟩
  | .mk _ _ fields :: as, index + 1, vs, hw, ha, hl => by
    obtain ⟨hi,hs⟩ := writesAlternative ho as index vs hw.2.2 ha hl
    exact ⟨Nat.succ_lt_succ hi,hs⟩

end
end Writing
end Schema
end RecordCodec
