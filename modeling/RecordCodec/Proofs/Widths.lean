import RecordCodec.Proofs.Aggregates

/-! # Fixed widths

Where the descriptor of a type has a fixed width, each value of the type is written in exactly so many
bytes. A struct has none inside another value, because a later release can have more fields, but the
body of its record has one as long as all fields are mandatory and have fixed widths.
-/
namespace RecordCodec

open Bytes
open Emission (allBytes joined eachOf)

/-- The pieces can be written, and have so many bytes. -/
def Fills (pieces : Except Error (List Emission)) (width : Nat) : Prop :=
  ∃ es, pieces = .ok es ∧ (allBytes es).length = width

namespace Fills

variable {p q : Except Error (List Emission)} {n m : Nat}

protected theorem nil : Fills (.ok []) 0 := ⟨[],rfl,rfl⟩

protected theorem bytes (b : List UInt8) : Fills (.ok [.bytes b]) b.length :=
  ⟨_,rfl,congrArg List.length (List.append_nil b)⟩

protected theorem joined (h : Fills p n) (k : Fills q m) : Fills (joined p q) (n + m) := by
  obtain ⟨es,rfl,rfl⟩ := h
  obtain ⟨fs,rfl,rfl⟩ := k
  exact ⟨es ++ fs,rfl,by simp⟩

protected theorem eachOf {encode : Value → Except Error (List Emission)} {vs : List Value}
    (h : ∀ v ∈ vs, Fills (encode v) n) : Fills (eachOf encode vs) (n * vs.length) := by
  induction vs with
  | nil => exact .nil
  | cons v vs ih =>
    have hv := h v List.mem_cons_self
    have hvs := ih fun w hw => h w (List.mem_cons_of_mem v hw)
    rw [Emission.eachOf_cons, List.length_cons, Nat.mul_succ, Nat.add_comm]
    exact hv.joined hvs

end Fills

theorem Scalar.fills_encode (s : Scalar) (v : Value) : Fills (.ok [.bytes (s.encode v)]) s.width := by
  have h := Fills.bytes (s.encode v)
  rwa [Scalar.encode, LittleEndian.length_encode] at h

/-- A value has as many bytes as the descriptor of its type tells, if this tells a number. -/
def Sized (part : Schema × Value) : Prop :=
  ∀ w, part.1.shape.fixedWidth = some w → Fills (part.1.encode part.2) w

theorem Sized.length_eq {part : Schema × Value} {b : List UInt8} (h : Sized part)
    (hb : IsEncoding part b) {w : Nat} (hw : part.1.shape.fixedWidth = some w) : b.length = w := by
  obtain ⟨es,he,rfl⟩ := hb
  obtain ⟨fs,hf,rfl⟩ := h w hw
  obtain rfl : es = fs := Except.ok.inj (he.symm.trans hf)
  rfl

theorem Layout.fixedSize_of_plain {l : Layout} (h : l.isAggregate = false) :
    l.fixedSize = l.descriptor.fixedWidth := by
  obtain ⟨typeName,d⟩ := l
  cases d with
  | aggregate => cases h
  | _ => rfl

namespace Schema

open RecordCodec.Field (mandatoryParts slotSchemas ofComponents ofDuration)

theorem fills_encodeFields {fs : List Field} {vs : List Value} (ha : fieldsAdmit fs vs = true)
    (hn : slotSchemas fs = []) (hs : ∀ part ∈ mandatoryParts fs vs, Sized part) {start w : Nat}
    (hw : Descriptor.fieldsWidth start (fieldShapes fs) = some w) :
    ∃ n, w = start + n ∧ Fills (encodeFields fs vs) n := by
  induction fs generalizing vs start with
  | nil =>
    cases hw
    exact ⟨0,rfl,.nil⟩
  | cons f fs ih =>
    cases vs with
    | nil => cases f <;> cases ha
    | cons v vs =>
      cases f with
      | mandatory name t =>
        obtain ⟨ht,hvs⟩ := List.forall_mem_cons.mp hs
        obtain ⟨k,hk,-,hw⟩ := Descriptor.fieldsWidth_cons_eq_some.mp hw
        obtain ⟨n,rfl,hf⟩ := ih (Bool.and_eq_true_iff.mp ha).2 hn hvs hw
        exact ⟨k + n,Nat.add_assoc start k n,(ht k hk).joined hf⟩
      | compatible name version t => cases hn
      | skipped name t default => exact ih ha hn hs hw

mutual

theorem sized_encode : ∀ (t : Schema) (v : Value), t.WellFormed → t.admits v = true → Sized (t,v)
  | unit, v, _, _ => by
    rintro _ ⟨⟩
    exact .nil
  | scalar s, v, _, _ => by
    rintro _ ⟨⟩
    exact s.fills_encode v
  | duration, v, _, ha => by
    rintro _ ⟨⟩
    obtain ⟨secs,nanos,rfl,-⟩ := Value.isDuration_eq_true ha
    exact (Scalar.u64.fills_encode (.int secs)).joined (Scalar.u32.fills_encode (.int nanos))
  | array t n, v, hw, ha => by
    intro w h
    obtain ⟨k,hk,hc⟩ := Option.bind_eq_some_iff.mp h
    obtain ⟨-,rfl⟩ := checked_eq_some.mp hc
    cases v with
    | sequence vs =>
      obtain ⟨hl,hvs⟩ := Bool.and_eq_true_iff.mp ha
      rw [encode_array, ← eq_of_beq hl]
      exact .eachOf fun v hv => sized_encode t v hw (List.all_eq_true.mp hvs v hv) k hk
    | _ => cases ha
  | tuple ts, v, hw, ha => by
    intro w h
    cases v with
    | record vs =>
      obtain ⟨-,-,h⟩ := Descriptor.fixedWidth_aggregate_eq_some.mp h
      rw [← fieldShapes_ofComponents] at h
      have hvs := (fieldsAdmit_ofComponents 0 ts vs).trans ha
      obtain ⟨n,rfl,hf⟩ := fills_encodeFields hvs (slotSchemas_ofComponents 0 ts)
        (sized_components 0 ts vs hw ha) h
      rw [encodeFields_ofComponents] at hf
      rwa [Nat.zero_add]
    | _ => cases ha
  | pointer _ t, v, hw, ha => sized_encode t v hw ha
  | named _ t, v, hw, ha => sized_encode t v hw ha
  | text, _, _, _ => nofun
  | sequence _, _, _, _ => nofun
  | set _, _, _, _ => nofun
  | map .., _, _, _ => nofun
  | option _, _, _, _ => nofun
  | struct .., _, _, _ => nofun
  | enum .., _, _, _ => nofun
  | compatible .., _, hw, _ => hw.elim
  | reference _, _, hw, _ => hw.elim

theorem sized_components : ∀ (index : Nat) (ts : List Schema) (vs : List Value), AllWellFormed ts →
    componentsAdmit ts vs = true → ∀ part ∈ mandatoryParts (ofComponents index ts) vs, Sized part
  | _, [], _, _, _ => nofun
  | _, _ :: _, [], _, ha => by cases ha
  | index, t :: ts, v :: vs, hw, ha => by
    obtain ⟨ht,hvs⟩ := Bool.and_eq_true_iff.mp ha
    exact List.forall_mem_cons.mpr
      ⟨sized_encode t v hw.1 ht,sized_components (index + 1) ts vs hw.2 hvs⟩

end

/-- The bytes of a value inside another, and the bytes that a reader passes when it reads one, are so
many. -/
structure HasWidth (t : Schema) (w : Nat) : Prop where
  encode : ∀ v, t.admits v = true → ∃ b, IsEncoding (t,v) b ∧ b.length = w
  decode : ∀ r v s, r.bytes.length < addressSpace → t.decode r = .ok v s →
    ∃ b, r.Passes b s ∧ b.length = w

theorem hasWidth_of_fixedWidth {t : Schema} {w : Nat} (hw : t.WellFormed)
    (h : t.shape.fixedWidth = some w) : t.HasWidth w where
  encode v ha := by
    obtain ⟨es,he,hl⟩ := sized_encode t v hw ha w h
    exact ⟨allBytes es,⟨es,he,rfl⟩,hl⟩
  decode r v s hr hv := t.shape.takes_skip w h r s (t.steps_decode hw r v s hr hv)

/-! ## Bodies -/

variable {t : Schema} {v : Value} {w : Nat}

theorem sized_mandatoryParts {fs : List Field} {vs : List Value} (hw : FieldsWellFormed fs)
    (ha : fieldsAdmit fs vs = true) : ∀ part ∈ mandatoryParts fs vs, Sized part := by
  induction fs generalizing vs with
  | nil => nofun
  | cons f fs ih =>
    cases vs with
    | nil => cases f <;> cases ha
    | cons v vs =>
      cases f with
      | mandatory name t =>
        obtain ⟨ht,hvs⟩ := Bool.and_eq_true_iff.mp ha
        exact List.forall_mem_cons.mpr ⟨sized_encode t v hw.1 ht,ih hw.2 hvs⟩
      | compatible name version t => exact ih hw.2 (fieldsAdmit_of_compatible ha)
      | skipped name t default => exact ih hw ha

theorem fills_encodeBody (hw : t.WellFormed) (ha : t.admits v = true) {typeName : String}
    (h : Layout.fixedSize ⟨typeName,t.shape⟩ = some w) : Fills (t.encodeBody v) w := by
  cases hf : t.aggregateFields? with
  | none =>
    obtain ⟨hplain,hbody⟩ := plain_of_no_fields (v := v) hw hf typeName
    rw [hbody]
    exact sized_encode t v hw ha w (Layout.fixedSize_of_plain hplain ▸ h)
  | some fs =>
    obtain ⟨name,extensible,hs⟩ := shape_of_aggregate hf
    obtain ⟨-,-,hfw⟩ := wellFormed_of_aggregate hf hw
    obtain ⟨vs,p,hp⟩ := exists_consists hf hw ha
    rw [hs] at h
    change (if Descriptor.anyCompatible (fieldShapes fs) then none
      else Descriptor.fieldsWidth 0 (fieldShapes fs)) = some w at h
    rw [anyCompatible_fieldShapes, ← hp.isEmpty_eq] at h
    cases hempty : p.isEmpty with
    | false =>
      rw [hempty] at h
      cases h
    | true =>
      have hn : slotSchemas fs = [] := List.isEmpty_iff.mp (hp.isEmpty_eq ▸ hempty)
      rw [hempty] at h
      obtain ⟨n,rfl,hfill⟩ := fills_encodeFields hp.admits hn
        (sized_mandatoryParts hfw hp.admits) h
      rw [hp.body_eq, hempty, if_pos rfl, Emission.joined_nil, Nat.zero_add]
      exact hfill

end Schema

/-- The record of a value has the bytes of its header and as many more as the layout tells. -/
theorem Record.exists_serialize {t : Schema} {d : Descriptor} {v : Value} {w : Nat}
    (hd : t.descriptor = .ok d) (ha : t.admits v = true)
    (h : Layout.fixedSize ⟨t.name,t.shape⟩ = some w) :
    ∃ bytes, serialize t v = .ok bytes ∧ bytes.length = Header.width + w := by
  have hbody := Schema.fills_encodeBody (Schema.descriptor_eq_ok hd).2 ha h
  have hheader := Fills.bytes
    (LittleEndian.encode Header.width (Layout.header ⟨t.name,t.shape⟩).raw)
  rw [LittleEndian.length_encode] at hheader
  obtain ⟨es,he,hl⟩ := hheader.joined hbody
  exact ⟨allBytes es,serialize_eq ((emissions_eq hd v).trans he),hl⟩

end RecordCodec
