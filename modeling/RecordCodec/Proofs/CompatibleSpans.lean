import RecordCodec.Proofs.MandatorySpans

/-! # Compatible fields are located where they are read

Along a way over the slots behind the mandatory fields the wanted payloads are found, and the wanted
fields whose payloads are not are those without any. A success tells the way.
-/
namespace RecordCodec
namespace Extract

open Read (seek)

variable {r s : Reader}

theorem contents_of_slot {cs : List (Option (List UInt8))} (fs : List FieldDescriptor)
    {index slot : Nat} {offset : Option Nat} {bs : List (List UInt8)}
    {ps : List (Option (List UInt8))} (hc : cs.drop index = contents fs bs ps) {j : Nat}
    {f : FieldLayout} (hf : (compatiblePlan index offset slot fs)[j]? = some f) :
    cs[f.index]? = some ps[j]?.join := by
  induction fs generalizing index slot offset bs ps j with
  | nil => cases hf
  | cons d fs ih =>
    obtain ⟨name,shape,version⟩ := d
    cases version with
    | none => exact ih (drop_eq_cons hc).2 hf
    | some version =>
      obtain ⟨hi,hd⟩ := drop_eq_cons hc
      cases j with
      | zero =>
        cases hf
        rw [← List.head?_eq_getElem?]
        exact hi
      | succ j =>
        rw [← List.getElem?_tail]
        exact ih hd hf

/-- The wanted ones of some fields whose slots are filled are located, with their contents. -/
structure FindsFilled (wanted : List Nat) (cs ps : List (Option (List UInt8)))
    (fields : List FieldLayout) (spans : List Span) : Prop where
  sound : ∀ sp ∈ spans, cs[sp.index]? = some sp.bytes
  complete : ∀ (j : Nat) (f : FieldLayout), fields[j]? = some f → wanted.contains f.index = true →
    ps[j]?.join.isSome = true → ∃ sp ∈ spans, sp.index = f.index

section Filled

variable {wanted : List Nat} {cs ps : List (Option (List UInt8))} {fields : List FieldLayout}
  {spans : List Span}

theorem FindsFilled.cons_empty (h : FindsFilled wanted cs ps fields.tail spans) :
    FindsFilled wanted cs (none :: ps) fields spans where
  sound := h.sound
  complete := by
    intro j f hj hw hp
    cases j with
    | zero => cases hp
    | succ j =>
      rw [← List.getElem?_tail] at hj
      exact h.complete j f hj hw hp

theorem FindsFilled.cons_filled {f : FieldLayout} {b : List UInt8}
    (h : FindsFilled wanted cs ps fields spans) (hc : cs[f.index]? = some (some b)) :
    FindsFilled wanted cs (some b :: ps) (f :: fields)
      (if wanted.contains f.index then ⟨f.index,some b⟩ :: spans else spans) where
  sound := by
    intro sp hsp
    by_cases hw : wanted.contains f.index = true
    · rw [if_pos hw] at hsp
      rcases List.mem_cons.mp hsp with rfl | hsp
      · exact hc
      · exact h.sound sp hsp
    · rw [if_neg hw] at hsp
      exact h.sound sp hsp
  complete := by
    intro j g hj hw hp
    cases j with
    | zero =>
      cases hj
      rw [if_pos hw]
      exact ⟨_,List.mem_cons_self,rfl⟩
    | succ j =>
      obtain ⟨sp,hsp,hi⟩ := h.complete j g hj hw hp
      refine ⟨sp,?_,hi⟩
      split
      · exact List.mem_cons_of_mem _ hsp
      · exact hsp

theorem filled_of_crosses (wanted : List Nat) (ps : List (Option (List UInt8)))
    (h : Slots.Crosses ps r s)
    (hc : ∀ (j : Nat) (f : FieldLayout), fields[j]? = some f → cs[f.index]? = some ps[j]?.join) :
    ∃ spans, filled wanted (ps.map Option.isSome) fields r = .ok spans s ∧
      FindsFilled wanted cs ps fields spans := by
  induction ps generalizing fields r with
  | nil =>
    obtain rfl : s = r := h
    refine ⟨[],rfl,?_,?_⟩
    · rintro sp ⟨⟩
    · rintro j f - - ⟨⟩
  | cons p ps ih =>
    have htail (j : Nat) (f : FieldLayout) (hf : fields.tail[j]? = some f) :
        cs[f.index]? = some ps[j]?.join := by
      rw [List.getElem?_tail] at hf
      exact hc (j + 1) f hf
    cases p with
    | none =>
      obtain ⟨spans,hs,hf⟩ := ih h htail
      exact ⟨spans,hs,hf.cons_empty⟩
    | some b =>
      obtain ⟨u,t,hu,hb,h⟩ := h
      obtain ⟨spans,hs,hf⟩ := ih h htail
      have hk := Read.take_eq_ok.mpr ⟨hb,rfl⟩
      cases fields with
      | nil =>
        -- a payload of a later release
        have hrun : filled wanted (true :: ps.map Option.isSome) [] r = .ok spans s :=
          (EStateM.bind_of_ok _ hu).trans ((EStateM.bind_of_ok _ hk).trans (EStateM.bind_of_ok _ hs))
        refine ⟨spans,hrun,hf.sound,?_⟩
        rintro j f ⟨⟩
      | cons f fields =>
        have hrun : filled wanted (true :: ps.map Option.isSome) (f :: fields) r =
            .ok (if wanted.contains f.index then ⟨f.index,some b⟩ :: spans else spans) s :=
          (EStateM.bind_of_ok _ hu).trans ((EStateM.bind_of_ok _ hk).trans (EStateM.bind_of_ok _ hs))
        exact ⟨_,hrun,hf.cons_filled (hc 0 f rfl)⟩

end Filled

theorem crosses_of_filled {wanted : List Nat} {bits : List Bool} {fields : List FieldLayout}
    {spans : List Span} (h : filled wanted bits fields r = .ok spans s) :
    ∃ ps, ps.map Option.isSome = bits ∧ Slots.Crosses ps r s := by
  induction bits generalizing fields spans r with
  | nil =>
    obtain ⟨-,rfl⟩ := EStateM.pure_eq_ok.mp h
    exact ⟨[],rfl,rfl⟩
  | cons present bits ih =>
    cases present with
    | false =>
      obtain ⟨ps,rfl,hc⟩ := ih h
      exact ⟨none :: ps,rfl,hc⟩
    | true =>
      obtain ⟨n,u,hu,hn⟩ := EStateM.bind_eq_ok.mp h
      obtain ⟨b,t,ht,hb⟩ := EStateM.bind_eq_ok.mp hn
      obtain ⟨rest,v,hv,hk⟩ := EStateM.bind_eq_ok.mp hb
      obtain ⟨hp,rfl⟩ := Read.take_eq_ok.mp ht
      obtain rfl : v = s := by
        cases fields with
        | nil => exact (EStateM.pure_eq_ok.mp hk).2
        | cons f fields => exact (EStateM.pure_eq_ok.mp hk).2
      obtain ⟨ps,rfl,hc⟩ := ih hv
      exact ⟨some b :: ps,rfl,u,t,hu,hp,hc⟩

section Compatible
variable {typeName name : String} {fs : List FieldDescriptor} {extensible : Bool}
  {wanted : List Nat} {bs : List (List UInt8)} {mid : Reader}

def missing (wanted : List Nat) (fields : List FieldLayout) (found : List Span) : List FieldLayout :=
  fields.filter fun f => wanted.contains f.index && !found.any (·.index == f.index)

theorem compatible_eq (layout : Layout) (wanted : List Nat) (start : Nat) (bits : List Bool) :
    compatible layout wanted start bits =
      (match mandatoryWidth layout with
        | some width => seek (address start width)
        | none => pure ()) >>= fun _ =>
        filled wanted bits layout.compatibleFields >>= fun found =>
          pure (found ++ (missing wanted layout.compatibleFields found).map fun f =>
            ⟨f.index,none⟩) := by
  unfold compatible
  cases mandatoryWidth layout <;> rfl

theorem finds_missing {cs ps : List (Option (List UInt8))} {fields : List FieldLayout}
    {found : List Span} (hf : FindsFilled wanted cs ps fields found)
    (hc : ∀ (j : Nat) (f : FieldLayout), fields[j]? = some f → cs[f.index]? = some ps[j]?.join) :
    Finds wanted cs fields
      (found ++ (missing wanted fields found).map fun f => ⟨f.index,none⟩) where
  sound := by
    intro sp hsp
    rcases List.mem_append.mp hsp with hsp | hsp
    · exact hf.sound sp hsp
    · obtain ⟨f,hm,rfl⟩ := List.mem_map.mp hsp
      obtain ⟨hmem,hm⟩ := List.mem_filter.mp hm
      rw [Bool.and_eq_true, Bool.not_eq_true'] at hm
      obtain ⟨j,hj⟩ := List.mem_iff_getElem?.mp hmem
      have hnone : ps[j]?.join = none := by
        cases hp : ps[j]?.join with
        | none => rfl
        | some b =>
          obtain ⟨sp,hsp,hi⟩ := hf.complete j f hj hm.1 (by rw [hp]; rfl)
          have hany : found.any (·.index == f.index) = true :=
            List.any_eq_true.mpr ⟨sp,hsp,beq_iff_eq.mpr hi⟩
          rw [hany] at hm
          cases hm.2
      have hi := hc j f hj
      rwa [hnone] at hi
  complete := by
    intro f hmem hw
    by_cases hany : found.any (·.index == f.index) = true
    · obtain ⟨sp,hsp,hi⟩ := List.any_eq_true.mp hany
      exact ⟨sp,List.mem_append_left _ hsp,beq_iff_eq.mp hi⟩
    · have hm : f ∈ missing wanted fields found := by
        refine List.mem_filter.mpr ⟨hmem,?_⟩
        rw [hw, Bool.eq_false_iff.mpr hany]
        rfl
      exact ⟨⟨f.index,none⟩,List.mem_append_right _ (List.mem_map.mpr ⟨f,hm,rfl⟩),rfl⟩

/-- The reader goes to the end of the mandatory fields, where it may be already. -/
theorem seek_mandatoryWidth {s' : Reader} (h : Spread fs bs r mid)
    (hr : r.bytes.length < addressSpace) (hb : Behind (mandatoryPlan 0 (some 0) 0 fs) r s' r mid) :
    (match mandatoryWidth ⟨typeName,.aggregate name fs extensible⟩ with
      | some width => seek (address r.position width)
      | none => pure ()) s' = .ok () mid := by
  have hmid : mid.bytes.length < addressSpace := h.same.1 ▸ hr
  change (match endOffset (mandatoryPlan 0 (some 0) 0 fs) with
    | some width => seek (address r.position width)
    | none => pure ()) s' = _
  cases he : endOffset (mandatoryPlan 0 (some 0) 0 fs) with
  | none =>
    rcases hb with rfl | ⟨-,hs | ⟨hn,rfl⟩⟩
    · rfl
    · rw [he] at hs
      cases hs
    · rw [eq_of_no_mandatory h hn]
      rfl
  | some n =>
    have hpos := endOffset_of_spread h (.zero r) he
    have hsame : s'.bytes = mid.bytes ∧ s'.options = mid.options := by
      rcases hb with rfl | ⟨⟨hy,ho⟩,-⟩
      · exact ⟨rfl,rfl⟩
      · exact ⟨hy.trans h.same.1.symm,ho.trans h.same.2.symm⟩
    exact seek_address hpos hmid hsame.1 hsame.2

/-- The wanted compatible fields are located behind the mandatory ones. -/
theorem compatible_of_crosses (typeName name : String) (extensible : Bool) (wanted : List Nat)
    {ps : List (Option (List UInt8))} {s' : Reader} (h : Spread fs bs r mid)
    (hr : r.bytes.length < addressSpace)
    (hb : Behind (mandatoryPlan 0 (some 0) 0 fs) r s' r mid) (hs : Slots.Crosses ps mid s) :
    ∃ spans, compatible ⟨typeName,.aggregate name fs extensible⟩ wanted r.position
        (ps.map Option.isSome) s' = .ok spans s ∧
      Finds wanted (contents fs bs ps) (compatiblePlan 0 (some 0) 0 fs) spans := by
  have hslot (j : Nat) (f : FieldLayout) (hf : (compatiblePlan 0 (some 0) 0 fs)[j]? = some f) :
      (contents fs bs ps)[f.index]? = some ps[j]?.join :=
    contents_of_slot fs List.drop_zero hf
  obtain ⟨found,hrun,hf⟩ := filled_of_crosses wanted ps hs hslot
  refine ⟨_,?_,finds_missing hf hslot⟩
  rw [compatible_eq]
  exact (EStateM.bind_of_ok _ (seek_mandatoryWidth h hr hb)).trans (EStateM.bind_of_ok _ hrun)

theorem crosses_of_compatible {bits : List Bool} {spans : List Span} (h : Spread fs bs r mid)
    (hr : r.bytes.length < addressSpace)
    (hs : compatible ⟨typeName,.aggregate name fs extensible⟩ wanted r.position bits mid =
      .ok spans s) :
    ∃ ps, ps.map Option.isSome = bits ∧ Slots.Crosses ps mid s := by
  rw [compatible_eq, EStateM.bind_of_ok _ (seek_mandatoryWidth h hr (.inl rfl))] at hs
  obtain ⟨found,u,hu,hs⟩ := EStateM.bind_eq_ok.mp hs
  obtain ⟨-,rfl⟩ := EStateM.pure_eq_ok.mp hs
  exact crosses_of_filled hu

end Compatible

end Extract
end RecordCodec
