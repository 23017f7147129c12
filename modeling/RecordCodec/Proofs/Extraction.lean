import RecordCodec.Proofs.CompatibleSpans

/-! # Fields are located where they are read

Wherever the mandatory fields are spread and a way leads over the slots, every wanted field of a
record is found with its contents. If every field is wanted, a success tells where all of them are.
-/
namespace RecordCodec

namespace Record

/-- A header is passed, and no slot behind it yet. -/
theorem readHeader_eq_ok {layout : Layout} {r s : Reader} {slots : Slots}
    (h : readHeader layout r = .ok slots s) :
    slots.left = slots.presence.slots ∧ ∃ b, r.Passes b s := by
  obtain ⟨n,t,ht,h⟩ := EStateM.bind_eq_ok.mp h
  obtain ⟨b,hb,-⟩ := Read.nat_passes ht
  split at h
  · cases h
  split at h
  · split at h
    · obtain ⟨p,u,hu,h⟩ := EStateM.bind_eq_ok.mp h
      obtain ⟨rfl,rfl⟩ := EStateM.pure_eq_ok.mp h
      obtain ⟨c,hc⟩ := Presence.local_read.passes hu
      exact ⟨rfl,b ++ c,hb.trans hc⟩
    · cases h
  · obtain ⟨rfl,rfl⟩ := EStateM.pure_eq_ok.mp h
    exact ⟨rfl,b,hb⟩

end Record

namespace Extract

variable {r s : Reader}

theorem index_le_last {fields : List FieldLayout}
    (h : fields.Pairwise fun f g => f.index ≤ g.index) {f : FieldLayout} (hf : f ∈ fields) :
    ∃ n, (fields.map (·.index)).getLast? = some n ∧ f.index ≤ n := by
  induction h with
  | nil => cases hf
  | @cons g fields hg _ ih =>
    rcases List.mem_cons.mp hf with rfl | hf
    · cases hl : (fields.map (·.index)).getLast? with
      | none =>
        obtain rfl := List.map_eq_nil_iff.mp (List.getLast?_eq_none_iff.mp hl)
        exact ⟨f.index,rfl,Nat.le_refl _⟩
      | some n =>
        obtain ⟨k,hk,rfl⟩ := List.mem_map.mp (List.mem_of_getLast? hl)
        refine ⟨k.index,?_,hg k hk⟩
        rw [List.map_cons, List.getLast?_cons, hl]
        rfl
    · obtain ⟨n,hn,hle⟩ := ih hf
      refine ⟨n,?_,hle⟩
      rw [List.map_cons, List.getLast?_cons, hn]
      rfl

section Records
variable {typeName name : String} {fs : List FieldDescriptor} {extensible : Bool}
  {wanted : List Nat} {spans : List Span}

def lastWanted (wanted : List Nat) (fields : List FieldLayout) : Option Nat :=
  ((fields.filter fun f => wanted.contains f.index).map (·.index)).getLast?

theorem reaches_lastWanted (wanted : List Nat) (fs : List FieldDescriptor) :
    Reaches wanted (lastWanted wanted (mandatoryPlan 0 (some 0) 0 fs))
      (mandatoryPlan 0 (some 0) 0 fs) := by
  intro f hf hw
  have hp := ((pairwise_plan fs 0 0 (some 0)).filter fun f => !f.isCompatible).filter
    fun f => wanted.contains f.index
  exact index_le_last (hp.imp Nat.le_of_lt) (List.mem_filter.mpr ⟨hf,hw⟩)

def wantsSlot (wanted : List Nat) (fs : List FieldDescriptor) : Bool :=
  (compatiblePlan 0 (some 0) 0 fs).any fun f => wanted.contains f.index

theorem spans_eq (wanted : List Nat) :
    Extract.spans ⟨typeName,.aggregate name fs extensible⟩ wanted =
      Record.readHeader ⟨typeName,.aggregate name fs extensible⟩ >>= fun slots =>
        Read.position >>= fun start =>
          mandatory wanted start (lastWanted wanted (mandatoryPlan 0 (some 0) 0 fs))
            (wantsSlot wanted fs) (mandatoryPlan 0 (some 0) 0 fs) >>= fun located =>
              if wantsSlot wanted fs then
                compatible ⟨typeName,.aggregate name fs extensible⟩ wanted start
                  slots.presence.slots >>= fun found => pure (located ++ found)
              else pure located := rfl

theorem Finds.merge {cs : List (Option (List UInt8))} {fields : List FieldLayout}
    {located found : List Span}
    (h : Finds wanted cs (fields.filter fun f => !f.isCompatible) located)
    (k : Finds wanted cs (fields.filter (·.isCompatible)) found) :
    Finds wanted cs fields (located ++ found) where
  sound := by
    intro sp hsp
    rcases List.mem_append.mp hsp with hsp | hsp
    · exact h.sound sp hsp
    · exact k.sound sp hsp
  complete := by
    intro f hf hw
    cases hc : f.isCompatible with
    | true =>
      obtain ⟨sp,hsp,hi⟩ := k.complete f (List.mem_filter.mpr ⟨hf,hc⟩) hw
      exact ⟨sp,List.mem_append_right _ hsp,hi⟩
    | false =>
      obtain ⟨sp,hsp,hi⟩ := h.complete f (List.mem_filter.mpr ⟨hf,by rw [hc]; rfl⟩) hw
      exact ⟨sp,List.mem_append_left _ hsp,hi⟩

/-- Wherever the fields of a record are, the wanted ones are located. -/
theorem spans_of_spread (wanted : List Nat) {slots : Slots} {q mid : Reader}
    {bs : List (List UInt8)} {ps : List (Option (List UInt8))}
    (hh : Record.readHeader ⟨typeName,.aggregate name fs extensible⟩ q = .ok slots r)
    (hr : r.bytes.length < addressSpace) (h : Spread fs bs r mid) (hs : Slots.Crosses ps mid s)
    (hp : ps.map Option.isSome = slots.presence.slots) :
    ∃ spans s', Extract.spans ⟨typeName,.aggregate name fs extensible⟩ wanted q = .ok spans s' ∧
      Finds wanted (contents fs bs ps) (FieldLayout.plan 0 (some 0) 0 fs) spans := by
  have hpos : Read.position r = .ok r.position r := rfl
  obtain ⟨located,s',hm,hf,he⟩ := mandatory_of_spread wanted
    (lastWanted wanted (mandatoryPlan 0 (some 0) 0 fs)) (wantsSlot wanted fs) (contents fs bs ps) fs
    h (.zero r) (.inl rfl) hr List.drop_zero fun _ => reaches_lastWanted wanted fs
  rw [spans_eq, EStateM.bind_of_ok _ hh, EStateM.bind_of_ok _ hpos, EStateM.bind_of_ok _ hm]
  cases hw : wantsSlot wanted fs with
  | true =>
    obtain ⟨found,hc,hk⟩ :=
      compatible_of_crosses typeName name extensible wanted h hr (he hw) hs
    rw [hp] at hc
    exact ⟨_,s,EStateM.bind_of_ok _ hc,hf.merge hk⟩
  | false =>
    have hk : Finds wanted (contents fs bs ps) (compatiblePlan 0 (some 0) 0 fs) [] := by
      refine ⟨?_,?_⟩
      · rintro sp ⟨⟩
      · intro f hf hw'
        have hany : wantsSlot wanted fs = true := List.any_eq_true.mpr ⟨f,hf,hw'⟩
        rw [hw] at hany
        cases hany
    have hmerge := hf.merge hk
    rw [List.append_nil] at hmerge
    exact ⟨located,s',rfl,hmerge⟩

/-- If every field is wanted, a success tells where all of them are. -/
theorem spread_of_spans {q : Reader} (hq : q.bytes.length < addressSpace)
    (hw : ∀ f ∈ FieldLayout.plan 0 (some 0) 0 fs, wanted.contains f.index = true)
    (h : Extract.spans ⟨typeName,.aggregate name fs extensible⟩ wanted q = .ok spans s) :
    ∃ slots r bs mid, Record.readHeader ⟨typeName,.aggregate name fs extensible⟩ q = .ok slots r ∧
      Spread fs bs r mid ∧
      (Descriptor.anyCompatible fs = true →
        ∃ ps, ps.map Option.isSome = slots.presence.slots ∧ Slots.Crosses ps mid s) := by
  rw [spans_eq] at h
  obtain ⟨slots,r,hh,hb⟩ := EStateM.bind_eq_ok.mp h
  obtain ⟨start,t,ht,hm⟩ := EStateM.bind_eq_ok.mp hb
  obtain ⟨located,u,hu,hk⟩ := EStateM.bind_eq_ok.mp hm
  obtain ⟨rfl,rfl⟩ := Read.position_eq_ok.mp ht
  obtain ⟨-,b,hb⟩ := Record.readHeader_eq_ok hh
  have hr : r.bytes.length < addressSpace := hb.bytes_eq ▸ hq
  obtain ⟨bs,hs⟩ := spread_of_mandatory fs (.zero r) hr
    (fun f hf => hw f (List.mem_filter.mp hf).1) (reaches_lastWanted wanted fs) hu
  refine ⟨slots,r,bs,u,hh,hs,fun hc => ?_⟩
  obtain ⟨f,hf,hfc⟩ := mem_plan_of_anyCompatible hc 0 0 (some 0)
  have hany : wantsSlot wanted fs = true :=
    List.any_eq_true.mpr ⟨f,List.mem_filter.mpr ⟨hf,hfc⟩,hw f hf⟩
  have hf : (compatible ⟨typeName,.aggregate name fs extensible⟩ wanted r.position
      slots.presence.slots >>= fun found => pure (located ++ found)) u = .ok spans s := by
    rwa [if_pos hany] at hk
  obtain ⟨found,v,hv,hp⟩ := EStateM.bind_eq_ok.mp hf
  obtain ⟨-,rfl⟩ := EStateM.pure_eq_ok.mp hp
  exact crosses_of_compatible hs hr hv

end Records

theorem Finds.find?_eq {wanted : List Nat} {cs : List (Option (List UInt8))}
    {fields : List FieldLayout} {spans : List Span} (h : Finds wanted cs fields spans)
    {f : FieldLayout} (hf : f ∈ fields) (hw : wanted.contains f.index = true)
    {c : Option (List UInt8)} (hc : cs[f.index]? = some c) :
    spans.find? (·.index == f.index) = some ⟨f.index,c⟩ := by
  obtain ⟨sp,hsp,hi⟩ := h.complete f hf hw
  have hsome : (spans.find? (·.index == f.index)).isSome = true :=
    List.find?_isSome.mpr ⟨sp,hsp,beq_iff_eq.mpr hi⟩
  obtain ⟨⟨i,c'⟩,hfind⟩ := Option.isSome_iff_exists.mp hsome
  have hp := List.find?_some hfind
  have hi' : i = f.index := beq_iff_eq.mp hp
  have hs := h.sound _ (List.mem_of_find?_eq_some hfind)
  rw [hi', hc] at hs
  rw [hfind, hi', Option.some.inj hs]

end Extract
end RecordCodec
