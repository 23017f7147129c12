import RecordCodec.Proofs.Search

/-! # Fields behind very wide ones

The fields before a selected one may be so wide that they do not end within the address space. As long
as they do, no offset on the way wraps around, a selected mandatory field is read behind all mandatory
fields before it, and bytes that are too few for those are rejected. Otherwise a field may have no
offset although all fields before it have fixed widths. Nothing then makes up for the fields that were
left unpassed, and the field is read where the reader stands.
-/
namespace RecordCodec

open FieldLayout (widths)

/-! ## Offsets -/

namespace Extract

theorem behind_none (fs : List FieldLayout) : behind none fs = none := by
  induction fs with
  | nil => rfl
  | cons f fs ih => exact ih

theorem behind_eq_some {m n : Nat} {fs : List FieldLayout} (h : behind (some m) fs = some n) :
    n = m + widths fs := by
  induction fs generalizing m with
  | nil => exact (Option.some.inj h).symm
  | cons f fs ih =>
    change behind (offsetBehind (some m) f.descriptor) fs = some n at h
    cases ho : offsetBehind (some m) f.descriptor with
    | none =>
      rw [ho, behind_none] at h
      cases h
    | some k =>
      rw [ho] at h
      obtain ⟨_,w,⟨⟩,hw,rfl⟩ := offsetBehind_eq_some ho
      rw [ih h, FieldLayout.widths_cons, hw, Option.getD_some, Nat.add_assoc]

end Extract

namespace Layout

variable {l : Layout} {f g : FieldLayout}

/-- An offset that is known is the width of the mandatory fields before. -/
theorem offset_eq_widths (hf : f ∈ l.mandatoryFields) {n : Nat} (hn : f.offset = some n) :
    n = widths (l.preceding f) := by
  obtain ⟨gs,hgs⟩ := preceding_append_isPrefix hf
  have hplan := l.planned_mandatoryFields
  rw [← hgs, List.append_assoc] at hplan
  have hb := Extract.behind_eq_some ((Extract.planned_append.mp hplan).2.1.symm.trans hn)
  rwa [Nat.zero_add] at hb

/-- On the way to wanted fields no offset leaves the address space. -/
theorem Addressable.offset_lt {start : Nat} {wanted : List Nat} (ha : l.Addressable start wanted)
    (hf : f ∈ Walk.passed l wanted) {n : Nat} (hn : f.offset = some n) :
    start + n < addressSpace := by
  obtain ⟨hm,g,hg,hgw,hle⟩ := Walk.mem_passed.mp hf
  have hsub : (l.preceding f).Sublist (l.preceding g) := by
    refine List.monotone_filter_right _ fun f' hf' => ?_
    rw [(mem_mandatoryFields.mp hm).2, Bool.false_or, decide_eq_true_eq] at hf'
    rw [Bool.or_eq_true, decide_eq_true_eq]
    exact hle.imp id hf'.trans_le
  have hwidth := FieldLayout.widths_le_of_sublist hsub
  have hlt := ha g hg hgw
  rw [← offset_eq_widths hm hn] at hwidth
  omega

theorem Addressable.mandatoryWidth_lt {start : Nat} {wanted : List Nat}
    (ha : l.Addressable start wanted) (hw : Walk.wantsSlot l wanted = true) {n : Nat}
    (hn : Extract.mandatoryWidth l = some n) : start + n < addressSpace := by
  have haddr := Walk.addressable_mandatoryFields ha hw
  have hend : Extract.endOffset l.mandatoryFields = some n := hn
  have hne : l.mandatoryFields ≠ [] := by
    intro hnil
    rw [hnil] at hend
    cases hend
  rw [Extract.endOffset_eq_behind l.planned_mandatoryFields haddr hne] at hend
  exact haddr.behind.lt hend

end Layout

/-! ## What the walk has behind it -/

namespace Walk

variable {l : Layout} {wanted : List Nat} {fs gs : List FieldLayout} {f g : FieldLayout}
  {r s q u : Reader} {located walked : List Span}

theorem isPrefix_passed (h : fs <+: l.mandatoryFields) (hfs : ∀ f ∈ fs, f ∈ passed l wanted) :
    fs <+: passed l wanted := by
  have hp := h.filter fun f => l.fields.any fun g =>
    wanted.contains g.index && (g.isCompatible || f.index ≤ g.index)
  rwa [List.filter_eq_self.mpr fun f hf => (List.mem_filter.mp (hfs f hf)).2] at hp

theorem preceding_isPrefix_passed (hg : g ∈ l.fields) (hgw : wanted.contains g.index = true) :
    l.preceding g <+: passed l wanted := by
  refine isPrefix_passed (l.preceding_isPrefix g) fun f hf => ?_
  obtain ⟨hm,hle⟩ := List.mem_filter.mp hf
  rw [Bool.or_eq_true, decide_eq_true_eq] at hle
  exact mem_passed.mpr ⟨hm,g,hg,hgw,hle.imp id Nat.le_of_lt⟩

theorem preceding_append_isPrefix_passed (hg : g ∈ l.mandatoryFields)
    (hgw : wanted.contains g.index = true) : l.preceding g ++ [g] <+: passed l wanted := by
  have hmem := (Layout.mem_mandatoryFields.mp hg).1
  refine isPrefix_passed (Layout.preceding_append_isPrefix hg) fun f hf => ?_
  rcases List.mem_append.mp hf with hf | hf
  · exact (preceding_isPrefix_passed hmem hgw).subset hf
  · obtain rfl := List.mem_singleton.mp hf
    exact mem_passed.mpr ⟨hg,f,hmem,hgw,.inr (Nat.le_refl _)⟩

theorem fields_of_isPrefix (hp : fs <+: gs) (h : fields gs r = .ok walked s) :
    ∃ located mid, fields fs r = .ok located mid ∧ located <+: walked := by
  obtain ⟨more,rfl⟩ := hp
  rw [fields_append] at h
  obtain ⟨located,mid,hm,h⟩ := EStateM.bind_eq_ok.mp h
  obtain ⟨rest,t,-,h⟩ := EStateM.bind_eq_ok.mp h
  obtain ⟨rfl,-⟩ := EStateM.pure_eq_ok.mp h
  exact ⟨located,mid,hm,rest,rfl⟩

theorem fields_append_singleton (h : fields (fs ++ [f]) r = .ok walked s) :
    ∃ located mid b, fields fs r = .ok located mid ∧
      Extract.consumed f.descriptor.skip mid = .ok b s ∧ walked = located ++ [⟨f.index,some b⟩] := by
  rw [fields_append] at h
  obtain ⟨located,mid,hmid,h⟩ := EStateM.bind_eq_ok.mp h
  obtain ⟨last,t,hlast,h⟩ := EStateM.bind_eq_ok.mp h
  obtain ⟨rfl,rfl⟩ := EStateM.pure_eq_ok.mp h
  obtain ⟨b,t',hb,hlast⟩ := EStateM.bind_eq_ok.mp hlast
  obtain ⟨rfl,rfl⟩ := EStateM.pure_eq_ok.mp hlast
  exact ⟨located,mid,b,hmid,hb,rfl⟩

theorem fields_passes (h : fields fs r = .ok located s) :
    ∃ b, r.Passes b s ∧ widths fs ≤ b.length := by
  induction fs generalizing r located with
  | nil =>
    obtain ⟨-,rfl⟩ := EStateM.pure_eq_ok.mp h
    exact ⟨[],.refl r,Nat.le_refl _⟩
  | cons f fs ih =>
    obtain ⟨b,t,ht,h⟩ := EStateM.bind_eq_ok.mp h
    obtain ⟨rest,t',hrest,h⟩ := EStateM.bind_eq_ok.mp h
    obtain ⟨-,rfl⟩ := EStateM.pure_eq_ok.mp h
    obtain ⟨hskip,hb⟩ := Extract.consumed_eq_ok f.descriptor.local_skip ht
    obtain ⟨c,hc,hle⟩ := ih hrest
    refine ⟨b ++ c,hb.trans hc,?_⟩
    rw [FieldLayout.widths_cons, List.length_append]
    cases hw : f.descriptor.fixedWidth with
    | none =>
      rw [Option.getD_none]
      omega
    | some w =>
      obtain ⟨b',hb',hl⟩ := f.descriptor.takes_skip w hw r t hskip
      have hp := hb.position_eq
      have hp' := hb'.position_eq
      rw [Option.getD_some]
      omega

theorem fields_of_spans {slots : Slots} (hr : Record.readHeader l q = .ok slots r)
    (h : spans l wanted q = .ok walked u) :
    ∃ located s, fields (passed l wanted) r = .ok located s ∧ located <+: walked := by
  obtain ⟨slots',r',hr',h⟩ := EStateM.bind_eq_ok.mp h
  rw [hr] at hr'
  cases hr'
  obtain ⟨located,s,hs,h⟩ := EStateM.bind_eq_ok.mp h
  refine ⟨located,s,hs,?_⟩
  cases hw : wantsSlot l wanted with
  | true =>
    rw [hw] at h
    obtain ⟨contents,t,-,h⟩ := EStateM.bind_eq_ok.mp h
    obtain ⟨rfl,-⟩ := EStateM.pure_eq_ok.mp h
    exact List.prefix_append _ _
  | false =>
    rw [hw] at h
    obtain ⟨rfl,-⟩ := EStateM.pure_eq_ok.mp h
    exact List.prefix_refl _

end Walk

namespace Record

variable {o : Options} {t : Schema} {l : Layout} {bytes : List UInt8} {selectors : List Selector}
  {slots : Slots} {r : Reader}

theorem walk_of_extract (hl : Layout.of t = .ok l) (hs : l.Selects selectors)
    (ha : ∀ slots r, readHeader l (.ofBytes o bytes) = .ok slots r →
      l.Addressable r.position (l.places selectors)) {p : PartialRecord}
    (hp : extract o t bytes selectors = .ok p) :
    ∃ walked, run o bytes (Walk.spans l (l.places selectors)) = .ok walked ∧
      ∀ s ∈ selectors, ∃ f sp, l.field? s = some f ∧
        walked.find? (·.index == f.index) = some sp ∧ p.span s = .ok (f,sp.bytes) := by
  obtain ⟨hok,herr⟩ := extract_of_walk hl hs ha
  cases hw : run o bytes (Walk.spans l (l.places selectors)) with
  | ok walked =>
    obtain ⟨p',hp',hspans⟩ := hok walked hw
    obtain rfl : p = p' := Except.ok.inj (hp.symm.trans hp')
    exact ⟨walked,rfl,hspans⟩
  | error e =>
    obtain ⟨e',he',-⟩ := herr e hw
    rw [hp] at he'
    cases he'

variable {s : Selector} {f : FieldLayout}

theorem span_of_extract (hl : Layout.of t = .ok l) (hs : l.Selects selectors)
    (ha : ∀ slots r, readHeader l (.ofBytes o bytes) = .ok slots r →
      l.Addressable r.position (l.places selectors))
    (hr : readHeader l (.ofBytes o bytes) = .ok slots r) {p : PartialRecord}
    (hp : extract o t bytes selectors = .ok p) (hsel : s ∈ selectors) (hf : l.field? s = some f)
    (hfc : f.isCompatible = false) :
    ∃ located mid b u, Walk.fields (l.preceding f) r = .ok located mid ∧
      Extract.consumed f.descriptor.skip mid = .ok b u ∧ p.span s = .ok (f,some b) := by
  obtain ⟨walked,hw,hspans⟩ := walk_of_extract hl hs ha hp
  obtain ⟨f',sp,hf',hfind,hspan⟩ := hspans s hsel
  obtain rfl : f = f' := Option.some.inj (hf.symm.trans hf')
  obtain ⟨q,hq⟩ := run_eq_ok.mp hw
  obtain ⟨passed,v,hpassed,hwalked⟩ := Walk.fields_of_spans hr hq
  have hmem := Layout.mem_mandatoryFields.mpr ⟨Layout.mem_of_field? hf,hfc⟩
  obtain ⟨first,u,hfirst,hsub⟩ := Walk.fields_of_isPrefix
    (Walk.preceding_append_isPrefix_passed hmem (Layout.mem_places hsel hf)) hpassed
  obtain ⟨located,mid,b,hmid,hb,rfl⟩ := Walk.fields_append_singleton hfirst
  refine ⟨located,mid,b,u,hmid,hb,?_⟩
  have hlast : (⟨f.index,some b⟩ : Span) ∈ walked :=
    (hsub.trans hwalked).subset (List.mem_append_right _ (List.mem_singleton.mpr rfl))
  have hi := List.find?_some hfind
  obtain rfl : sp = ⟨f.index,some b⟩ := List.inj_on_of_nodup_map
    (Walk.returns_spans l _ _ _ _ hq).1 (List.mem_of_find?_eq_some hfind) hlast (beq_iff_eq.mp hi)
  exact hspan

/-- Nothing is located in bytes that do not hold the mandatory fields before a selected one. -/
theorem extract_of_remaining_lt (hl : Layout.of t = .ok l) (hs : l.Selects selectors)
    (ha : ∀ slots r, readHeader l (.ofBytes o bytes) = .ok slots r →
      l.Addressable r.position (l.places selectors))
    (hr : readHeader l (.ofBytes o bytes) = .ok slots r) (hsel : s ∈ selectors)
    (hf : l.field? s = some f) (hlt : r.remaining < widths (l.preceding f)) :
    ∃ e, extract o t bytes selectors = .error e := by
  cases hp : extract o t bytes selectors with
  | error e => exact ⟨e,rfl⟩
  | ok p =>
    obtain ⟨walked,hw,-⟩ := walk_of_extract hl hs ha hp
    obtain ⟨q,hq⟩ := run_eq_ok.mp hw
    obtain ⟨passed,v,hpassed,-⟩ := Walk.fields_of_spans hr hq
    obtain ⟨located,mid,hmid,-⟩ := Walk.fields_of_isPrefix
      (Walk.preceding_isPrefix_passed (Layout.mem_of_field? hf) (Layout.mem_places hsel hf)) hpassed
    obtain ⟨b,hb,hle⟩ := Walk.fields_passes hmid
    have hrem := hb.remaining_eq
    omega

/-- As long as the fields before selected ones end within the address space, no sum on the way leaves
it, every selected mandatory field is read behind all mandatory fields before it, and nothing is
located in bytes that do not hold the fields before a selected one. -/
theorem extract_of_addressable (hl : Layout.of t = .ok l) (hs : l.Selects selectors)
    (hr : readHeader l (.ofBytes o bytes) = .ok slots r)
    (ha : l.Addressable r.position (l.places selectors)) :
    (∀ f ∈ Walk.passed l (l.places selectors), ∀ n, f.offset = some n →
      r.position + n < addressSpace) ∧
    (Walk.wantsSlot l (l.places selectors) = true → ∀ n, Extract.mandatoryWidth l = some n →
      r.position + n < addressSpace) ∧
    (∀ p, extract o t bytes selectors = .ok p →
      ∀ s ∈ selectors, ∀ f, l.field? s = some f → f.isCompatible = false →
        ∃ located mid b u, Walk.fields (l.preceding f) r = .ok located mid ∧
          Extract.consumed f.descriptor.skip mid = .ok b u ∧ p.span s = .ok (f,some b)) ∧
    ∀ s ∈ selectors, ∀ f, l.field? s = some f → r.remaining < widths (l.preceding f) →
      ∃ e, extract o t bytes selectors = .error e := by
  have ha' : ∀ slots r, readHeader l (.ofBytes o bytes) = .ok slots r →
      l.Addressable r.position (l.places selectors) := by
    intro slots' r' hr'
    rw [hr] at hr'
    cases hr'
    exact ha
  refine ⟨fun f hf n hn => ha.offset_lt hf hn,fun hw n hn => ha.mandatoryWidth_lt hw hn,?_,?_⟩
  · exact fun p hp s hsel f hf hfc => span_of_extract hl hs ha' hr hp hsel hf hfc
  · exact fun s hsel f hf hlt => extract_of_remaining_lt hl hs ha' hr hsel hf hlt

/-- A gauge cut off within its level has no unit. -/
theorem extract_of_addressable_gauge :
    ∃ slots r e, readHeader ⟨gauge.name,gauge.shape⟩ (.ofBytes {} (gaugeBytes.take 7)) = .ok slots r ∧
      r.position = 6 ∧ Layout.Addressable ⟨gauge.name,gauge.shape⟩ 6 [1] ∧
      extract {} gauge (gaugeBytes.take 7) [.name "unit"] = .error e := by
  obtain ⟨slots,r,hr,hpos,hrem⟩ : ∃ slots r,
      readHeader ⟨gauge.name,gauge.shape⟩ (.ofBytes {} (gaugeBytes.take 7)) = .ok slots r ∧
        r.position = 6 ∧ r.remaining = 1 := ⟨_,_,rfl,rfl,rfl⟩
  have hl : Layout.of gauge = .ok ⟨gauge.name,gauge.shape⟩ := rfl
  have hs : Layout.Selects ⟨gauge.name,gauge.shape⟩ [.name "unit"] := by
    unfold Layout.Selects
    decide
  have ha : Layout.Addressable ⟨gauge.name,gauge.shape⟩ 6 [1] := by
    unfold Layout.Addressable
    decide
  obtain ⟨-,-,-,hcut⟩ := extract_of_addressable hl hs hr (hpos ▸ ha)
  obtain ⟨f,hf,hlt⟩ : ∃ f, Layout.field? ⟨gauge.name,gauge.shape⟩ (.name "unit") = some f ∧
      1 < widths (Layout.preceding ⟨gauge.name,gauge.shape⟩ f) := ⟨_,rfl,by decide⟩
  obtain ⟨e,he⟩ := hcut _ List.mem_cons_self f hf (hrem ▸ hlt)
  exact ⟨slots,r,e,hr,hpos,ha,he⟩

/-- A hoard whose coins take all of the address space but the last byte. -/
def hoard : Schema :=
  .struct "Hoard" .named [.mandatory "coins" (.array (.scalar .u8) (2 ^ 64 - 1)),
    .mandatory "lid" (.scalar .u8), .mandatory "key" (.scalar .u8)]

/-- The header of a hoard and a single byte. -/
def hoardBytes : List UInt8 := [238, 19, 144, 246, 42]

/-- The key has no offset, and is read at the place of the coins. The offset of the lid leads into the
header. -/
theorem extract_hoard :
    (∃ f p, Layout.field? ⟨hoard.name,hoard.shape⟩ (.name "key") = some f ∧
      hoardBytes.length < widths (Layout.preceding ⟨hoard.name,hoard.shape⟩ f) ∧
      extract {} hoard hoardBytes [.name "key"] = .ok p ∧ p.raw (.name "key") = .ok (some [42])) ∧
    ∃ f n slots r p, Layout.field? ⟨hoard.name,hoard.shape⟩ (.name "lid") = some f ∧
      f.offset = some n ∧
      readHeader ⟨hoard.name,hoard.shape⟩ (.ofBytes {} hoardBytes) = .ok slots r ∧
      addressSpace ≤ r.position + n ∧
      extract {} hoard hoardBytes [.name "lid"] = .ok p ∧ p.raw (.name "lid") = .ok (some [246]) :=
  ⟨⟨_,_,rfl,by decide,rfl,rfl⟩,_,_,_,_,_,rfl,rfl,rfl,by decide,rfl,rfl⟩

end Record
end RecordCodec
