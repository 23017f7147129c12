import RecordCodec.Proofs.Extraction
import RecordCodec.Proofs.PartialContents
import RecordCodec.Proofs.RoundTrip

/-! # Single fields and whole records

A record that is read as a whole can be read field by field, with the same results, whichever fields
are selected. Conversely the fields make up the record, if all of them are selected: reading all of
them is reading the record. A type without compatible fields looks at no slot when its fields are
located, but steps over those of later releases when the record is read; there the way over the slots
has to exist too.
-/
namespace RecordCodec

def Record.stepOver (l : Layout) : Read Unit := do
  let slots ← Record.readHeader l
  if let .aggregate _ fields _ := l.descriptor then Descriptor.skipMandatory fields
  slots.finish

namespace Layout

/-- Whether every selector names a field. -/
def Selects (l : Layout) (selectors : List Selector) : Prop :=
  ∀ s ∈ selectors, (l.field? s).isSome = true

/-- Whether every field is named by some selector. -/
def SelectsAll (l : Layout) (selectors : List Selector) : Prop :=
  ∀ f ∈ l.fields, ∃ s ∈ selectors, l.field? s = some f

theorem mem_of_field? {l : Layout} {s : Selector} {f : FieldLayout} (h : l.field? s = some f) :
    f ∈ l.fields := by
  cases s with
  | index i => exact List.mem_of_getElem? h
  | name n => exact List.mem_of_find?_eq_some h

theorem wanted_eq_ok {l : Layout} {selectors : List Selector} (h : l.Selects selectors) :
    ∃ wanted, Extract.wanted l selectors = .ok wanted ∧
      ∀ s ∈ selectors, ∀ f, l.field? s = some f → wanted.contains f.index = true := by
  induction selectors with
  | nil =>
    refine ⟨[],rfl,?_⟩
    rintro s ⟨⟩
  | cons s selectors ih =>
    obtain ⟨wanted,hw,hk⟩ := ih fun s' hs => h s' (List.mem_cons_of_mem s hs)
    obtain ⟨f,hf⟩ := Option.isSome_iff_exists.mp (h s List.mem_cons_self)
    refine ⟨f.index :: wanted,?_,?_⟩
    · unfold Extract.wanted at hw ⊢
      rw [List.mapM_cons, hf, hw]
      rfl
    · intro s' hs g hg
      rw [List.contains_cons, Bool.or_eq_true]
      rcases List.mem_cons.mp hs with rfl | hs
      · rw [hf] at hg
        cases hg
        exact .inl (beq_self_eq_true _)
      · exact .inr (hk s' hs g hg)

end Layout

/-! ## Whole records -/

namespace Record

open RecordCodec.Field (AllHold kept)
open Schema (fieldShapes)

variable {o : Options} {t : Schema} {d : Descriptor} {fs : List Field} {bytes : List UInt8}
  {typeName name : String} {extensible : Bool} {q : Reader} {bs : List (List UInt8)}
  {ps : List (Option (List UInt8))}

/-- Behind its header a record has the mandatory fields and then a way over its slots. -/
def Lies (l : Layout) (fs : List FieldDescriptor) (q : Reader) (bs : List (List UInt8))
    (ps : List (Option (List UInt8))) : Prop :=
  ∃ slots r mid s, readHeader l q = .ok slots r ∧ Spread fs bs r mid ∧ Slots.Crosses ps mid s ∧
    ps.map Option.isSome = slots.presence.slots

theorem checkTrailing_of_ignore {r : Reader} (h : r.options.trailing = .ignore) :
    checkTrailing r = .ok () r := by simp [checkTrailing_eq, h]

theorem deserialize_eq_ok (ho : o.trailing = .ignore) (hb : bytes.length < addressSpace)
    (hd : t.descriptor = .ok d) (hf : t.recordFields? = some fs) {v : Value} :
    deserialize o t bytes = .ok v ↔
      ∃ bs ps vs, Lies ⟨t.name,t.shape⟩ (fieldShapes fs) (.ofBytes o bytes) bs ps ∧
        AllHold o fs vs (contents (fieldShapes fs) bs ps) ∧ v = .record vs := by
  obtain ⟨hi,hw⟩ := Schema.wellFormed_of_record hf (Schema.descriptor_eq_ok hd).2
  unfold deserialize
  rw [run_eq_ok, read_eq hd]
  constructor
  · rintro ⟨u,hu⟩
    obtain ⟨a,s,hs,hk⟩ := EStateM.bind_eq_ok.mp hu
    obtain ⟨_,s',-,hp⟩ := EStateM.bind_eq_ok.mp hk
    obtain ⟨rfl,-⟩ := EStateM.pure_eq_ok.mp hp
    obtain ⟨slots,r,hh,hr⟩ := EStateM.bind_eq_ok.mp hs
    rw [Schema.decodeBody_of_record hf] at hr
    obtain ⟨vs,s'',hv,hp⟩ := EStateM.bind_eq_ok.mp hr
    obtain ⟨rfl,rfl⟩ := EStateM.pure_eq_ok.mp hp
    obtain ⟨hl,b,hq⟩ := readHeader_eq_ok hh
    have hlen : r.bytes.length < addressSpace := hq.bytes_eq ▸ hb
    obtain ⟨bs,ps,mid,hm,hps,hc,ha⟩ := (Schema.decodeFields_eq_ok fs hi hw hlen).mp hv
    rw [hq.options_eq] at ha
    exact ⟨bs,ps,vs,⟨slots,r,mid,s'',hh,hm,hc,hps.trans hl⟩,ha,rfl⟩
  · rintro ⟨bs,ps,vs,⟨slots,r,mid,s,hh,hm,hc,hps⟩,ha,rfl⟩
    obtain ⟨hl,b,hq⟩ := readHeader_eq_ok hh
    have hlen : r.bytes.length < addressSpace := hq.bytes_eq ▸ hb
    have hopt : r.options = o := hq.options_eq
    rw [← hopt] at ha
    have hv := (Schema.decodeFields_eq_ok fs hi hw hlen).mpr ⟨bs,ps,mid,hm,hps.trans hl.symm,hc,ha⟩
    have hbody : t.decodeBody slots r = .ok (.record vs) s := by
      rw [Schema.decodeBody_of_record hf]
      exact EStateM.bind_of_ok _ hv
    obtain ⟨c,hk⟩ := (Schema.local_decodeFields fs slots).passes hv
    have htr : s.options.trailing = .ignore := by rw [hk.options_eq, hopt, ho]
    have hread : (readHeader ⟨t.name,t.shape⟩ >>= fun slots => t.decodeBody slots)
        (.ofBytes o bytes) = .ok (.record vs) s := (EStateM.bind_of_ok _ hh).trans hbody
    exact ⟨s,(EStateM.bind_of_ok _ hread).trans (EStateM.bind_of_ok _ (checkTrailing_of_ignore htr))⟩

/-- Which fields a selector names, and what a partly read record tells of them. -/
def Tells (p : PartialRecord) (fs : List Field) (cs : List (Option (List UInt8))) (s : Selector) :
    Prop :=
  ∃ f field c, p.layout.field? s = some f ∧ (kept fs)[f.index]? = some field ∧
    cs[f.index]? = some c ∧ p.span s = .ok (f,c) ∧
    ∀ v, p.content s field = .ok v ↔ field.Holds p.options v c

theorem extract_eq_ok (hd : t.descriptor = .ok d) {selectors : List Selector} {wanted : List Nat}
    (hw : Extract.wanted ⟨t.name,t.shape⟩ selectors = .ok wanted) {p : PartialRecord} :
    extract o t bytes selectors = .ok p ↔
      ∃ spans u, Extract.spans ⟨t.name,t.shape⟩ wanted (.ofBytes o bytes) = .ok spans u ∧
        p = ⟨⟨t.name,t.shape⟩,spans,o⟩ := by
  have he : extract o t bytes selectors =
      run o bytes (Extract.spans ⟨t.name,t.shape⟩ wanted) >>= fun spans =>
        pure (⟨⟨t.name,t.shape⟩,spans,o⟩ : PartialRecord) := by
    unfold extract
    rw [layout_of hd]
    change (Extract.wanted ⟨t.name,t.shape⟩ selectors >>= fun wanted =>
      run o bytes (Extract.spans ⟨t.name,t.shape⟩ wanted) >>= fun spans =>
        pure (⟨⟨t.name,t.shape⟩,spans,o⟩ : PartialRecord)) = _
    rw [hw]
    rfl
  rw [he, Except.bind_eq_ok]
  constructor
  · rintro ⟨spans,hr,hp⟩
    obtain ⟨u,hu⟩ := run_eq_ok.mp hr
    exact ⟨spans,u,hu,(Except.ok.inj hp).symm⟩
  · rintro ⟨spans,u,hu,rfl⟩
    exact ⟨spans,run_eq_ok.mpr ⟨u,hu⟩,rfl⟩

theorem fields_of_record (hf : t.recordFields? = some fs) :
    Layout.fields ⟨t.name,t.shape⟩ = FieldLayout.plan 0 (some 0) 0 (fieldShapes fs) := by
  obtain ⟨name,extensible,hshape⟩ := Schema.shape_of_record hf
  unfold Layout.fields
  rw [hshape]

theorem tells_of_finds (hd : t.descriptor = .ok d) (hf : t.recordFields? = some fs)
    {wanted : List Nat} {p : PartialRecord}
    (h : Extract.Finds wanted (contents (fieldShapes fs) bs ps)
      (FieldLayout.plan 0 (some 0) 0 (fieldShapes fs)) p.spans)
    {s : Selector} {f : FieldLayout} (hs : p.layout.field? s = some f)
    (hm : f ∈ FieldLayout.plan 0 (some 0) 0 (fieldShapes fs))
    (hw : wanted.contains f.index = true) : Tells p fs (contents (fieldShapes fs) bs ps) s := by
  obtain ⟨field,hk,hdesc⟩ := Field.kept_of_mem_plan hm
  have hlt : f.index < (contents (fieldShapes fs) bs ps).length := by
    rw [length_contents, Field.length_fieldShapes]
    exact (List.getElem?_eq_some_iff.mp hk).1
  have hc := List.getElem?_eq_getElem hlt
  obtain ⟨hmem,hskip⟩ := List.mem_filter.mp (List.mem_of_getElem? hk)
  have hs' : field.isSkipped = false := by simpa using hskip
  have hspan := PartialRecord.span_eq_ok hs (h.find?_eq hm hw hc)
  have hacc := Schema.descriptor_of_record hf hd hmem hs'
  exact ⟨f,field,_,hs,hk,hc,hspan,fun v => PartialRecord.content_eq_ok hspan hs' hacc hdesc⟩

/-- Wherever the fields of a record are, the selected ones can be read. -/
theorem extract_of_lies (hb : bytes.length < addressSpace) (hd : t.descriptor = .ok d)
    (hf : t.recordFields? = some fs)
    (h : Lies ⟨t.name,t.shape⟩ (fieldShapes fs) (.ofBytes o bytes) bs ps) {selectors : List Selector}
    (hs : Layout.Selects ⟨t.name,t.shape⟩ selectors) :
    ∃ p, extract o t bytes selectors = .ok p ∧ p.layout = ⟨t.name,t.shape⟩ ∧ p.options = o ∧
      ∀ s' ∈ selectors, ∀ s, p.layout.field? s = p.layout.field? s' →
        Tells p fs (contents (fieldShapes fs) bs ps) s := by
  obtain ⟨name,extensible,hshape⟩ := Schema.shape_of_record hf
  obtain ⟨slots,r,mid,u,hh,hm,hc,hp⟩ := h
  obtain ⟨-,b,hq⟩ := readHeader_eq_ok hh
  have hlen : r.bytes.length < addressSpace := hq.bytes_eq ▸ hb
  obtain ⟨wanted,hw,hsel⟩ := Layout.wanted_eq_ok hs
  have hspans := hh
  rw [hshape] at hspans
  obtain ⟨spans,u',hrun,hfind⟩ := Extract.spans_of_spread wanted hspans hlen hm hc hp
  rw [← hshape] at hrun
  have hx := (extract_eq_ok hd hw).mpr ⟨spans,u',hrun,rfl⟩
  refine ⟨_,hx,rfl,rfl,fun s' hs' s he => ?_⟩
  obtain ⟨f,hf'⟩ := Option.isSome_iff_exists.mp (hs s' hs')
  have hmem := Layout.mem_of_field? hf'
  rw [fields_of_record hf] at hmem
  exact tells_of_finds hd hf hfind (he.trans hf') hmem (hsel s' hs' f hf')

theorem contents_of_tells (hf : t.recordFields? = some fs) {p : PartialRecord}
    (hl : p.layout = ⟨t.name,t.shape⟩) {cs : List (Option (List UInt8))}
    (hc : cs.length = (kept fs).length) {selectors : List Selector}
    (ha : Layout.SelectsAll ⟨t.name,t.shape⟩ selectors)
    (h : ∀ s' ∈ selectors, ∀ s, p.layout.field? s = p.layout.field? s' → Tells p fs cs s)
    {vs : List Value} : p.contents 0 fs = .ok vs ↔ AllHold p.options fs vs cs := by
  refine PartialRecord.contents_eq_ok fs hc fun j field hj => ?_
  obtain ⟨f,hfj,hi,-⟩ := Field.plan_of_kept fs 0 0 (some 0) hj
  rw [Nat.zero_add] at hi ⊢
  have hindex : p.layout.field? (.index j) = some f := by
    rw [hl]
    change (Layout.fields ⟨t.name,t.shape⟩)[j]? = some f
    rw [fields_of_record hf]
    exact hfj
  have hmem : f ∈ Layout.fields ⟨t.name,t.shape⟩ := by
    rw [fields_of_record hf]
    exact List.mem_of_getElem? hfj
  obtain ⟨s',hs',hsf⟩ := ha f hmem
  have he : p.layout.field? (.index j) = p.layout.field? s' := by rw [hindex, hl, hsf]
  obtain ⟨f',field',c,hf',hk,hcs,-,hv⟩ := h s' hs' (.index j) he
  obtain rfl : f = f' := Option.some.inj (hindex.symm.trans hf')
  rw [hi] at hk hcs
  obtain rfl : field = field' := Option.some.inj (hj.symm.trans hk)
  exact ⟨c,hcs,hv⟩

theorem stepOver_aggregate (typeName name : String) (fields : List FieldDescriptor)
    (extensible : Bool) :
    stepOver ⟨typeName,.aggregate name fields extensible⟩ =
      readHeader ⟨typeName,.aggregate name fields extensible⟩ >>= fun slots =>
        Descriptor.skipMandatory fields >>= fun _ => slots.finish := rfl

theorem lies_of_extract (hb : bytes.length < addressSpace) (hd : t.descriptor = .ok d)
    (hf : t.recordFields? = some fs) {selectors : List Selector} {p : PartialRecord}
    (hs : Layout.Selects ⟨t.name,t.shape⟩ selectors)
    (ha : Layout.SelectsAll ⟨t.name,t.shape⟩ selectors)
    (hx : extract o t bytes selectors = .ok p)
    (hk : Layout.hasCompatible ⟨t.name,t.shape⟩ = false →
      run o bytes (stepOver ⟨t.name,t.shape⟩) = .ok ()) :
    ∃ bs ps, Lies ⟨t.name,t.shape⟩ (fieldShapes fs) (.ofBytes o bytes) bs ps := by
  obtain ⟨name,extensible,hshape⟩ := Schema.shape_of_record hf
  obtain ⟨wanted,hw,hsel⟩ := Layout.wanted_eq_ok hs
  obtain ⟨spans,u,hrun,-⟩ := (extract_eq_ok hd hw).mp hx
  have hall : ∀ f ∈ FieldLayout.plan 0 (some 0) 0 (fieldShapes fs),
      wanted.contains f.index = true := by
    intro f hmem
    rw [← fields_of_record hf] at hmem
    obtain ⟨s,hsm,hsf⟩ := ha f hmem
    exact hsel s hsm f hsf
  rw [hshape] at hrun hk ⊢
  obtain ⟨slots,r,bs,mid,hh,hsp,hps⟩ := Extract.spread_of_spans (q := .ofBytes o bytes) hb hall hrun
  cases hc : Descriptor.anyCompatible (fieldShapes fs) with
  | true =>
    obtain ⟨ps,hp,hcr⟩ := hps hc
    exact ⟨bs,ps,slots,r,mid,u,hh,hsp,hcr,hp⟩
  | false =>
    obtain ⟨v,hv⟩ := run_eq_ok.mp (hk hc)
    rw [stepOver_aggregate, EStateM.bind_of_ok _ hh, EStateM.bind_of_ok _ hsp.skipMandatory] at hv
    obtain ⟨ps,hp,hcr⟩ := Slots.forM_stepOver_eq_ok.mp hv
    exact ⟨bs,ps,slots,r,mid,v,hh,hsp,hcr,hp.trans (readHeader_eq_ok hh).1⟩

theorem stepOver_of_lies (hf : t.recordFields? = some fs)
    (h : Lies ⟨t.name,t.shape⟩ (fieldShapes fs) (.ofBytes o bytes) bs ps) :
    run o bytes (stepOver ⟨t.name,t.shape⟩) = .ok () := by
  obtain ⟨name,extensible,hshape⟩ := Schema.shape_of_record hf
  obtain ⟨slots,r,mid,u,hh,hsp,hc,hp⟩ := h
  rw [hshape] at hh ⊢
  have hfin : slots.finish mid = .ok () u :=
    Slots.forM_stepOver_eq_ok.mpr ⟨ps,hp.trans (readHeader_eq_ok hh).1.symm,hc⟩
  refine run_eq_ok.mpr ⟨u,?_⟩
  rw [stepOver_aggregate, EStateM.bind_of_ok _ hh, EStateM.bind_of_ok _ hsp.skipMandatory]
  exact hfin

/-- A record is read with some value exactly if all fields are located and each is told to have the
value that it has there; behind a type without compatible fields the slots of others have to be
there. And whichever fields of a record that is read are selected, each is told to have its value. -/
theorem deserialize_iff_extract (ho : o.trailing = .ignore) (hb : bytes.length < addressSpace)
    (hd : t.descriptor = .ok d) (hf : t.recordFields? = some fs) :
    (∀ (selectors : List Selector) (v : Value), Layout.Selects ⟨t.name,t.shape⟩ selectors →
      Layout.SelectsAll ⟨t.name,t.shape⟩ selectors →
        (deserialize o t bytes = .ok v ↔
          ∃ p vs, extract o t bytes selectors = .ok p ∧ p.contents 0 fs = .ok vs ∧
            v = .record vs ∧ (Layout.hasCompatible ⟨t.name,t.shape⟩ = false →
              run o bytes (stepOver ⟨t.name,t.shape⟩) = .ok ()))) ∧
      ∀ v, deserialize o t bytes = .ok v → ∃ vs, v = .record vs ∧
        ∀ selectors, Layout.Selects ⟨t.name,t.shape⟩ selectors →
          ∃ p, extract o t bytes selectors = .ok p ∧
            ∀ s' ∈ selectors, ∀ s,
              Layout.field? ⟨t.name,t.shape⟩ s = Layout.field? ⟨t.name,t.shape⟩ s' →
                ∃ f field w, Layout.field? ⟨t.name,t.shape⟩ s = some f ∧
                  (Field.described fs vs)[f.index]? = some (field,w) ∧
                  p.content s field = .ok w ∧ p.isPresent s = .ok (field.isThere w) := by
  have hlength (bs : List (List UInt8)) (ps : List (Option (List UInt8))) :
      (contents (fieldShapes fs) bs ps).length = (kept fs).length := by
    rw [length_contents, Field.length_fieldShapes]
  constructor
  · intro selectors v hs ha
    constructor
    · intro h
      obtain ⟨bs,ps,vs,hlies,hold,rfl⟩ := (deserialize_eq_ok ho hb hd hf).mp h
      obtain ⟨p,hx,hl,rfl,ht⟩ := extract_of_lies hb hd hf hlies hs
      have hc := (contents_of_tells hf hl (hlength bs ps) ha ht).mpr hold
      exact ⟨p,vs,hx,hc,rfl,fun _ => stepOver_of_lies hf hlies⟩
    · rintro ⟨p,vs,hx,hc,rfl,hk⟩
      obtain ⟨bs,ps,hlies⟩ := lies_of_extract hb hd hf hs ha hx hk
      obtain ⟨p',hx',hl,ho',ht⟩ := extract_of_lies hb hd hf hlies hs
      obtain rfl : p = p' := Except.ok.inj (hx.symm.trans hx')
      have hold := (contents_of_tells hf hl (hlength bs ps) ha ht).mp hc
      rw [ho'] at hold
      exact (deserialize_eq_ok ho hb hd hf).mpr ⟨bs,ps,vs,hlies,hold,rfl⟩
  · intro v h
    obtain ⟨bs,ps,vs,hlies,hold,rfl⟩ := (deserialize_eq_ok ho hb hd hf).mp h
    refine ⟨vs,rfl,fun selectors hs => ?_⟩
    obtain ⟨p,hx,hl,ho',ht⟩ := extract_of_lies hb hd hf hlies hs
    rw [← hl]
    refine ⟨p,hx,fun s' hs' s he => ?_⟩
    obtain ⟨f,field,c,hfs,hk,hc,hspan,hv⟩ := ht s' hs' s he
    obtain ⟨w,c',hw,hc',hh⟩ := Field.described_of_kept fs hold hk
    obtain rfl : c = c' := Option.some.inj (hc.symm.trans hc')
    have hmem := (List.mem_filter.mp (List.mem_of_getElem? hk)).2
    have hskip : field.isSkipped = false := by simpa using hmem
    have hpresent := PartialRecord.isPresent_eq_ok hspan
    rw [Field.isSome_of_holds hskip hh] at hpresent
    rw [← ho'] at hh
    exact ⟨f,field,w,hfs,hw,(hv w).mpr hh,hpresent⟩

def gauge : Schema :=
  .pointer .box (.struct "Gauge" .named
    [.mandatory "level" (.scalar .u16), .skipped "cache" (.scalar .u8) (.int 0),
      .compatible "unit" 1 .text])

def gaugeBytes : List UInt8 := [243, 231, 188, 104, 1, 1, 7, 0, 3, 2, 109, 109]

theorem deserialize_iff_extract_gauge :
    (∃ p, extract { trailing := .ignore } gauge gaugeBytes [.name "unit", .index 0] = .ok p ∧
      p.contents 0 [.mandatory "level" (.scalar .u16), .skipped "cache" (.scalar .u8) (.int 0),
        .compatible "unit" 1 .text] = .ok [.int 7, .int 0, .present (.text "mm")]) ∧
      ∃ p, extract { trailing := .ignore } gauge gaugeBytes [.index 1, .name "unit"] = .ok p ∧
        p.isPresent (.name "unit") = .ok true := by
  have hread : deserialize { trailing := .ignore } gauge gaugeBytes =
      .ok (.record [.int 7, .int 0, .present (.text "mm")]) := by rfl
  obtain ⟨hwhole,hparts⟩ := deserialize_iff_extract (o := { trailing := .ignore }) (t := gauge)
    (d := gauge.shape) rfl (by decide : gaugeBytes.length < addressSpace) (by rfl) rfl
  constructor
  · have hs : Layout.Selects ⟨gauge.name,gauge.shape⟩ [.name "unit", .index 0] := by
      unfold Layout.Selects
      decide
    have ha : Layout.SelectsAll ⟨gauge.name,gauge.shape⟩ [.name "unit", .index 0] := by
      intro f hf
      rcases List.mem_cons.mp hf with rfl | hf
      · exact ⟨.index 0,by simp,rfl⟩
      · rcases List.mem_singleton.mp hf with rfl
        exact ⟨.name "unit",by simp,rfl⟩
    obtain ⟨p,vs,hx,hc,hv,-⟩ := (hwhole _ _ hs ha).mp hread
    cases hv
    exact ⟨p,hx,hc⟩
  · have hs : Layout.Selects ⟨gauge.name,gauge.shape⟩ [.index 1, .name "unit"] := by
      unfold Layout.Selects
      decide
    obtain ⟨vs,hv,hall⟩ := hparts _ hread
    cases hv
    obtain ⟨p,hx,hp⟩ := hall _ hs
    obtain ⟨f,field,w,hf,hk,-,hi⟩ := hp (.name "unit") (by simp) (.name "unit") rfl
    have hindex : 1 = f.index := congrArg FieldLayout.index (Option.some.inj hf)
    rw [← hindex] at hk
    cases hk
    exact ⟨p,hx,hi⟩

def point : Schema :=
  .struct "Point" .named [.mandatory "x" (.scalar .i32), .mandatory "y" (.scalar .i32)]

/-- A record of a point whose header announces a filled slot behind it, cut off before the payload. -/
def cutBytes : List UInt8 := [79, 197, 76, 85, 1, 1, 7, 0, 0, 0, 9, 0, 0, 0]

/-- Both coordinates are read from their bytes, and the record is not. -/
theorem deserialize_ne_extract_point :
    deserialize { trailing := .ignore } point cutBytes = .error (.truncated 1 0) ∧
      ∃ p, extract { trailing := .ignore } point cutBytes [.index 0, .index 1] = .ok p ∧
        Layout.SelectsAll ⟨point.name,point.shape⟩ [.index 0, .index 1] ∧
        p.get (.index 0) (.scalar .i32) = .ok (.int 7) ∧
        p.get (.index 1) (.scalar .i32) = .ok (.int 9) := by
  have hall : Layout.SelectsAll ⟨point.name,point.shape⟩ [.index 0, .index 1] := by
    intro f hf
    rcases List.mem_cons.mp hf with rfl | hf
    · exact ⟨.index 0,by simp,rfl⟩
    · rcases List.mem_singleton.mp hf with rfl
      exact ⟨.index 1,by simp,rfl⟩
  exact ⟨by rfl,_,by rfl,hall,by rfl,by rfl⟩

end Record
end RecordCodec
