import RecordCodec.Proofs.Addressing

/-! # Records are searched as they are walked

Fields of a record are located exactly if the walk gets to them, and they are found where the walk
finds them, whatever else is selected. The two fail alike. This holds wherever the fields before a
selected one end within the address space.
-/
namespace RecordCodec

namespace Walk

open FieldLayout (widths)
open Extract (Planned stops lastWanted)

variable {l : Layout} {wanted : List Nat} {f g : FieldLayout}

theorem mem_passed : f ∈ passed l wanted ↔ f ∈ l.mandatoryFields ∧
    ∃ g ∈ l.fields, wanted.contains g.index = true ∧ (g.isCompatible = true ∨ f.index ≤ g.index) := by
  unfold passed
  simp [List.mem_filter, List.any_eq_true]

theorem wantsSlot_eq_true : wantsSlot l wanted = true ↔
    ∃ g ∈ l.fields, wanted.contains g.index = true ∧ g.isCompatible = true := by
  unfold wantsSlot
  simp only [List.any_eq_true, Layout.mem_compatibleFields]
  constructor
  · rintro ⟨g,⟨hg,hc⟩,hw⟩
    exact ⟨g,hg,hw,hc⟩
  · rintro ⟨g,hg,hw,hc⟩
    exact ⟨g,⟨hg,hc⟩,hw⟩

theorem passed_of_wantsSlot (h : wantsSlot l wanted = true) : passed l wanted = l.mandatoryFields := by
  obtain ⟨g,hg,hw,hc⟩ := wantsSlot_eq_true.mp h
  refine List.filter_eq_self.mpr fun f _ => List.any_eq_true.mpr ⟨g,hg,?_⟩
  rw [hw, hc]
  rfl

theorem passed_isPrefix (l : Layout) (wanted : List Nat) :
    passed l wanted <+: l.mandatoryFields := by
  refine Layout.filter_isPrefix (l.pairwise_mandatoryFields.imp fun {f g} hfg hg => ?_)
  obtain ⟨k,hk,hp⟩ := List.any_eq_true.mp hg
  refine List.any_eq_true.mpr ⟨k,hk,?_⟩
  simp only [Bool.and_eq_true, Bool.or_eq_true, decide_eq_true_eq] at hp ⊢
  exact ⟨hp.1,hp.2.imp id fun hle => Nat.le_trans (Nat.le_of_lt hfg) hle⟩

theorem planned_passed (l : Layout) (wanted : List Nat) : Planned (some 0) (passed l wanted) := by
  obtain ⟨gs,hgs⟩ := passed_isPrefix l wanted
  have h := l.planned_mandatoryFields
  rw [← hgs] at h
  exact (Extract.planned_append.mp h).1

theorem mandatory_of_wanted (hw : wantsSlot l wanted = false) (hg : g ∈ l.fields)
    (hgw : wanted.contains g.index = true) : g.isCompatible = false := by
  refine Bool.eq_false_iff.mpr fun hc => ?_
  rw [wantsSlot_eq_true.mpr ⟨g,hg,hgw,hc⟩] at hw
  cases hw

theorem all_lastWanted (wanted : List Nat) {fs : List FieldLayout}
    (h : fs.Pairwise fun f g => f.index < g.index) (n : Nat) :
    (lastWanted wanted fs).all (· < n) = true ↔
      ∀ g ∈ fs, wanted.contains g.index = true → g.index < n := by
  constructor
  · intro hall g hg hgw
    have hsorted := (h.imp Nat.le_of_lt).filter fun f => wanted.contains f.index
    obtain ⟨last,hl,hle⟩ := Extract.index_le_last hsorted (List.mem_filter.mpr ⟨hg,hgw⟩)
    have hlast : lastWanted wanted fs = some last := hl
    rw [hlast] at hall
    exact Nat.lt_of_le_of_lt hle (of_decide_eq_true hall)
  · intro hall
    refine (Option.all_eq_true _ _).mpr fun last hl => decide_eq_true ?_
    obtain ⟨g,hg,rfl⟩ := List.mem_map.mp (List.mem_of_getLast? hl)
    obtain ⟨hg,hgw⟩ := List.mem_filter.mp hg
    exact hall g hg hgw

/-- The fields on the way are those that the search comes to. -/
theorem filter_stops (l : Layout) (wanted : List Nat) :
    (l.mandatoryFields.filter fun f =>
      !stops (lastWanted wanted l.mandatoryFields) (wantsSlot l wanted) f) = passed l wanted := by
  refine List.filter_congr fun f hf => Bool.eq_iff_iff.mpr ?_
  have hpass : (l.fields.any fun g =>
      wanted.contains g.index && (g.isCompatible || f.index ≤ g.index)) = true ↔
        f ∈ passed l wanted := by
    rw [passed, List.mem_filter]
    exact ⟨fun h => ⟨hf,h⟩,fun h => h.2⟩
  rw [hpass, mem_passed]
  cases hw : wantsSlot l wanted with
  | true =>
    obtain ⟨g,hg,hgw,hc⟩ := wantsSlot_eq_true.mp hw
    exact ⟨fun _ => ⟨hf,g,hg,hgw,.inl hc⟩,fun _ => rfl⟩
  | false =>
    have hstop : (!stops (lastWanted wanted l.mandatoryFields) false f) = true ↔
        ∃ g ∈ l.mandatoryFields, wanted.contains g.index = true ∧ f.index ≤ g.index := by
      have hall := not_congr (all_lastWanted wanted l.pairwise_mandatoryFields f.index)
      simpa [stops] using hall
    rw [hstop]
    constructor
    · rintro ⟨g,hg,hgw,hle⟩
      exact ⟨hf,g,(Layout.mem_mandatoryFields.mp hg).1,hgw,.inr hle⟩
    · rintro ⟨-,g,hg,hgw,hc | hle⟩
      · rw [mandatory_of_wanted hw hg hgw] at hc
        cases hc
      · exact ⟨g,Layout.mem_mandatoryFields.mpr ⟨hg,mandatory_of_wanted hw hg hgw⟩,hgw,hle⟩

/-- Unless the walk goes over all mandatory fields it goes to a wanted one, if it goes anywhere. -/
theorem passed_eq_append (hw : wantsSlot l wanted = false) (hp : passed l wanted ≠ []) :
    ∃ z ∈ l.fields, wanted.contains z.index = true ∧ passed l wanted = l.preceding z ++ [z] := by
  let z := (passed l wanted).getLast hp
  have he : passed l wanted = (passed l wanted).dropLast ++ [z] :=
    (List.dropLast_append_getLast hp).symm
  obtain ⟨gs,hgs⟩ := passed_isPrefix l wanted
  have hsplit : l.mandatoryFields = (passed l wanted).dropLast ++ z :: gs := by
    rw [← hgs, List.append_cons, ← he]
  have hz := Layout.preceding_eq hsplit
  rw [← hz] at he
  obtain ⟨hzm,g,hg,hgw,hle⟩ := mem_passed.mp (List.getLast_mem hp)
  have hzc := (Layout.mem_mandatoryFields.mp hzm).2
  have hgc := mandatory_of_wanted hw hg hgw
  have hgp : g ∈ l.preceding z ++ [z] :=
    he ▸ mem_passed.mpr ⟨Layout.mem_mandatoryFields.mpr ⟨hg,hgc⟩,g,hg,hgw,.inr (Nat.le_refl _)⟩
  have hgz : g = z := by
    rcases List.mem_append.mp hgp with hf | hf
    · -- the field that leads the walk to `z` cannot come before it
      have hlt := (List.mem_filter.mp hf).2
      rw [hzc, Bool.false_or, decide_eq_true_eq] at hlt
      have hle := hle.resolve_left (Bool.eq_false_iff.mp hgc)
      exact (Nat.not_lt.mpr hle hlt).elim
    · exact List.mem_singleton.mp hf
  exact ⟨z,hgz ▸ hg,hgz ▸ hgw,he⟩

/-! ## Behind the header -/

open Extract (mandatoryAll mandatory catchUp behind endOffset address filled missing compatible)
open Read (Agree Returns seek)

variable {r : Reader}

theorem arranged_of_isSome (wanted : List Nat) {spans : List Span}
    (h : ∀ sp ∈ spans, sp.bytes.isSome = true) (more : List Span) :
    arranged wanted (spans ++ more) =
      spans.filter (fun sp => wanted.contains sp.index) ++ arranged wanted more := by
  have hfound : spans.filter (isFound wanted) = spans.filter fun sp => wanted.contains sp.index := by
    refine List.filter_congr fun sp hsp => ?_
    rw [isFound, h sp hsp, Bool.and_true]
  have hmissing : spans.filter (isMissing wanted) = [] := by
    refine List.filter_eq_nil_iff.mpr fun sp hsp => ?_
    rw [isMissing, ← Option.not_isSome, h sp hsp]
    simp
  unfold arranged
  rw [List.filter_append, List.filter_append, hfound, hmissing, List.nil_append,
    List.append_assoc]

theorem addressable_mandatoryFields {start : Nat} (ha : l.Addressable start wanted)
    (hw : wantsSlot l wanted = true) : Extract.Addressable start (some 0) l.mandatoryFields := by
  obtain ⟨g,hg,hgw,hc⟩ := wantsSlot_eq_true.mp hw
  have hall : l.preceding g = l.mandatoryFields :=
    List.filter_eq_self.mpr fun f _ => by rw [hc, Bool.true_or]
  have hlt := ha g hg hgw
  rw [hall] at hlt
  rintro _ ⟨⟩
  exact hlt

theorem mandatory_agrees_located (ha : l.Addressable r.position wanted)
    (hw : wantsSlot l wanted = false) :
    Agree r (mandatoryAll wanted r.position (passed l wanted)) (located wanted (passed l wanted)) := by
  by_cases hp : passed l wanted = []
  · rw [hp]
    exact .refl r _
  · obtain ⟨z,hz,hzw,he⟩ := passed_eq_append hw hp
    have haddr : Extract.Addressable r.position (some 0) (l.preceding z) := by
      rintro _ ⟨⟩
      exact ha z hz hzw
    have hplan := planned_passed l wanted
    rw [he] at hplan ⊢
    exact (Extract.mandatory_agrees_of_wanted hzw hplan haddr r).trans
      (.of_stays (Extract.catchUp_start r) _)

/-- Seeks the end of the mandatory fields, if their widths are fixed. -/
def seekEnd (l : Layout) (start : Nat) : Read Unit :=
  match Extract.mandatoryWidth l with
  | some width => seek (address start width)
  | none => pure ()

/-- What the search does behind the mandatory fields that it has located. -/
def searchSlots (l : Layout) (wanted : List Nat) (slots : List Bool) (spans : List Span) :
    Read (List Span) :=
  filled wanted slots l.compatibleFields >>= fun found =>
    pure (spans ++ (found ++ (missing wanted l.compatibleFields found).map fun f => ⟨f.index,none⟩))

theorem compatible_append (l : Layout) (wanted : List Nat) (start : Nat) (slots : List Bool)
    (spans : List Span) :
    (compatible l wanted start slots >>= fun found => pure (spans ++ found)) =
      seekEnd l start >>= fun _ => searchSlots l wanted slots spans := by
  have hc : compatible l wanted start slots = seekEnd l start >>= fun _ =>
      filled wanted slots l.compatibleFields >>= fun found =>
        pure (found ++ (missing wanted l.compatibleFields found).map fun f => ⟨f.index,none⟩) :=
    Extract.compatible_eq l wanted start slots
  unfold searchSlots
  simp only [hc, bind_assoc, pure_bind]

/-- What the search finds in the slots is what the walk finds there, arranged. -/
theorem searchSlots_eq (l : Layout) (wanted : List Nat) (slots : List Bool) {spans : List Span}
    (h : ∀ sp ∈ spans, sp.bytes.isSome = true) :
    searchSlots l wanted slots (spans.filter fun sp => wanted.contains sp.index) =
      payloads slots >>= fun contents =>
        pure (arranged wanted (spans ++ slotSpans l.compatibleFields contents)) := by
  unfold searchSlots
  rw [filled_eq, bind_map_left]
  refine congrArg _ (funext fun contents => congrArg _ ?_)
  have hn : ((slotSpans l.compatibleFields contents).map (·.index)).Nodup := by
    rw [map_index_slotSpans]
    exact (List.filter_sublist.map _).nodup l.nodup_index
  rw [arranged_of_isSome wanted h, missing_eq fun sp hsp => any_isFound hn hsp]
  rfl

/-- The seek to the end of the mandatory fields is the one that makes up for those left unpassed. -/
theorem agree_seekEnd (wanted : List Nat)
    (ha : Extract.Addressable r.position (some 0) l.mandatoryFields) :
    Agree r
      (mandatoryAll wanted r.position l.mandatoryFields >>= fun spans =>
        seekEnd l r.position >>= fun _ => pure spans)
      (mandatoryAll wanted r.position l.mandatoryFields >>= fun spans =>
        catchUp r.position (behind (some 0) l.mandatoryFields) >>= fun _ => pure spans) := by
  have hend : seekEnd l r.position = (match endOffset l.mandatoryFields with
    | some width => seek (address r.position width)
    | none => pure ()) := rfl
  rw [hend]
  by_cases hn : l.mandatoryFields = []
  · rw [hn]
    change Agree r (pure []) (catchUp r.position (some 0) >>= fun _ => pure [])
    exact .of_eq (EStateM.bind_of_ok (fun _ => pure []) (Extract.catchUp_start r)).symm
  · rw [Extract.endOffset_eq_behind l.planned_mandatoryFields ha hn]
    cases hb : behind (some 0) l.mandatoryFields with
    | none => exact .refl r _
    | some n =>
      dsimp only
      rw [Extract.address_eq (ha.behind.lt hb)]
      exact .refl r _

theorem compatible_agrees (ha : l.Addressable r.position wanted) (hw : wantsSlot l wanted = true)
    (slots : List Bool) :
    Agree r
      (mandatoryAll wanted r.position l.mandatoryFields >>= fun spans =>
        compatible l wanted r.position slots >>= fun found => pure (spans ++ found))
      (arranged wanted <$> (fields l.mandatoryFields >>= fun spans =>
        payloads slots >>= fun contents =>
          pure (spans ++ slotSpans l.compatibleFields contents))) := by
  have haddr := addressable_mandatoryFields ha hw
  have hmandatory := ((agree_seekEnd wanted haddr).trans
    (Extract.mandatory_agrees wanted l.planned_mandatoryFields haddr r)).trans
      (.of_stays (Extract.catchUp_start r) _)
  have h := hmandatory.bind_left (searchSlots l wanted slots)
  simp only [bind_assoc, pure_bind] at h
  simp only [compatible_append]
  refine h.trans ?_
  rw [located, bind_map_left, map_bind]
  refine .bind_right _ fun spans s hs => .of_eq ?_
  rw [searchSlots_eq l wanted slots (returns_fields _ r spans s hs).2]
  simp only [map_bind, map_pure]

theorem spans_agree {o : Options} {bytes : List UInt8}
    (ha : ∀ slots r, Record.readHeader l (.ofBytes o bytes) = .ok slots r →
      l.Addressable r.position wanted) :
    Agree (.ofBytes o bytes) (Extract.spans l wanted) (arranged wanted <$> spans l wanted) := by
  have hsearch : Extract.spans l wanted = Record.readHeader l >>= fun slots =>
      Read.position >>= fun start =>
        mandatory wanted start (lastWanted wanted l.mandatoryFields) (wantsSlot l wanted)
            l.mandatoryFields >>= fun located =>
          if wantsSlot l wanted then
            compatible l wanted start slots.presence.slots >>= fun found => pure (located ++ found)
          else pure located := rfl
  have hwalk : arranged wanted <$> spans l wanted = Record.readHeader l >>= fun slots =>
      arranged wanted <$> (fields (passed l wanted) >>= fun located =>
        if wantsSlot l wanted then
          payloads slots.presence.slots >>= fun contents =>
            pure (located ++ slotSpans l.compatibleFields contents)
        else pure located) := map_bind ..
  rw [hsearch, hwalk]
  refine .bind_right _ fun slots r hr => ?_
  have ha := ha slots r hr
  have hpos : Read.position r = .ok r.position r := rfl
  refine (Agree.of_stays hpos _).trans ?_
  rw [Extract.mandatory_eq_all _ _ _ _ l.pairwise_mandatoryFields, filter_stops]
  cases hw : wantsSlot l wanted with
  | true =>
    rw [passed_of_wantsSlot hw]
    exact compatible_agrees ha hw slots.presence.slots
  | false =>
    refine ((mandatory_agrees_located ha hw).bind_left pure).trans ?_
    rw [located, bind_map_left, map_bind]
    refine .bind_right _ fun spans s hs => .of_eq ?_
    have harranged := arranged_of_isSome wanted (returns_fields _ r spans s hs).2 []
    rw [List.append_nil] at harranged
    rw [if_neg Bool.false_ne_true, map_pure, harranged]
    exact congrArg (fun spans => (pure spans : Read (List Span)) s) (List.append_nil _).symm

/-- The walk tells of each wanted field, and of no field twice. -/
theorem returns_spans (l : Layout) (wanted : List Nat) :
    Returns (spans l wanted) fun located => (located.map (·.index)).Nodup ∧
      ∀ f ∈ l.fields, wanted.contains f.index = true → ∃ sp ∈ located, sp.index = f.index := by
  have hmem (fs : List FieldLayout) {spans : List Span}
      (h : spans.map (·.index) = fs.map (·.index)) {f : FieldLayout} (hf : f ∈ fs) :
      ∃ sp ∈ spans, sp.index = f.index := by
    have hi := List.mem_map_of_mem (f := FieldLayout.index) hf
    rw [← h] at hi
    exact List.mem_map.mp hi
  refine .after _ fun slots => (returns_fields _).bind fun located h => ?_
  refine .ite (fun hw => .after _ fun contents => .pure ?_) fun hw => .pure ?_
  · have hindices : (located ++ slotSpans l.compatibleFields contents).map (·.index) =
        (l.mandatoryFields ++ l.compatibleFields).map (·.index) := by
      rw [List.map_append, List.map_append, h.1, passed_of_wantsSlot hw, map_index_slotSpans]
    have hall : (l.mandatoryFields ++ l.compatibleFields).Perm l.fields :=
      List.perm_append_comm.trans (List.filter_append_perm _ _)
    refine ⟨?_,fun f hf _ => hmem _ hindices (hall.mem_iff.mpr hf)⟩
    rw [hindices]
    exact (hall.map _).nodup_iff.mpr l.nodup_index
  · have hw := Bool.eq_false_iff.mpr hw
    constructor
    · rw [h.1]
      have hsub := (passed_isPrefix l wanted).sublist.trans List.filter_sublist
      exact (hsub.map _).nodup l.nodup_index
    · intro f hf hfw
      have hfc := mandatory_of_wanted hw hf hfw
      exact hmem _ h.1 (mem_passed.mpr
        ⟨Layout.mem_mandatoryFields.mpr ⟨hf,hfc⟩,f,hf,hfw,.inr (Nat.le_refl _)⟩)

theorem mem_arranged {spans : List Span} {sp : Span} :
    sp ∈ arranged wanted spans ↔ sp ∈ spans ∧ wanted.contains sp.index = true := by
  have hfound : isFound wanted sp = true ↔ wanted.contains sp.index = true ∧ sp.bytes.isSome = true :=
    Bool.and_eq_true_iff
  have hmissing : isMissing wanted sp = true ↔
      wanted.contains sp.index = true ∧ sp.bytes.isNone = true := Bool.and_eq_true_iff
  unfold arranged
  rw [List.mem_append, List.mem_filter, List.mem_filter, hfound, hmissing]
  cases sp.bytes <;> simp

theorem find?_eq_of_unique {spans : List Span} {sp : Span} (hsp : sp ∈ spans)
    (h : ∀ sp' ∈ spans, sp'.index = sp.index → sp' = sp) :
    spans.find? (·.index == sp.index) = some sp := by
  have hsome : (spans.find? (·.index == sp.index)).isSome = true :=
    List.find?_isSome.mpr ⟨sp,hsp,beq_iff_eq.mpr rfl⟩
  obtain ⟨sp',hfind⟩ := Option.isSome_iff_exists.mp hsome
  have hi := List.find?_some hfind
  rw [hfind, h sp' (List.mem_of_find?_eq_some hfind) (beq_iff_eq.mp hi)]

end Walk

/-! ## Whole records -/

theorem Layout.wanted_eq {l : Layout} {selectors : List Selector} (h : l.Selects selectors) :
    Extract.wanted l selectors = .ok (l.places selectors) := by
  induction selectors with
  | nil => rfl
  | cons s selectors ih =>
    have hs := ih fun s' hs => h s' (List.mem_cons_of_mem s hs)
    obtain ⟨f,hf⟩ := Option.isSome_iff_exists.mp (h s List.mem_cons_self)
    unfold Extract.wanted at hs ⊢
    unfold places
    rw [List.mapM_cons, hf, hs, List.filterMap_cons_some (b := f.index) (by rw [hf]; rfl)]
    rfl

theorem Layout.mem_places {l : Layout} {selectors : List Selector} {s : Selector} (hs : s ∈ selectors)
    {f : FieldLayout} (hf : l.field? s = some f) :
    (l.places selectors).contains f.index = true :=
  List.contains_iff_mem.mpr (List.mem_filterMap.mpr ⟨s,hs,congrArg _ hf⟩)

namespace Record

variable {o : Options} {t : Schema} {l : Layout} {bytes : List UInt8} {selectors : List Selector}

theorem run_agrees {α : Type} {x y : Read α} (h : Read.Agree (.ofBytes o bytes) x y) :
    (∀ a, run o bytes y = .ok a → run o bytes x = .ok a) ∧
      ∀ e, run o bytes y = .error e → ∃ e', run o bytes x = .error e' ∧ e'.Alike e := by
  unfold Read.Agree at h
  unfold run
  generalize x (.ofBytes o bytes) = p, y (.ofBytes o bytes) = q at h
  cases h with
  | ok a s =>
    refine ⟨fun _ h => h,?_⟩
    rintro e ⟨⟩
  | error s s' h =>
    constructor
    · rintro a ⟨⟩
    · rintro e ⟨⟩
      exact ⟨_,rfl,h⟩

theorem run_map {α β : Type} (o : Options) (bytes : List UInt8) (f : α → β) (x : Read α) :
    run o bytes (f <$> x) = f <$> run o bytes x := by
  unfold run
  cases hx : x (.ofBytes o bytes) with
  | ok a s =>
    have hf : (f <$> x) (.ofBytes o bytes) = .ok (f a) s := EStateM.bind_of_ok (fun a => pure (f a)) hx
    rw [hf]
    rfl
  | error e s =>
    have hf : (f <$> x) (.ofBytes o bytes) = .error e s :=
      EStateM.bind_of_error (fun a => pure (f a)) hx
    rw [hf]
    rfl

theorem extract_eq (hl : Layout.of t = .ok l) (hs : l.Selects selectors) :
    extract o t bytes selectors =
      (fun spans => ⟨l,spans,o⟩) <$> run o bytes (Extract.spans l (l.places selectors)) := by
  unfold extract
  rw [hl]
  change (Extract.wanted l selectors >>= fun wanted =>
    run o bytes (Extract.spans l wanted) >>= fun spans => pure (⟨l,spans,o⟩ : PartialRecord)) = _
  rw [Layout.wanted_eq hs]
  rfl

/-- Where the fields before selected ones end within the address space, fields are located as the
walk to them finds them. -/
theorem extract_of_walk (hl : Layout.of t = .ok l) (hs : l.Selects selectors)
    (ha : ∀ slots r, readHeader l (.ofBytes o bytes) = .ok slots r →
      l.Addressable r.position (l.places selectors)) :
    (∀ walked, run o bytes (Walk.spans l (l.places selectors)) = .ok walked →
      ∃ p, extract o t bytes selectors = .ok p ∧
        ∀ s ∈ selectors, ∃ f sp, l.field? s = some f ∧
          walked.find? (·.index == f.index) = some sp ∧ p.span s = .ok (f,sp.bytes)) ∧
    ∀ e, run o bytes (Walk.spans l (l.places selectors)) = .error e →
      ∃ e', extract o t bytes selectors = .error e' ∧ e'.Alike e := by
  obtain ⟨hok,herr⟩ := run_agrees (Walk.spans_agree ha)
  have hmap := run_map o bytes (Walk.arranged (l.places selectors))
    (Walk.spans l (l.places selectors))
  rw [extract_eq hl hs]
  constructor
  · intro walked hw
    rw [hw] at hmap
    refine ⟨_,congrArg _ (hok _ hmap),fun s hsel => ?_⟩
    obtain ⟨u,hu⟩ := run_eq_ok.mp hw
    obtain ⟨hnodup,hall⟩ := Walk.returns_spans l _ _ _ _ hu
    obtain ⟨f,hf⟩ := Option.isSome_iff_exists.mp (hs s hsel)
    have hwanted := Layout.mem_places hsel hf
    obtain ⟨sp,hsp,hi⟩ := hall f (Layout.mem_of_field? hf) hwanted
    rw [← hi] at hwanted
    have hunique : ∀ sp' ∈ walked, sp'.index = sp.index → sp' = sp :=
      fun sp' hsp' => List.inj_on_of_nodup_map hnodup hsp' hsp
    have hfind := Walk.find?_eq_of_unique (Walk.mem_arranged.mpr ⟨hsp,hwanted⟩)
      fun sp' hsp' => hunique sp' (Walk.mem_arranged.mp hsp').1
    rw [hi] at hfind
    refine ⟨f,sp,hf,hi ▸ Walk.find?_eq_of_unique hsp hunique,PartialRecord.span_eq_ok hf ?_⟩
    rw [hfind, ← hi]
  · intro e he
    rw [he] at hmap
    obtain ⟨e',he',halike⟩ := herr e hmap
    exact ⟨e',by rw [he']; rfl,halike⟩

/-- A record is searched as it is walked: the same fields are found at the same places, or both fail
alike. -/
theorem extract_eq_walk (o : Options) (bytes : List UInt8) (hl : Layout.of t = .ok l)
    (hs : l.Selects selectors)
    (hw : FieldLayout.widths l.mandatoryFields < 2 ^ 63) :
    (∀ walked, run o bytes (Walk.spans l (l.places selectors)) = .ok walked →
      ∃ p, extract o t bytes selectors = .ok p ∧
        ∀ s ∈ selectors, ∃ f sp, l.field? s = some f ∧
          walked.find? (·.index == f.index) = some sp ∧ p.span s = .ok (f,sp.bytes)) ∧
    ∀ e, run o bytes (Walk.spans l (l.places selectors)) = .error e →
      ∃ e', extract o t bytes selectors = .error e' ∧ e'.Alike e := by
  refine extract_of_walk hl hs fun slots r hr g _ _ => ?_
  have hstart := position_le_longest hr
  have hle : FieldLayout.widths (l.preceding g) ≤ FieldLayout.widths l.mandatoryFields :=
    FieldLayout.widths_le_of_sublist List.filter_sublist
  have hroom : Header.longest + 2 ^ 63 < addressSpace := by decide
  omega

theorem extract_eq_walk_gauge :
    Layout.Selects ⟨gauge.name,gauge.shape⟩ [.name "unit", .index 0, .index 1] ∧
      ∃ p, extract {} gauge gaugeBytes [.name "unit", .index 0, .index 1] = .ok p ∧
        p.raw (.name "unit") = .ok (some [2, 109, 109]) := by
  have hs : Layout.Selects ⟨gauge.name,gauge.shape⟩ [.name "unit", .index 0, .index 1] := by
    unfold Layout.Selects
    decide
  have hl : Layout.of gauge = .ok ⟨gauge.name,gauge.shape⟩ := rfl
  obtain ⟨hfound,-⟩ := extract_eq_walk {} gaugeBytes hl hs (by decide)
  obtain ⟨p,hp,hspans⟩ := hfound [⟨0,some [7, 0]⟩, ⟨1,some [2, 109, 109]⟩] (by rfl)
  obtain ⟨f,sp,hf,hsp,hspan⟩ := hspans (.name "unit") (by simp)
  cases hf
  cases hsp
  exact ⟨hs,p,hp,congrArg (Except.map Prod.snd) hspan⟩

end Record
end RecordCodec
