import RecordCodec.Proofs.Admission
import RecordCodec.Proofs.CompatibleSpans

/-! # Walking to fields

The plain way to some fields of a record: over every mandatory field up to the last wanted one, and
over all of them and then over every filled slot if a compatible field is wanted. The walk tells where
each field on its way is, wanted or not.
-/
namespace RecordCodec

def Layout.places (l : Layout) (selectors : List Selector) : List Nat :=
  selectors.filterMap fun s => (l.field? s).map (·.index)

namespace Walk

open Extract (consumed passing filled missing)
open Read (Returns)

def fields : List FieldLayout → Read (List Span)
  | [] => pure []
  | f :: fs => do
    let bytes ← consumed f.descriptor.skip
    let spans ← fields fs
    pure (⟨f.index, some bytes⟩ :: spans)

def payloads : List Bool → Read (List (Option (List UInt8)))
  | [] => pure []
  | false :: slots => do
    let contents ← payloads slots
    pure (none :: contents)
  | true :: slots => do
    let bytes ← Read.take (← Read.length)
    let contents ← payloads slots
    pure (some bytes :: contents)

/-- The compatible fields with what their slots hold; a slot that is not there holds nothing. -/
def slotSpans : List FieldLayout → (contents : List (Option (List UInt8))) → List Span
  | [], _ => []
  | f :: fs, contents => ⟨f.index, contents.head?.join⟩ :: slotSpans fs contents.tail

/-- The mandatory fields on the way to the wanted ones. -/
def passed (l : Layout) (wanted : List Nat) : List FieldLayout :=
  l.mandatoryFields.filter fun f =>
    l.fields.any fun g => wanted.contains g.index && (g.isCompatible || f.index ≤ g.index)

def wantsSlot (l : Layout) (wanted : List Nat) : Bool :=
  l.compatibleFields.any fun f => wanted.contains f.index

/-- Walks to the wanted fields, and tells where the fields on the way are. -/
def spans (l : Layout) (wanted : List Nat) : Read (List Span) := do
  let slots ← Record.readHeader l
  let located ← fields (passed l wanted)
  if wantsSlot l wanted then
    let contents ← payloads slots.presence.slots
    pure (located ++ slotSpans l.compatibleFields contents)
  else pure located

/-! ## Mandatory fields -/

section Mandatory
variable {wanted : List Nat} {f : FieldLayout} {fs : List FieldLayout}

theorem fields_append (fs gs : List FieldLayout) :
    fields (fs ++ gs) = fields fs >>= fun a => fields gs >>= fun b => pure (a ++ b) := by
  induction fs with
  | nil => simp [fields]
  | cons f fs ih => simp [fields, ih]

theorem returns_fields (fs : List FieldLayout) :
    Returns (fields fs) fun spans =>
      spans.map (·.index) = fs.map (·.index) ∧ ∀ sp ∈ spans, sp.bytes.isSome = true := by
  induction fs with
  | nil => exact .pure ⟨rfl,by simp⟩
  | cons f fs ih =>
    refine .after _ fun b => ih.bind fun spans h => .pure ⟨?_,?_⟩
    · rw [List.map_cons, List.map_cons, h.1]
    · intro sp hsp
      rcases List.mem_cons.mp hsp with rfl | hsp
      · rfl
      · exact h.2 sp hsp

def located (wanted : List Nat) (fs : List FieldLayout) : Read (List Span) :=
  List.filter (fun sp => wanted.contains sp.index) <$> fields fs

theorem located_cons (wanted : List Nat) (f : FieldLayout) (fs : List FieldLayout) :
    located wanted (f :: fs) = passing wanted f (located wanted fs) := by
  simp only [located, fields, passing, map_bind, map_pure, bind_map_left, List.filter_cons]

theorem located_append (wanted : List Nat) (fs gs : List FieldLayout) :
    located wanted (fs ++ gs) =
      located wanted fs >>= fun a => located wanted gs >>= fun b => pure (a ++ b) := by
  simp only [located, fields_append, map_bind, map_pure, bind_map_left, List.filter_append]

end Mandatory

/-! ## Compatible fields -/

section Compatible
variable {wanted : List Nat}

def isFound (wanted : List Nat) (sp : Span) : Bool := wanted.contains sp.index && sp.bytes.isSome

def isMissing (wanted : List Nat) (sp : Span) : Bool := wanted.contains sp.index && sp.bytes.isNone

theorem slotSpans_nil (fs : List FieldLayout) :
    slotSpans fs [] = fs.map fun f => ⟨f.index,none⟩ := by
  induction fs with
  | nil => rfl
  | cons f fs ih => exact congrArg (_ :: ·) ih

theorem map_index_slotSpans (fs : List FieldLayout) (contents : List (Option (List UInt8))) :
    (slotSpans fs contents).map (·.index) = fs.map (·.index) := by
  induction fs generalizing contents with
  | nil => rfl
  | cons f fs ih => exact congrArg (f.index :: ·) (ih contents.tail)

theorem filled_eq (wanted : List Nat) (slots : List Bool) (fs : List FieldLayout) :
    filled wanted slots fs =
      (fun contents => (slotSpans fs contents).filter (isFound wanted)) <$> payloads slots := by
  induction slots generalizing fs with
  | nil =>
    have hnone : ((fs.map fun f => (⟨f.index,none⟩ : Span)).filter (isFound wanted)) = [] := by
      simp [isFound]
    simp only [filled, payloads, map_pure, slotSpans_nil, hnone]
  | cons present slots ih =>
    cases present with
    | false =>
      have htail (contents : List (Option (List UInt8))) :
          (slotSpans fs (none :: contents)).filter (isFound wanted) =
            (slotSpans fs.tail contents).filter (isFound wanted) := by
        cases fs with
        | nil => rfl
        | cons f fs => simp [slotSpans, isFound]
      simp only [filled, payloads, ih, map_eq_pure_bind, bind_assoc, pure_bind, htail]
    | true =>
      cases fs with
      | nil =>
        -- a payload of a later release
        simp only [filled, payloads, ih, map_bind, map_pure, slotSpans, List.tail_nil,
          List.head?_nil, bind_map_left]
      | cons f fs =>
        have hhead (b : List UInt8) (contents : List (Option (List UInt8))) :
            (slotSpans (f :: fs) (some b :: contents)).filter (isFound wanted) =
              if wanted.contains f.index then
                ⟨f.index,some b⟩ :: (slotSpans fs contents).filter (isFound wanted)
              else (slotSpans fs contents).filter (isFound wanted) := by
          simp [slotSpans, isFound, List.filter_cons]
        simp only [filled, payloads, ih, map_bind, map_pure, hhead, List.tail_cons,
          List.head?_cons, bind_map_left]

theorem isMissing_eq (wanted : List Nat) (sp : Span) :
    isMissing wanted sp = (wanted.contains sp.index && !isFound wanted sp) := by
  unfold isMissing isFound
  cases wanted.contains sp.index <;> cases sp.bytes <;> rfl

theorem missing_eq {fs : List FieldLayout} {contents : List (Option (List UInt8))}
    {found : List Span}
    (h : ∀ sp ∈ slotSpans fs contents, found.any (·.index == sp.index) = isFound wanted sp) :
    (missing wanted fs found).map (fun f => (⟨f.index,none⟩ : Span)) =
      (slotSpans fs contents).filter (isMissing wanted) := by
  induction fs generalizing contents with
  | nil => rfl
  | cons f fs ih =>
    let c : Span := ⟨f.index,contents.head?.join⟩
    have hi := ih fun sp hsp => h sp (List.mem_cons_of_mem c hsp)
    have hf : (wanted.contains f.index && !found.any (·.index == f.index)) = isMissing wanted c := by
      rw [isMissing_eq, ← h c List.mem_cons_self]
    change ((f :: fs).filter fun f => wanted.contains f.index && !found.any (·.index == f.index)).map
      _ = (c :: slotSpans fs contents.tail).filter (isMissing wanted)
    rw [List.filter_cons, List.filter_cons, hf, ← hi]
    by_cases hc : isMissing wanted c = true
    · have hnone : c.bytes = none := Option.isNone_iff_eq_none.mp (Bool.and_eq_true_iff.mp hc).2
      rw [if_pos hc, if_pos hc, List.map_cons, ← hnone]
      rfl
    · rw [if_neg hc, if_neg hc]
      rfl

/-- Of spans of different fields, those are found that hold their bytes. -/
theorem any_isFound {spans : List Span} (h : (spans.map (·.index)).Nodup) {sp : Span}
    (hsp : sp ∈ spans) :
    (spans.filter (isFound wanted)).any (·.index == sp.index) = isFound wanted sp := by
  by_cases hf : isFound wanted sp = true
  · rw [hf, List.any_eq_true]
    exact ⟨sp,List.mem_filter.mpr ⟨hsp,hf⟩,beq_self_eq_true _⟩
  · rw [Bool.eq_false_iff.mpr hf, List.any_eq_false]
    intro sp' hsp' hi
    obtain ⟨hmem,hf'⟩ := List.mem_filter.mp hsp'
    have he : sp' = sp := List.inj_on_of_nodup_map h hmem hsp (beq_iff_eq.mp hi)
    exact hf (he ▸ hf')

/-- The wanted ones of some spans, those without bytes last. -/
def arranged (wanted : List Nat) (spans : List Span) : List Span :=
  spans.filter (isFound wanted) ++ spans.filter (isMissing wanted)

end Compatible

end Walk
end RecordCodec
