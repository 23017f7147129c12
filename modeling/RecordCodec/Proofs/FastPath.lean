import RecordCodec.Proofs.Agreement
import RecordCodec.Proofs.PartialReading
import RecordCodec.Proofs.Walk

/-! # The fast path to fields agrees with the walk

A reader that looks for fields leaves those of fixed widths unpassed and makes up for it by a later
seek to an offset. As long as no offset on the way leaves the address space, it finds what the plain
walk finds, and fails as the walk does.
-/
namespace RecordCodec

namespace FieldLayout

def widths : List FieldLayout → Nat
  | [] => 0
  | f :: fs => f.descriptor.fixedWidth.getD 0 + widths fs

theorem widths_cons (f : FieldLayout) (fs : List FieldLayout) :
    widths (f :: fs) = f.descriptor.fixedWidth.getD 0 + widths fs := rfl

theorem widths_le_of_sublist {fs gs : List FieldLayout} (h : fs.Sublist gs) :
    widths fs ≤ widths gs := by
  induction h with
  | slnil => exact Nat.le_refl 0
  | cons f _ ih => exact Nat.le_trans ih (Nat.le_add_left _ _)
  | cons_cons f _ ih => exact Nat.add_le_add_left ih _

end FieldLayout

namespace Extract

open FieldLayout (widths)
open Read (Agree seek)
open Walk (located)

variable {wanted : List Nat} {start : Nat} {offset : Option Nat} {f z : FieldLayout}
  {fs gs : List FieldLayout} {r s : Reader}

def behind (offset : Option Nat) (fs : List FieldLayout) : Option Nat :=
  fs.foldl (fun offset f => offsetBehind offset f.descriptor) offset

/-- Each field has the offset that follows from those before it. -/
def Planned : Option Nat → List FieldLayout → Prop
  | _, [] => True
  | offset, f :: fs => f.offset = offset ∧ Planned (offsetBehind offset f.descriptor) fs

/-- The end of fields that begin at an offset lies within the address space. -/
def Addressable (start : Nat) (offset : Option Nat) (fs : List FieldLayout) : Prop :=
  ∀ n, offset = some n → start + n + widths fs < addressSpace

def catchUp (start : Nat) : Option Nat → Read Unit
  | some offset => seek (start + offset)
  | none => pure ()

theorem planned_append :
    Planned offset (fs ++ gs) ↔ Planned offset fs ∧ Planned (behind offset fs) gs := by
  induction fs generalizing offset with
  | nil => exact (true_and _).symm ▸ Iff.rfl
  | cons f fs ih =>
    change (_ ∧ Planned _ (fs ++ gs)) ↔ (_ ∧ Planned _ fs) ∧ _
    rw [ih, and_assoc]
    rfl

theorem planned_mandatoryPlan (fs : List FieldDescriptor) (index slot : Nat)
    (offset : Option Nat) : Planned offset (mandatoryPlan index offset slot fs) := by
  induction fs generalizing index slot offset with
  | nil => trivial
  | cons d fs ih =>
    obtain ⟨name,shape,version⟩ := d
    cases version with
    | none => exact ⟨rfl,ih ..⟩
    | some version => exact ih ..

theorem offsetBehind_eq_some {n : Nat} {shape : Descriptor} (h : offsetBehind offset shape = some n) :
    ∃ m w, offset = some m ∧ shape.fixedWidth = some w ∧ n = m + w := by
  obtain ⟨m,hm,h⟩ := Option.bind_eq_some_iff.mp h
  obtain ⟨w,hw,h⟩ := Option.bind_eq_some_iff.mp h
  obtain ⟨-,rfl⟩ := checked_eq_some.mp h
  exact ⟨m,w,hm,hw,rfl⟩

theorem offsetBehind_of_lt {n w : Nat} {shape : Descriptor} (hw : shape.fixedWidth = some w)
    (h : n + w < addressSpace) : offsetBehind (some n) shape = some (n + w) := by
  change (shape.fixedWidth.bind fun w => checked (n + w)) = _
  rw [hw]
  exact checked_eq_some.mpr ⟨h,rfl⟩

theorem Addressable.tail (h : Addressable start offset (f :: fs)) :
    Addressable start (offsetBehind offset f.descriptor) fs := by
  intro n hn
  obtain ⟨m,w,hm,hw,rfl⟩ := offsetBehind_eq_some hn
  have hlt := h m hm
  rw [FieldLayout.widths_cons, hw, Option.getD_some] at hlt
  omega

theorem Addressable.lt (h : Addressable start offset fs) {n : Nat} (hn : offset = some n) :
    start + n < addressSpace := Nat.lt_of_le_of_lt (Nat.le_add_right _ _) (h n hn)

theorem Addressable.behind (h : Addressable start offset fs) :
    Addressable start (behind offset fs) [] := by
  induction fs generalizing offset with
  | nil => exact h
  | cons f fs ih => exact ih h.tail

theorem catchUp_of_at (h : At start offset r) : catchUp start offset r = .ok () r := by
  cases offset with
  | none => rfl
  | some n =>
    change seek (start + n) r = _
    rw [h n rfl]
    exact Read.seek_position rfl rfl

theorem catchUp_start (r : Reader) : catchUp r.position (some 0) r = .ok () r :=
  catchUp_of_at (.zero r)

/-! ## Passing fields -/

theorem agree_passing {later later' : Read (List Span)}
    (h : ∀ s, f.descriptor.skip r = .ok () s → Agree s later later') :
    Agree r (passing wanted f later) (passing wanted f later') :=
  .bind_right _ fun _ s hs =>
    (h s (consumed_eq_ok f.descriptor.local_skip hs).1).bind_left _

theorem passing_bind (later : Read (List Span)) (next : Read Unit) :
    (passing wanted f later >>= fun spans => next >>= fun _ => pure spans) =
      passing wanted f (later >>= fun spans => next >>= fun _ => pure spans) := by
  simp only [passing, bind_assoc, pure_bind]

theorem passing_append (later next : Read (List Span)) :
    (passing wanted f later >>= fun a => next >>= fun b => pure (a ++ b)) =
      passing wanted f (later >>= fun a => next >>= fun b => pure (a ++ b)) := by
  simp only [passing, bind_assoc, pure_bind]
  by_cases hw : wanted.contains f.index = true
  · simp only [hw, ↓reduceIte, List.cons_append]
  · simp only [hw, Bool.false_eq_true, ↓reduceIte]

theorem consumed_bind {α : Type} (op : Read Unit) (k : Read α) (r : Reader) :
    (consumed op >>= fun _ => k) r = (op >>= fun _ => k) r := by
  have hc : consumed op r = (op >>= fun _ => Read.position >>= fun stop =>
      pure (r.rest.take (stop - r.position))) r := rfl
  cases h : op r with
  | ok _ s =>
    rw [EStateM.bind_of_ok _ h] at hc
    rw [EStateM.bind_of_ok _ h, EStateM.bind_of_ok _ hc]
  | error e s =>
    rw [EStateM.bind_of_error _ h] at hc
    rw [EStateM.bind_of_error _ h, EStateM.bind_of_error _ hc]

theorem passing_of_unwanted (h : wanted.contains f.index = false) (later : Read (List Span)) :
    passing wanted f later = consumed f.descriptor.skip >>= fun _ => later := by
  simp only [passing, h, Bool.false_eq_true, ↓reduceIte, bind_pure]

abbrev mandatoryAll (wanted : List Nat) (start : Nat) (fs : List FieldLayout) : Read (List Span) :=
  mandatory wanted start none true fs

theorem mandatoryAll_cons (wanted : List Nat) (start : Nat) (f : FieldLayout)
    (fs : List FieldLayout) :
    mandatoryAll wanted start (f :: fs) =
      match f.offset with
      | some offset =>
        if (!wanted.contains f.index && f.descriptor.fixedWidth.isSome) = true then
          mandatoryAll wanted start fs
        else seek (address start offset) >>= fun _ => passing wanted f (mandatoryAll wanted start fs)
      | none => passing wanted f (mandatoryAll wanted start fs) := rfl

/-- Locating the wanted fields and going to the end of them all agrees with going to where they begin
and walking over them. -/
theorem mandatory_agrees (wanted : List Nat) (hp : Planned offset fs)
    (ha : Addressable start offset fs) (r : Reader) :
    Agree r
      (mandatoryAll wanted start fs >>= fun spans =>
        catchUp start (behind offset fs) >>= fun _ => pure spans)
      (catchUp start offset >>= fun _ => located wanted fs) := by
  -- what is left unpassed is made up for by the next field that is passed, or by the seek at the end
  induction fs generalizing offset r with
  | nil => exact .refl r _
  | cons f fs ih =>
    obtain ⟨rfl,hp⟩ := hp
    have hlater (u : Reader) := ih hp ha.tail u
    rw [Walk.located_cons, mandatoryAll_cons]
    have hpass (s : Reader) (hs : At start f.offset s) :
        Agree s
          (passing wanted f (mandatoryAll wanted start fs) >>= fun spans =>
            catchUp start (behind f.offset (f :: fs)) >>= fun _ => pure spans)
          (passing wanted f (located wanted fs)) := by
      rw [passing_bind]
      refine agree_passing fun u hu => (hlater u).trans ?_
      exact .of_stays (catchUp_of_at (hs.behind hu)) _
    cases ho : f.offset with
    | none =>
      rw [ho] at hpass
      refine hpass r ?_
      rintro n ⟨⟩
    | some n =>
      rw [ho] at hpass hlater ha
      by_cases hlazy : (!wanted.contains f.index && f.descriptor.fixedWidth.isSome) = true
      · dsimp only
        rw [if_pos hlazy]
        rw [Bool.and_eq_true, Bool.not_eq_true'] at hlazy
        obtain ⟨w,hw⟩ := Option.isSome_iff_exists.mp hlazy.2
        have hlt : n + w < addressSpace := by
          have h := ha n rfl
          rw [FieldLayout.widths_cons, hw, Option.getD_some] at h
          omega
        have hb : behind (some n) (f :: fs) = behind (some (n + w)) fs :=
          congrArg (behind · fs) (offsetBehind_of_lt hw hlt)
        have hl := hlater r
        rw [offsetBehind_of_lt hw hlt] at hl
        have hk := Read.agree_seek_take r (start + n) w (located wanted fs)
        rw [Nat.add_assoc] at hk
        rw [hb]
        refine (hl.trans hk).trans (.bind_right _ fun _ s _ => .of_eq ?_)
        rw [passing_of_unwanted hlazy.1, consumed_bind, Descriptor.skip_of_fixedWidth hw,
          bind_assoc]
        rfl
      · dsimp only
        rw [if_neg hlazy, address_eq (ha.lt rfl), bind_assoc]
        refine .bind_right _ fun _ s hs => hpass s ?_
        rintro m ⟨⟩
        exact (Read.seek_eq_ok hs).1.symm

theorem mandatoryAll_append (wanted : List Nat) (start : Nat) (fs gs : List FieldLayout) :
    mandatoryAll wanted start (fs ++ gs) =
      mandatoryAll wanted start fs >>= fun a =>
        mandatoryAll wanted start gs >>= fun b => pure (a ++ b) := by
  induction fs with
  | nil => exact (bind_pure _).symm
  | cons f fs ih =>
    rw [List.cons_append, mandatoryAll_cons, mandatoryAll_cons, ih]
    cases f.offset with
    | none => exact (passing_append _ _).symm
    | some n =>
      by_cases hlazy : (!wanted.contains f.index && f.descriptor.fixedWidth.isSome) = true
      · dsimp only
        rw [if_pos hlazy, if_pos hlazy]
      · dsimp only
        rw [if_neg hlazy, if_neg hlazy, bind_assoc]
        exact congrArg _ (funext fun _ => (passing_append _ _).symm)

/-- Up to a wanted field nothing is left to make up for. -/
theorem mandatory_agrees_of_wanted (hz : wanted.contains z.index = true)
    (hp : Planned offset (fs ++ [z])) (ha : Addressable start offset fs) (r : Reader) :
    Agree r (mandatoryAll wanted start (fs ++ [z]))
      (catchUp start offset >>= fun _ => located wanted (fs ++ [z])) := by
  obtain ⟨hfs,hzo,-⟩ := planned_append.mp hp
  have hlast : mandatoryAll wanted start [z] =
      catchUp start (behind offset fs) >>= fun _ => located wanted [z] := by
    rw [mandatoryAll_cons, Walk.located_cons, ← hzo]
    cases ho : z.offset with
    | none => rfl
    | some n =>
      dsimp only
      rw [hz, address_eq (ha.behind.lt (hzo.symm.trans ho))]
      rfl
  rw [mandatoryAll_append, Walk.located_append, hlast]
  have h := (mandatory_agrees wanted hfs ha r).bind_left fun a =>
    located wanted [z] >>= fun b => pure (a ++ b)
  simpa only [bind_assoc, pure_bind] using h

def stops (last : Option Nat) (passAll : Bool) (f : FieldLayout) : Bool :=
  !passAll && last.all (· < f.index)

theorem stops_of_lt {last : Option Nat} {passAll : Bool} (h : f.index < z.index)
    (hf : stops last passAll f = true) : stops last passAll z = true := by
  obtain ⟨hp,hl⟩ := Bool.and_eq_true_iff.mp hf
  refine Bool.and_eq_true_iff.mpr ⟨hp,(Option.all_eq_true _ _).mpr fun n hn => ?_⟩
  have hn := of_decide_eq_true ((Option.all_eq_true _ _).mp hl n hn)
  exact decide_eq_true (hn.trans h)

/-- The reader comes to all fields up to the first before which it stops. -/
theorem mandatory_eq_all (wanted : List Nat) (start : Nat) (last : Option Nat) (passAll : Bool)
    (h : fs.Pairwise fun f g => f.index < g.index) :
    mandatory wanted start last passAll fs =
      mandatoryAll wanted start (fs.filter fun f => !stops last passAll f) := by
  induction fs with
  | nil => rfl
  | cons f fs ih =>
    obtain ⟨hf,hfs⟩ := List.pairwise_cons.mp h
    rw [mandatory_cons]
    change (if stops last passAll f = true then pure [] else _) = _
    cases hstop : stops last passAll f with
    | true =>
      have hnone : (f :: fs).filter (fun f => !stops last passAll f) = [] := by
        refine List.filter_eq_nil_iff.mpr fun g hg => ?_
        rcases List.mem_cons.mp hg with rfl | hg
        · simp [hstop]
        · simp [stops_of_lt (hf g hg) hstop]
      rw [hnone]
      rfl
    | false =>
      rw [List.filter_cons_of_pos (by simp [hstop]), mandatoryAll_cons, ih hfs]
      rfl

theorem endOffset_eq_behind (hp : Planned offset fs) (ha : Addressable start offset fs)
    (hfs : fs ≠ []) : endOffset fs = behind offset fs := by
  induction fs generalizing offset with
  | nil => exact (hfs rfl).elim
  | cons f fs ih =>
    obtain ⟨rfl,hp⟩ := hp
    by_cases hn : fs = []
    · subst hn
      change (f.offset.bind fun n => f.descriptor.fixedWidth.bind fun w => some (n + w)) =
        offsetBehind f.offset f.descriptor
      cases ho : f.offset with
      | none => rfl
      | some n =>
        cases hw : f.descriptor.fixedWidth with
        | none =>
          change none = f.descriptor.fixedWidth.bind _
          rw [hw]
          rfl
        | some w =>
          have hlt := ha n ho
          rw [FieldLayout.widths_cons, hw, Option.getD_some] at hlt
          rw [offsetBehind_of_lt hw (by omega)]
          rfl
    · rw [endOffset_cons f hn]
      exact ih hp ha.tail hn

end Extract
end RecordCodec
