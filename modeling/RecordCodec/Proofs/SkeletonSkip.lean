import RecordCodec.Proofs.RoundTrip
import RecordCodec.Proofs.Skeleton
import RecordCodec.Proofs.Skipping

/-! # Values are stepped over by their skeletons

How a value is stepped over is a matter of its type's skeleton: the names of the type, and the
compatible fields in it, have no part in it. So all releases of a type step over a value alike, and
what they tell of bytes that stand for none differs in the name of a type at most.
-/
namespace RecordCodec

/-- An error without the name of the type that has no such alternative. -/
def Error.unnamed : Error → Error
  | .invalidData (.discriminant index _ alternatives) =>
    .invalidData (.discriminant index "" alternatives)
  | e => e

namespace Read

variable {α β : Type} {x y z : Read α} {f g : α → Read β}

/-- Wherever the operations start, they come to the same place, with the same value, or with errors
that differ in the name of a type at most. -/
def Akin (x y : Read α) : Prop :=
  ∀ r, Corresponds Eq (fun e e' => e.unnamed = e'.unnamed) (x r) (y r)

theorem Akin.refl (x : Read α) : Akin x x := by
  intro r
  cases x r with
  | ok a s => exact .ok a rfl
  | error e s => exact .error rfl rfl

theorem Akin.symm (h : Akin x y) : Akin y x := by
  intro r
  have hr := h r
  generalize x r = p, y r = q at hr
  cases hr with
  | ok a hs => exact .ok a hs.symm
  | error hs he => exact .error hs.symm he.symm

theorem Akin.trans (h : Akin x y) (k : Akin y z) : Akin x z := by
  intro r
  have hr := h r
  have kr := k r
  generalize x r = p, y r = q, z r = o at hr kr
  cases hr with
  | ok a hs =>
    cases kr with
    | ok _ ks => exact .ok a (hs.trans ks)
  | error hs he =>
    cases kr with
    | error ks ke => exact .error (hs.trans ks) (he.trans ke)

theorem Akin.bind (h : Akin x y) (k : ∀ a, Akin (f a) (g a)) : Akin (x >>= f) (y >>= g) :=
  fun r => (h r).bind fun a s _ hs => hs ▸ k a s

theorem Akin.after (x : Read α) (k : ∀ a, Akin (f a) (g a)) : Akin (x >>= f) (x >>= g) :=
  (Akin.refl x).bind k

theorem Akin.ite {p : Prop} [Decidable p] {x' y' : Read α} (h : Akin x y) (k : Akin x' y') :
    Akin (if p then x else x') (if p then y else y') := by
  by_cases hp : p
  · rwa [if_pos hp, if_pos hp]
  · rwa [if_neg hp, if_neg hp]

theorem Akin.times {x y : Read Unit} (h : Akin x y) (n : Nat) : Akin (times n x) (times n y) := by
  induction n with
  | zero => exact .refl _
  | succ n ih => exact h.bind fun _ => ih

/-- A success of the one operation is the same success of the other. -/
theorem Akin.eq_ok (h : Akin x y) {r s : Reader} {a : α} (hx : x r = .ok a s) : y r = .ok a s := by
  have hr := h r
  rw [hx] at hr
  generalize y r = q at hr
  cases hr with
  | ok _ hs => rw [hs]

theorem Steps.akin {y z : Read Unit} (h : Steps x y) (k : Akin y z) : Steps x z :=
  fun r a s hr hs => k.eq_ok (h r a s hr hs)

end Read

namespace Descriptor

open Read (Akin)

variable {x y : Read Unit}

theorem akin_passOr {width width' : Option Nat} (hw : width = width') (h : Akin x y) :
    Akin (passOr width x) (passOr width' y) := by
  subst hw
  cases width with
  | none => exact h
  | some w => exact .refl _

theorem akin_passRun {width width' : Option Nat} (hw : width = width') (n : Nat) (h : Akin x y) :
    Akin (passRun width n x) (passRun width' n y) := by
  subst hw
  cases width with
  | none => exact h.times n
  | some w => exact .refl _

end Descriptor

namespace Skeleton

open Descriptor (passOr passRun)

mutual

/-- The number of bytes that every value takes, where it is the same for all and fits the address
space. -/
def fixedWidth : Skeleton → Option Nat
  | unit => some 0
  | scalar s => some s.width
  | array t n => do checked ((← t.fixedWidth) * n)
  | aggregate fs false => allWidth 0 fs
  | aggregate _ true | text | sequence _ | set _ | map .. | optional _ | variant _ => none
termination_by structural t => t

/-- The number of bytes that `start` bytes and every mandatory field behind them take. -/
def allWidth (start : Nat) : List Skeleton → Option Nat
  | [] => some start
  | t :: ts => do
    let width ← t.fixedWidth
    allWidth (← checked (start + width)) ts
termination_by structural ts => ts

end

mutual

/-- Steps over a value inside another. -/
def skip : Skeleton → Read Unit
  | unit => do let _ ← Read.take 0
  | scalar s => do let _ ← Read.take s.width
  | text => do let _ ← Read.take (← Read.length)
  | sequence t | set t => do passRun t.fixedWidth (← Read.length) t.skip
  | map k v => do
    Read.times (← Read.length) do
      k.skip
      v.skip
  | array t n => passOr (array t n).fixedWidth (passRun t.fixedWidth n t.skip)
  | optional t => do
    if ← Read.bool then t.skip
  | variant as => do
    let index ← Read.discriminant as.length
    skipAlternative as index (Read.fault (.discriminant index "" as.length))
  | aggregate fs extensible =>
    passOr (aggregate fs extensible).fixedWidth do
      let slots ← Slots.start extensible
      skipAll fs
      slots.finish
termination_by structural t => t

/-- Steps over mandatory fields. -/
def skipAll : List Skeleton → Read Unit
  | [] => pure ()
  | t :: ts => do
    t.skip
    skipAll ts
termination_by structural ts => ts

/-- Steps over the fields of the alternative at `index`, or fails as told if there is none. -/
def skipAlternative : List (List Skeleton) → (index : Nat) → Read Unit → Read Unit
  | [], _, missing => missing
  | fs :: _, 0, _ => skipAll fs
  | _ :: as, index + 1, missing => skipAlternative as index missing
termination_by structural as => as

end

end Skeleton

namespace Schema

open Descriptor (fieldSkeletons alternativeSkeletons skipMandatory skipPayload skipAlternative
  fieldsWidth akin_passOr akin_passRun)
open Read (Akin)

theorem fixedWidth_tuple (ts : List Schema) :
    (tuple ts).shape.fixedWidth = fieldsWidth 0 (componentShapes 0 ts) := by
  have h := anyCompatible_componentShapes 0 ts
  change (if false || Descriptor.anyCompatible (componentShapes 0 ts) then none
    else fieldsWidth 0 (componentShapes 0 ts)) = _
  rw [h]
  rfl

mutual

/-- The width of a value is a matter of the skeleton. -/
theorem fixedWidth_skeleton : ∀ t : Schema, t.shape.skeleton.fixedWidth = t.shape.fixedWidth
  | unit | scalar _ | text | duration | sequence _ | set _ | map .. | option _ | struct ..
  | enum .. | reference _ => rfl
  | array t n => congrArg (fun w => do checked ((← w) * n)) (fixedWidth_skeleton t)
  | pointer _ t | compatible t _ | named _ t => fixedWidth_skeleton t
  | tuple ts => by
    rw [fixedWidth_tuple]
    exact allWidth_skeletons 0 0 ts

theorem allWidth_skeletons : ∀ (start index : Nat) (ts : List Schema),
    Skeleton.allWidth start (fieldSkeletons (componentShapes index ts)) =
      fieldsWidth start (componentShapes index ts)
  | _, _, [] => rfl
  | start, index, t :: ts => by
    change (t.shape.skeleton.fixedWidth >>= fun width => checked (start + width) >>= fun next =>
        Skeleton.allWidth next (fieldSkeletons (componentShapes (index + 1) ts))) =
      (t.shape.fixedWidth >>= fun width => checked (start + width) >>= fun next =>
        fieldsWidth next (componentShapes (index + 1) ts))
    rw [fixedWidth_skeleton t]
    refine congrArg _ (funext fun width => congrArg _ (funext fun next => ?_))
    exact allWidth_skeletons next (index + 1) ts

end

mutual

/-- A value is stepped over by the skeleton of its type. -/
theorem akin_skip : ∀ t : Schema, t.WellFormed → Akin t.shape.skip t.shape.skeleton.skip
  | unit, _ | scalar _, _ | text, _ | duration, _ => .refl _
  | sequence t, hw | set t, hw =>
    .after Read.length fun n => akin_passRun (fixedWidth_skeleton t).symm n (akin_skip t hw)
  | map k v, hw =>
    .after Read.length fun n => ((akin_skip k hw.1).bind fun _ => akin_skip v hw.2).times n
  | array t n, hw =>
    akin_passOr (fixedWidth_skeleton (array t n)).symm
      (akin_passRun (fixedWidth_skeleton t).symm n (akin_skip t hw))
  | option t, hw => .after Read.bool fun _ => .ite (akin_skip t hw) (.refl _)
  | tuple ts, hw =>
    akin_passOr (fixedWidth_skeleton (tuple ts)).symm (.after (Slots.start false) fun slots =>
      (akin_skipComponents 0 ts hw).bind fun _ => .refl slots.finish)
  | pointer _ t, hw | named _ t, hw => akin_skip t hw
  | compatible .., hw | reference _, hw => hw.elim
  | struct _ _ fields, hw =>
    .after (Slots.start true) fun slots =>
      (akin_skipFields fields hw.2.2).bind fun _ => .refl slots.finish
  | enum typeName _ alternatives, hw => by
    have hl := Descriptor.length_alternativeSkeletons (alternativeShapes alternatives)
    change Akin _ (Read.discriminant (alternativeSkeletons (alternativeShapes alternatives)).length
      >>= _)
    rw [hl]
    -- without such an alternative, the error names the type, which the skeleton does not
    refine .after _ fun i => akin_skipAlternative alternatives i hw.2 ?_
    exact fun r => .error rfl rfl

theorem akin_skipComponents : ∀ (index : Nat) (ts : List Schema), AllWellFormed ts →
    Akin (skipMandatory (componentShapes index ts))
      (Skeleton.skipAll (fieldSkeletons (componentShapes index ts)))
  | _, [], _ => .refl _
  | index, t :: ts, hw => (akin_skip t hw.1).bind fun _ => akin_skipComponents (index + 1) ts hw.2

theorem akin_skipFields : ∀ fs : List Field, FieldsWellFormed fs →
    Akin (skipMandatory (fieldShapes fs)) (Skeleton.skipAll (fieldSkeletons (fieldShapes fs)))
  | [], _ => .refl _
  | .mandatory _ t :: fs, hw => (akin_skip t hw.1).bind fun _ => akin_skipFields fs hw.2
  | .compatible .. :: fs, hw => akin_skipFields fs hw.2
  | .skipped .. :: fs, hw => akin_skipFields fs hw

theorem akin_skipPayload : ∀ fs : List Field, Field.slotSchemas fs = [] → FieldsWellFormed fs →
    Akin (skipPayload (fieldShapes fs)) (Skeleton.skipAll (fieldSkeletons (fieldShapes fs)))
  | [], _, _ => .refl _
  | .mandatory _ t :: fs, hs, hw => (akin_skip t hw.1).bind fun _ => akin_skipPayload fs hs hw.2
  | .compatible .. :: _, hs, _ => by cases hs
  | .skipped .. :: fs, hs, hw => akin_skipPayload fs hs hw

theorem akin_skipAlternative : ∀ (as : List Alternative) (i : Nat) {x y : Read Unit},
    AlternativesWellFormed as → Akin x y →
      Akin (skipAlternative (alternativeShapes as) i x)
        (Skeleton.skipAlternative (alternativeSkeletons (alternativeShapes as)) i y)
  | [], _, _, _, _, h => h
  | .mk _ _ fields :: _, 0, _, _, hw, _ => akin_skipPayload fields hw.1 hw.2.1
  | .mk .. :: as, i + 1, _, _, hw, h => akin_skipAlternative as i hw.2.2 h

end

theorem akin_skip_of_literal_eq {t u : Schema} (ht : t.WellFormed) (hu : u.WellFormed)
    (hta : t.Addressable) (hua : u.Addressable) (h : t.shape.literal = u.shape.literal) :
    Akin t.shape.skip u.shape.skip := by
  have hk : t.shape.skeleton = u.shape.skeleton := by
    rw [Descriptor.literal_eq_skeleton, Descriptor.literal_eq_skeleton] at h
    exact (Skeleton.literal_inj (t.addressable_skeleton ht hta) (u.addressable_skeleton hu hua)).mp h
  have hs := akin_skip t ht
  rw [hk] at hs
  exact hs.trans (akin_skip u hu).symm

end Schema

namespace Descriptor

/-- Types with the same literal, and releases of one type have it, are stepped over alike: to the
same place, or up to the same error at the same place, but for the name of the type that has no such
alternative. -/
theorem skip_of_literal_eq {t u : Schema} {e e' f f' : List String} {c d : Descriptor}
    (ht : t.describe e = .ok c e') (hu : u.describe f = .ok d f') (hta : t.Addressable)
    (hua : u.Addressable) (hl : c.literal = d.literal ∨ t.related u = true) (r : Reader) :
    (∃ s, c.skip r = .ok () s ∧ d.skip r = .ok () s) ∨
      ∃ x y s, c.skip r = .error x s ∧ d.skip r = .error y s ∧ x.unnamed = y.unnamed := by
  obtain ⟨rfl,htw,-⟩ := t.describe_eq_ok ht
  obtain ⟨rfl,huw,-⟩ := u.describe_eq_ok hu
  have hlit : t.shape.literal = u.shape.literal := by
    rcases hl with hl | hl
    · exact hl
    · exact Schema.literal_eq_of_related t u hl
  have h := Schema.akin_skip_of_literal_eq htw huw hta hua hlit r
  generalize t.shape.skip r = p, u.shape.skip r = q at h
  cases h with
  | ok _ hs =>
    subst hs
    exact .inl ⟨_,rfl,rfl⟩
  | error hs he =>
    subst hs
    exact .inr ⟨_,_,_,rfl,rfl,he⟩

/-- Lamps that are off or glow at some level, under some name, with the fields of later releases. -/
def lamps (name : String) (later : List Field) : Schema :=
  .sequence (.struct "Lamp" .named (.mandatory "state" (.enum name name
    [.mk "Off" .unit [], .mk "On" .positional [.mandatory "0" (.scalar .u16)]]) :: later))

theorem addressable_lamps {name : String} {later : List Field}
    (h : Schema.FieldsAddressable later) : (lamps name later).Addressable :=
  ⟨⟨trivial,⟨trivial,trivial⟩,trivial⟩,h⟩

/-- A lamp that is on, with a filled slot, and one that is off, without slots. -/
def lampBytes : List UInt8 := [2, 1, 1, 1, 44, 1, 2, 7, 7, 0, 0]

/-- A lamp in a sixth state. -/
def strayBytes : List UInt8 := [1, 0, 5]

theorem skip_lamps :
    let later := [Field.compatible "colour" 1 (.scalar .u16), .compatible "note" 2 .text]
    (∃ s, (lamps "State" []).shape.skip (.ofBytes {} lampBytes) = .ok () s ∧
      (lamps "Glow" later).shape.skip (.ofBytes {} lampBytes) = .ok () s ∧ s.remaining = 0) ∧
    ∃ s, (lamps "State" []).shape.skip (.ofBytes {} strayBytes) =
        .error (.invalidData (.discriminant 5 "State" 2)) s ∧
      (lamps "Glow" later).shape.skip (.ofBytes {} strayBytes) =
        .error (.invalidData (.discriminant 5 "Glow" 2)) s := by
  intro later
  have hold : (lamps "State" []).Addressable := addressable_lamps trivial
  have hnew : (lamps "Glow" later).Addressable := addressable_lamps ⟨trivial,trivial,trivial⟩
  have halike := skip_of_literal_eq (e := []) (f := []) (c := (lamps "State" []).shape)
    (d := (lamps "Glow" later).shape) rfl rfl hold hnew (.inr rfl)
  constructor
  · obtain ⟨s,hs⟩ : ∃ s, (lamps "State" []).shape.skip (.ofBytes {} lampBytes) = .ok () s ∧
      s.remaining = 0 := ⟨_,rfl,rfl⟩
    rcases halike (.ofBytes {} lampBytes) with ⟨s',hc,hd⟩ | ⟨x,y,s',hc,-⟩
    · rw [hs.1] at hc
      cases hc
      exact ⟨s,hs.1,hd,hs.2⟩
    · rw [hs.1] at hc
      cases hc
  · obtain ⟨s,hs⟩ : ∃ s, (lamps "State" []).shape.skip (.ofBytes {} strayBytes) =
      .error (.invalidData (.discriminant 5 "State" 2)) s := ⟨_,rfl⟩
    obtain ⟨s',hs'⟩ : ∃ s, (lamps "Glow" later).shape.skip (.ofBytes {} strayBytes) =
      .error (.invalidData (.discriminant 5 "Glow" 2)) s := ⟨_,rfl⟩
    rcases halike (.ofBytes {} strayBytes) with ⟨_,hc,-⟩ | ⟨x,y,u,hc,hd,-⟩
    · rw [hs] at hc
      cases hc
    · rw [hs] at hc
      rw [hs'] at hd
      cases hc
      cases hd
      exact ⟨_,hs,hs'⟩

end Descriptor
end RecordCodec
