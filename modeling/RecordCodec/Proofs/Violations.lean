import RecordCodec.Schema.Family
import RecordCodec.Proofs.Shape
import Mathlib.Logic.Relation

/-! # Valid types

A type is valid if nothing that encloses its parts is met again among them, and every type in it
keeps the rules for compatible fields and alternatives. A walk through a family of declared types,
depth first and in the order of declaration, tells every violation; it turns back where it meets a
type inside itself. The valid types are those where such a walk finds nothing.
-/
namespace RecordCodec

open Relation (ReflTransGen TransGen)

/-- What is found against a type: that it is met inside itself, or what is wrong with its shape. -/
inductive Violation where
  | reentry (typeName : String)
  | misshaped (typeName : String) (fault : ShapeFault)

def Violation.error : Violation → Error
  | reentry typeName => .cyclicType typeName
  | misshaped typeName fault => .invalidShape typeName fault

/-- Where a walk stops: at a type, which it walks through, or at a fault of the type around. -/
inductive Stop where
  | type (t : Schema)
  | fault (typeName : String) (fault : ShapeFault)

namespace Field

def versions : List Field → List Nat
  | [] => []
  | compatible _ version _ :: fs => version :: versions fs
  | mandatory .. :: fs | skipped .. :: fs => versions fs

/-- What is wrong with a field behind compatible fields of the versions `before`; only the fields of
a struct have slots. -/
def fault? (slotted : Bool) (before : List Nat) : Field → Option ShapeFault
  | mandatory name _ => if before = [] then none else some (.late name)
  | compatible name version _ =>
    if slotted = false then some (.inAlternative name)
    else if version < before.getLastD 0 then
      some (.decreasing name version (before.getLastD 0))
    else if maxSlots ≤ before.length then some .crowded
    else none
  | skipped .. => none

def stops (owner : String) (slotted : Bool) (before : List Nat) : List Field → List Stop
  | [] => []
  | mandatory name t :: fs =>
    .type t :: (((mandatory name t).fault? slotted before).map (.fault owner)).toList ++
      stops owner slotted before fs
  | compatible name version t :: fs =>
    .type t :: (((compatible name version t).fault? slotted before).map (.fault owner)).toList ++
      stops owner slotted (before ++ [version]) fs
  | skipped .. :: fs => stops owner slotted before fs

end Field

namespace Schema

/-- The name by which a type that encloses its parts is known inside of them. -/
def opened? : Schema → Option String
  | duration => some duration.name
  | tuple ts => some (tuple ts).name
  | struct typeName .. | enum typeName .. => some typeName
  | _ => none

def Lawful : Schema → Prop
  | compatible .. | named _ (compatible ..) => False
  | struct _ _ fields =>
    Field.InOrder fields ∧ (Field.versions fields).Pairwise (· ≤ ·) ∧
      (Field.versions fields).length ≤ maxSlots
  | enum _ _ alternatives =>
    alternatives.length ≤ maxAlternatives ∧ ∀ a ∈ alternatives, Field.versions a.fields = []
  | _ => True

end Schema

namespace Family

def stops (family : Family) : Schema → List Stop
  | .unit | .scalar _ | .text | .duration => []
  | .sequence t | .set t | .array t _ | .option t | .pointer _ t => [.type t]
  | .map k v => [.type k, .type v]
  | .tuple ts => ts.map .type
  | .compatible t version => [.type t, .fault (Schema.compatible t version).name .misplaced]
  | .named typeName (.compatible t _) => [.type t, .fault typeName .misplaced]
  | .named _ t => [.type t]
  | .struct typeName _ fields => Field.stops typeName true [] fields
  | .enum typeName _ alternatives =>
    alternatives.flatMap (fun a => Field.stops typeName false [] a.fields) ++
      if maxAlternatives < alternatives.length then [.fault typeName .alternatives] else []
  | .reference typeName => ((family.lookup typeName).map .type).toList

/-- What a walk over stops inside the types `enclosing` meets. -/
inductive Meets (family : Family) : List String → List Stop → List Violation → Prop
  | nil (enclosing : List String) : Meets family enclosing [] []
  | fault {enclosing : List String} {stops : List Stop} {vs : List Violation} (typeName : String)
      (fault : ShapeFault) : Meets family enclosing stops vs →
      Meets family enclosing (.fault typeName fault :: stops) (.misshaped typeName fault :: vs)
  | reentry {enclosing : List String} {t : Schema} {typeName : String} {stops : List Stop}
      {vs : List Violation} : t.opened? = some typeName → typeName ∈ enclosing →
      Meets family enclosing stops vs →
      Meets family enclosing (.type t :: stops) (.reentry typeName :: vs)
  | enter {enclosing : List String} {t : Schema} {stops : List Stop} {us vs : List Violation} :
      (∀ typeName, t.opened? = some typeName → typeName ∉ enclosing) →
      Meets family (t.opened?.toList ++ enclosing) (family.stops t) us →
      Meets family enclosing stops vs → Meets family enclosing (.type t :: stops) (us ++ vs)

/-- Whether a type is a part of another: a field's type, an element, a pointee or a declaration. -/
def Inside (family : Family) (t u : Schema) : Prop := .type u ∈ family.stops t

def Reaches (family : Family) : Schema → Schema → Prop := ReflTransGen family.Inside

structure Valid (family : Family) (t : Schema) : Prop where
  /-- No type that encloses its parts is reached again inside itself. -/
  acyclic : ∀ a b typeName, family.Reaches t a → TransGen family.Inside a b →
    a.opened? = some typeName → b.opened? ≠ some typeName
  lawful : ∀ a, family.Reaches t a → a.Lawful

end Family

/-! ## Faults and rules -/

def Faultless (stops : List Stop) : Prop := ∀ typeName fault, Stop.fault typeName fault ∉ stops

section

variable {t : Schema} {typeName : String} {stops stops' : List Stop}

@[simp] theorem faultless_nil : Faultless [] := fun _ _ h => nomatch h

@[simp] theorem faultless_type : Faultless (.type t :: stops) ↔ Faultless stops := by
  simp [Faultless]

@[simp] theorem not_faultless_fault {fault : ShapeFault} :
    ¬Faultless (.fault typeName fault :: stops) := fun h => h typeName fault (by simp)

@[simp] theorem faultless_append :
    Faultless (stops ++ stops') ↔ Faultless stops ∧ Faultless stops' := by
  simp [Faultless, not_or, forall_and]

@[simp] theorem faultless_flatMap {α : Type} {f : α → List Stop} {xs : List α} :
    Faultless (xs.flatMap f) ↔ ∀ x ∈ xs, Faultless (f x) := by
  induction xs with
  | nil => simp
  | cons x xs ih => simp [ih]

@[simp] theorem faultless_map_type (ts : List Schema) : Faultless (ts.map .type) := by
  simp [Faultless]

@[simp] theorem faultless_toList {o : Option ShapeFault} :
    Faultless (o.map (.fault typeName)).toList ↔ o = none := by
  cases o <;> simp

end

namespace Field

variable {owner : String} {before : List Nat} {fs : List Field}

theorem pairwise_concat {before : List Nat} (h : before.Pairwise (· ≤ ·)) (version : Nat) :
    (before ++ [version]).Pairwise (· ≤ ·) ↔ before.getLastD 0 ≤ version := by
  rw [List.pairwise_append]
  cases hl : before.getLast? with
  | none =>
    rw [List.getLast?_eq_none_iff] at hl
    subst hl
    simp
  | some last =>
    obtain ⟨front,rfl⟩ := List.getLast?_eq_some_iff.mp hl
    have hd : (front ++ [last]).getLastD 0 = last := by simp
    have hle := (List.pairwise_append.mp h).2.2
    rw [hd]
    constructor
    · rintro ⟨-,-,hv⟩
      exact hv last (by simp) version (by simp)
    · intro hv
      refine ⟨h,List.pairwise_singleton ..,fun x hx y hy => ?_⟩
      rw [List.mem_singleton.mp hy]
      rcases List.mem_append.mp hx with hx | hx
      · exact Nat.le_trans (hle x hx last (by simp)) hv
      · exact List.mem_singleton.mp hx ▸ hv

theorem fault?_compatible_eq_none {name : String} {version : Nat} {t : Schema}
    (h : before.Pairwise (· ≤ ·)) :
    (compatible name version t).fault? true before = none ↔
      (before ++ [version]).Pairwise (· ≤ ·) ∧ (before ++ [version]).length ≤ maxSlots := by
  rw [pairwise_concat h, List.length_append, List.length_singleton]
  simp only [fault?, Bool.true_eq_false, if_false]
  by_cases hv : version < before.getLastD 0
  · rw [if_pos hv]
    simp only [reduceCtorEq, false_iff]
    omega
  · by_cases hl : maxSlots ≤ before.length
    · rw [if_neg hv, if_pos hl]
      simp only [reduceCtorEq, false_iff]
      omega
    · rw [if_neg hv, if_neg hl]
      simp only [true_iff]
      omega

theorem fault?_mandatory_eq_none {name : String} {slotted : Bool} {t : Schema} :
    (mandatory name t).fault? slotted before = none ↔ before = [] := by
  simp [fault?]

theorem faultless_stops (owner : String) (fs : List Field) {before : List Nat}
    (hp : before.Pairwise (· ≤ ·)) (hl : before.length ≤ maxSlots) :
    Faultless (stops owner true before fs) ↔
      (before ≠ [] → mandatorySchemas fs = []) ∧ InOrder fs ∧
        (before ++ versions fs).Pairwise (· ≤ ·) ∧ (before ++ versions fs).length ≤ maxSlots := by
  induction fs generalizing before with
  | nil => simpa [stops, mandatorySchemas, InOrder, versions] using ⟨hp,hl⟩
  | cons f fs ih =>
    cases f with
    | mandatory name t =>
      simp only [stops, faultless_append, faultless_type, faultless_toList,
        fault?_mandatory_eq_none, mandatorySchemas, InOrder, versions]
      constructor
      · rintro ⟨rfl,h⟩
        obtain ⟨-,hrest⟩ := (ih hp hl).mp h
        exact ⟨fun h => absurd rfl h,hrest⟩
      · rintro ⟨hb,hrest⟩
        have hn : before = [] := Decidable.byContradiction fun h => List.cons_ne_nil _ _ (hb h)
        exact ⟨hn,(ih hp hl).mpr ⟨fun h => absurd hn h,hrest⟩⟩
    | compatible name version t =>
      have hc : before ++ versions (compatible name version t :: fs) =
          before ++ [version] ++ versions fs := by simp [versions]
      simp only [stops, faultless_append, faultless_type, faultless_toList,
        fault?_compatible_eq_none hp, mandatorySchemas, InOrder]
      rw [hc]
      constructor
      · rintro ⟨⟨hp',hl'⟩,h⟩
        obtain ⟨hm,ho,hrest⟩ := (ih hp' hl').mp h
        have hm' : mandatorySchemas fs = [] := hm (by simp)
        exact ⟨fun _ => hm',⟨hm',ho⟩,hrest⟩
      · rintro ⟨-,⟨hm,ho⟩,hv,hn⟩
        have hp' := (List.pairwise_append.mp hv).1
        have hl' : (before ++ [version]).length ≤ maxSlots := by
          rw [List.length_append] at hn
          exact Nat.le_of_add_right_le hn
        exact ⟨⟨hp',hl'⟩,(ih hp' hl').mpr ⟨fun _ => hm,ho,hv,hn⟩⟩
    | skipped name t default => exact ih hp hl

theorem faultless_stops_alternative (owner : String) (fs : List Field) :
    Faultless (stops owner false [] fs) ↔ versions fs = [] := by
  induction fs with
  | nil => simp [stops, versions]
  | cons f fs ih =>
    cases f with
    | mandatory name t => simpa [stops, fault?, versions] using ih
    | compatible name version t => simp [stops, fault?, versions]
    | skipped name t default => exact ih

end Field

namespace Family

variable {family : Family} {t u : Schema}

/-- The rules that concern a type alone are kept if a walk finds no fault of the type. -/
theorem faultless_stops_iff (family : Family) (t : Schema) :
    Faultless (family.stops t) ↔ t.Lawful := by
  cases t with
  | struct typeName style fields =>
    refine (Field.faultless_stops typeName fields .nil (Nat.zero_le _)).trans ?_
    simp [Schema.Lawful]
  | enum typeName label alternatives =>
    have hl : Faultless (if maxAlternatives < alternatives.length then
        [Stop.fault typeName .alternatives] else []) ↔ alternatives.length ≤ maxAlternatives := by
      by_cases h : maxAlternatives < alternatives.length
      · simp [h]
      · simpa [h] using Nat.le_of_not_lt h
    simp only [stops, faultless_append, faultless_flatMap, Field.faultless_stops_alternative, hl,
      Schema.Lawful]
    exact and_comm
  | named typeName t => cases t <;> simp [stops, Schema.Lawful]
  | reference typeName => cases h : family.lookup typeName <;> simp [stops, h, Schema.Lawful]
  | _ => simp [stops, Schema.Lawful]

/-! ## Walks -/

section

variable {e : List String} {xs ys : List Stop} {us vs : List Violation}

theorem Meets.append (hx : family.Meets e xs us) (hy : family.Meets e ys vs) :
    family.Meets e (xs ++ ys) (us ++ vs) := by
  induction hx with
  | nil => exact hy
  | fault typeName fault _ ih => exact .fault typeName fault (ih hy)
  | reentry ho hn _ ih => exact .reentry ho hn (ih hy)
  | enter hn hi _ _ ih =>
    rw [List.append_assoc]
    exact .enter hn hi (ih hy)

theorem Meets.unique (hu : family.Meets e xs us) (hv : family.Meets e xs vs) : us = vs := by
  induction hu generalizing vs with
  | nil =>
    cases hv
    rfl
  | fault _ _ _ ih =>
    cases hv with
    | fault _ _ hv => rw [ih hv]
  | reentry ho hn _ ih =>
    cases hv with
    | reentry ho' _ hv =>
      rw [ho] at ho'
      cases ho'
      rw [ih hv]
    | enter hn' => exact absurd hn (hn' _ ho)
  | enter hn _ _ ihi ih =>
    cases hv with
    | reentry ho hn' => exact absurd hn' (hn _ ho)
    | enter _ hi hv => rw [ihi hi, ih hv]

def Clear (family : Family) (e : List String) : Stop → Prop
  | .type t => family.Valid t ∧ ∀ b typeName, family.Reaches t b → b.opened? = some typeName →
    typeName ∉ e
  | .fault .. => False

/-- Nothing is found at a type that is not open yet if nothing is found inside of it. -/
theorem clear_type (ho : ∀ typeName, t.opened? = some typeName → typeName ∉ e) :
    family.Clear e (.type t) ↔ ∀ s ∈ family.stops t, family.Clear (t.opened?.toList ++ e) s := by
  constructor
  · rintro ⟨hv,hr⟩ s hs
    cases s with
    | fault typeName fault =>
      exact (family.faultless_stops_iff t).mpr (hv.lawful t .refl) typeName fault hs
    | type u =>
      have hu : family.Inside t u := hs
      refine ⟨⟨fun a b n ha => hv.acyclic a b n (.head hu ha),fun a ha => hv.lawful a (.head hu ha)⟩,
        fun b n hb hn hm => ?_⟩
      rcases List.mem_append.mp hm with hm | hm
      · exact hv.acyclic t b n .refl (.head' hu hb) (Option.mem_toList.mp hm) hn
      · exact hr b n (.head hu hb) hn hm
  · intro h
    have hu (u : Schema) (hu : family.Inside t u) := h (.type u) hu
    -- whatever is reached is the type itself or reached from one of its parts
    refine ⟨⟨fun a b n ha hb hn hn' => ?_,fun a ha => ?_⟩,fun b n hb hn hm => ?_⟩
    · rcases ha.cases_head with rfl | ⟨u,htu,hua⟩
      · obtain ⟨u,htu,hub⟩ := Relation.TransGen.head'_iff.mp hb
        exact (hu u htu).2 b n hub hn' (List.mem_append_left _ (Option.mem_toList.mpr hn))
      · exact (hu u htu).1.acyclic a b n hua hb hn hn'
    · rcases ha.cases_head with rfl | ⟨u,htu,hua⟩
      · refine (family.faultless_stops_iff t).mp fun n fault hs => ?_
        exact h _ hs
      · exact (hu u htu).1.lawful a hua
    · rcases hb.cases_head with rfl | ⟨u,htu,hub⟩
      · exact ho n hn hm
      · exact (hu u htu).2 b n hub hn (List.mem_append_right _ hm)

theorem Meets.eq_nil_iff (h : family.Meets e xs vs) : vs = [] ↔ ∀ s ∈ xs, family.Clear e s := by
  induction h with
  | nil => simp
  | fault => simp [Clear]
  | reentry ho hn =>
    refine ⟨(nomatch ·),fun h => ?_⟩
    exact absurd hn ((h _ (List.mem_cons_self ..)).2 _ _ .refl ho)
  | enter hn _ _ ihi ih => rw [List.append_eq_nil_iff, ihi, ih, ← clear_type hn, List.forall_mem_cons]

/-- A type is valid if a walk through it meets nothing. -/
theorem Meets.eq_nil_iff_valid (h : family.Meets [] [.type t] vs) : vs = [] ↔ family.Valid t := by
  rw [h.eq_nil_iff, List.forall_mem_singleton]
  exact ⟨fun h => h.1,fun h => ⟨h,fun _ _ _ _ => List.not_mem_nil⟩⟩

end

end Family
end RecordCodec
