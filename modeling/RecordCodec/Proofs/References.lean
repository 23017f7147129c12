import RecordCodec.Descriptor.Describe
import RecordCodec.Proofs.Unfolding

/-! # References in descriptions

A reference is described as its declaration, inside the types that are open there. A declaration
that is open already is refused where it is entered, so a description never has more declarations in
each other than there are names, and comes to the same as that of the unfolded type.
-/
namespace RecordCodec

namespace Describe

variable {α β : Type} {e : List String}

/-- Two descriptions come to the same inside the types `e`, and these stay the types around. -/
structure Agree (e : List String) (x y : Describe α) : Prop where
  eq : x e = y e
  restores : ∀ {a e'}, x e = .ok a e' → e' = e

theorem Agree.pure (e : List String) (a : α) : Agree e (pure a) (pure a) :=
  ⟨rfl,fun h => (EStateM.pure_eq_ok.mp h).2.symm⟩

theorem Agree.throw (e : List String) (err : Error) :
    Agree e (throw err : Describe α) (throw err) := ⟨rfl,fun h => nomatch h⟩

theorem Agree.lift (e : List String) (y : Except Error α) : Agree e (lift y) (lift y) := by
  cases y with
  | ok a => exact .pure e a
  | error err => exact .throw e err

theorem Agree.bind {x y : Describe α} {f g : α → Describe β} (h : Agree e x y)
    (k : ∀ a, Agree e (f a) (g a)) : Agree e (x >>= f) (y >>= g) := by
  have hxy := h.eq
  cases hx : x e with
  | ok a e' =>
    obtain rfl := h.restores hx
    rw [hx] at hxy
    constructor
    · rw [EStateM.bind_of_ok f hx, EStateM.bind_of_ok g hxy.symm]
      exact (k a).eq
    · intro b e'' hb
      rw [EStateM.bind_of_ok f hx] at hb
      exact (k a).restores hb
  | error err e' =>
    rw [hx] at hxy
    constructor
    · rw [EStateM.bind_of_error f hx, EStateM.bind_of_error g hxy.symm]
    · intro b e'' hb
      rw [EStateM.bind_of_error f hx] at hb
      cases hb

theorem Agree.within {x y : Describe α} {typeName : String} (h : Agree (typeName :: e) x y) :
    Agree e (within typeName x) (within typeName y) := by
  by_cases hn : typeName ∈ e
  · have hx := within_of_mem x hn
    exact ⟨hx.trans (within_of_mem y hn).symm,fun hb => by rw [hx] at hb; cases hb⟩
  · constructor
    · rw [within_of_not_mem x hn, within_of_not_mem y hn, h.eq]
    · intro a e' hb
      rw [within_of_not_mem x hn] at hb
      cases hx : x (typeName :: e) with
      | ok b inner =>
        rw [hx] at hb
        obtain rfl := h.restores hx
        cases hb
        rfl
      | error err inner =>
        rw [hx] at hb
        cases hb

theorem Agree.aggregate {x y : Describe (List FieldDescriptor)} {typeName : String}
    {extensible : Bool} (h : Agree (typeName :: e) x y) :
    Agree e (aggregate typeName extensible x) (aggregate typeName extensible y) :=
  h.within.bind fun _ => .pure e _

theorem Agree.variant {x y : Describe (List AlternativeDescriptor)} {typeName : String}
    (h : Agree (typeName :: e) x y) : Agree e (variant typeName x) (variant typeName y) := by
  refine h.within.bind fun as => ?_
  split
  · exact (Agree.throw e _).bind fun _ => .pure e _
  · exact .pure e _

end Describe

namespace Schema

open Describe (Agree)

section

variable {r s : String → Describe Descriptor} {enclosing : List String}

/-- A type that is open already is refused, whatever its references stand for. -/
theorem describeBy_of_mem {t : Schema} {n : String} {e : List String} (ho : t.opened? = some n)
    (hn : n ∈ e) : t.describeBy r e = .error (.cyclicType n) e := by
  cases t with
  | duration | tuple | struct | enum =>
    cases ho
    exact EStateM.bind_of_error _ (Describe.within_of_mem _ hn)
  | _ => cases ho

theorem subset_opened {e : List String} (h : enclosing ⊆ e) (t : Schema) :
    enclosing ⊆ t.opened?.toList ++ e := fun _ hn => List.mem_append_right _ (h hn)

mutual

/-- If names are described alike inside the types `enclosing`, so is a type. -/
theorem agree_describeBy (h : ∀ n e, enclosing ⊆ e → Agree e (r n) (s n)) :
    ∀ (t : Schema) (e : List String), enclosing ⊆ t.opened?.toList ++ e →
      Agree e (t.describeBy r) (t.describeBy s)
  | unit, e, _ | scalar _, e, _ | text, e, _ => .pure e _
  | duration, e, _ => (Agree.pure _ _).aggregate
  | sequence t, e, he | set t, e, he | array t _, e, he | option t, e, he =>
    (agree_describeBy h t e (subset_opened he t)).bind fun _ => .pure e _
  | map k v, e, he =>
    (agree_describeBy h k e (subset_opened he k)).bind fun _ =>
      (agree_describeBy h v e (subset_opened he v)).bind fun _ => .pure e _
  | tuple ts, e, he => (agree_components h 0 ts _ he).aggregate
  | pointer _ t, e, he => agree_describeBy h t e (subset_opened he t)
  | compatible t _, e, he =>
    (agree_describeBy h t e (subset_opened he t)).bind fun _ => .throw e _
  | struct _ _ fs, e, he => (agree_fields h _ fs _ he).aggregate
  | enum n _ as, e, he => (agree_alternatives h n as _ he).variant
  | named n t, e, he => by
    rcases describeBy_named r n t with ⟨p,version,rfl⟩ | hr
    · exact (agree_describeBy h p e (subset_opened he p)).bind fun _ => .throw e _
    · rcases describeBy_named s n t with ⟨p,version,rfl⟩ | hs
      · exact (agree_describeBy h p e (subset_opened he p)).bind fun _ => .throw e _
      · rw [hr, hs]
        exact agree_describeBy h t e (subset_opened he t)
  | reference n, e, he => h n e he

theorem agree_components (h : ∀ n e, enclosing ⊆ e → Agree e (r n) (s n)) :
    ∀ (index : Nat) (ts : List Schema) (e : List String), enclosing ⊆ e →
      Agree e (describeComponentsBy r index ts) (describeComponentsBy s index ts)
  | _, [], e, _ => .pure e _
  | index, t :: ts, e, he =>
    (agree_describeBy h t e (subset_opened he t)).bind fun _ =>
      (agree_components h (index + 1) ts e he).bind fun _ => .pure e _

theorem agree_fields (h : ∀ n e, enclosing ⊆ e → Agree e (r n) (s n)) :
    ∀ (l : FieldList) (fs : List Field) (e : List String), enclosing ⊆ e →
      Agree e (describeFieldsBy r l fs) (describeFieldsBy s l fs)
  | _, [], e, _ => .pure e _
  | _, .mandatory _ t :: fs, e, he | _, .compatible _ _ t :: fs, e, he =>
    (agree_describeBy h t e (subset_opened he t)).bind fun _ =>
      (Agree.lift e _).bind fun l => agree_fields h l fs e he
  | l, .skipped .. :: fs, e, he => agree_fields h l fs e he

theorem agree_alternatives (h : ∀ n e, enclosing ⊆ e → Agree e (r n) (s n)) :
    ∀ (typeName : String) (as : List Alternative) (e : List String), enclosing ⊆ e →
      Agree e (describeAlternativesBy r typeName as) (describeAlternativesBy s typeName as)
  | _, [], e, _ => .pure e _
  | typeName, .mk _ _ fields :: as, e, he =>
    (agree_fields h _ fields e he).bind fun _ =>
      (agree_alternatives h typeName as e he).bind fun _ => .pure e _

end

end

section

variable {r : String → Schema}

/-- Whether a name is kept, or replaced by a type that is known by it. -/
def Known (r : String → Schema) : Prop := ∀ n, r n = reference n ∨ (r n).opened? = some n

theorem Known.name_eq (h : Known r) (n : String) : (r n).name = n := by
  rcases h n with hn | hn
  · rw [hn]
    rfl
  · exact name_of_opened? hn

theorem Known.ne_compatible (h : Known r) (n : String) (p : Schema) (version : Nat) :
    r n ≠ compatible p version := by
  rcases h n with hn | hn
  · simp [hn]
  · intro hc
    rw [hc] at hn
    cases hn

/-- A replacement makes no type compatible, so a type under another name is described as it is. -/
theorem Known.substitute_named (h : Known r) (t : Schema) :
    (∃ p version, t = compatible p version) ∨ ∀ (n : String) (s : String → Describe Descriptor),
      (named n (t.substitute r)).describeBy s = (t.substitute r).describeBy s ∧
        (named n t).describeBy s = t.describeBy s := by
  cases t with
  | compatible p version => exact .inl ⟨p,version,rfl⟩
  | reference m =>
    refine .inr fun n s => ⟨?_,rfl⟩
    rcases describeBy_named s n (r m) with ⟨p,version,hp⟩ | hd
    · exact absurd hp (h.ne_compatible m p version)
    · exact hd
  | _ => exact .inr fun _ _ => ⟨rfl,rfl⟩

variable (s : String → Describe Descriptor)

mutual

/-- A type whose references are replaced is described as the type itself with the replacements'
descriptions. -/
theorem describeBy_substitute (h : Known r) :
    ∀ t : Schema, (t.substitute r).describeBy s = t.describeBy fun n => (r n).describeBy s
  | unit | scalar _ | text | duration | reference _ => rfl
  | sequence t | set t | array t _ | option t | pointer _ t => by
    simp only [substitute, describeBy, describeBy_substitute h t]
  | map k v => by
    simp only [substitute, describeBy, describeBy_substitute h k, describeBy_substitute h v]
  | tuple ts => by
    have hn := name_substitute h.name_eq (tuple ts)
    rw [substitute] at hn
    simp only [substitute, describeBy, hn, describeBy_substituteAll h 0 ts]
  | compatible t version => by
    have hn := name_substitute h.name_eq (compatible t version)
    rw [substitute] at hn
    simp only [substitute, describeBy, hn, describeBy_substitute h t]
  | struct _ _ fs => by
    simp only [substitute, describeBy, describeBy_substituteFields h _ fs]
  | enum n _ as => by
    simp only [substitute, describeBy, describeBy_substituteAlternatives h n as]
  | named n t => by
    rcases h.substitute_named t with ⟨p,version,rfl⟩ | hn
    · simp only [substitute, describeBy, describeBy_substitute h p]
    · rw [substitute, (hn n s).1, (hn n _).2, describeBy_substitute h t]

theorem describeBy_substituteAll (h : Known r) : ∀ (index : Nat) (ts : List Schema),
    describeComponentsBy s index (substituteAll r ts) =
      describeComponentsBy (fun n => (r n).describeBy s) index ts
  | _, [] => rfl
  | index, t :: ts => by
    simp only [substituteAll, describeComponentsBy, describeBy_substitute h t,
      describeBy_substituteAll h (index + 1) ts]

theorem describeBy_substituteFields (h : Known r) : ∀ (l : FieldList) (fs : List Field),
    describeFieldsBy s l (substituteFields r fs) =
      describeFieldsBy (fun n => (r n).describeBy s) l fs
  | _, [] => rfl
  | _, .mandatory _ t :: fs | _, .compatible _ _ t :: fs => by
    simp only [substituteFields, describeFieldsBy, describeBy_substitute h t,
      describeBy_substituteFields h _ fs]
  | l, .skipped .. :: fs => describeBy_substituteFields h l fs

theorem describeBy_substituteAlternatives (h : Known r) :
    ∀ (typeName : String) (as : List Alternative),
      describeAlternativesBy s typeName (substituteAlternatives r as) =
        describeAlternativesBy (fun n => (r n).describeBy s) typeName as
  | _, [] => rfl
  | typeName, .mk _ _ fields :: as => by
    simp only [substituteAlternatives, describeAlternativesBy,
      describeBy_substituteFields h _ fields, describeBy_substituteAlternatives h typeName as]

end

end

end Schema

namespace Family

open Schema
open Describe (Agree)

variable {family : Family} {enclosing : List String} {t : Schema}

theorem describe_of_mem (more : Nat) {n : String} {e : List String} (ho : t.opened? = some n)
    (hn : n ∈ e) : family.describe more t e = .error (.cyclicType n) e := by
  cases more <;> exact describeBy_of_mem ho hn

/-- A name inside its own definition is refused, be it for what it is or when its declaration is
entered. -/
theorem agree_refuse (hf : family.WellNamed) (more : Nat) {n : String} {u : Schema}
    {e : List String} (hu : family.lookup n = some u) (hn : n ∈ e) :
    Agree e (family.describe more u) (Describe.refuse n) := by
  have hx : family.describe more u e = .error (.cyclicType n) e :=
    describe_of_mem more (hf n u hu) hn
  refine ⟨hx,fun hb => ?_⟩
  rw [hx] at hb
  cases hb

/-- Different names of declarations are at most as many as the declarations. -/
theorem length_le_of_nodup (hd : enclosing.Nodup) (hs : enclosing ⊆ family.map (·.1)) :
    enclosing.length ≤ family.length := by
  have hl := (List.subperm_of_subset hd hs).length_le
  rwa [List.length_map] at hl

/-- A type described through the family comes to what it comes to unfolded inside others, if there
are more declarations to be described in each other than are left to be opened. -/
theorem agree_unfoldWithin (hf : family.WellNamed) {more left : Nat} (hd : enclosing.Nodup)
    (hs : enclosing ⊆ family.map (·.1)) (hm : family.length < more + enclosing.length)
    (hl : family.length ≤ left + enclosing.length) {e : List String}
    (he : enclosing ⊆ t.opened?.toList ++ e) :
    Agree e (family.describe more t) (family.unfoldWithin left enclosing t).describe := by
  induction more generalizing left enclosing t e with
  | zero =>
    have hle := length_le_of_nodup hd hs
    omega
  | succ more ih =>
    cases left with
    | zero =>
      refine agree_describeBy (fun n e he => ?_) t e he
      cases hu : family.lookup n with
      | some u => exact agree_refuse hf more hu (he (mem_of_full hd hs (by omega) hu))
      | none => exact .throw e _
    | succ left =>
      rw [unfoldWithin, Schema.describe, describeBy_substitute]
      · refine agree_describeBy (fun n e he => ?_) t e he
        cases hu : family.lookup n with
        | none =>
          simp only [ite_self]
          exact .throw e _
        | some u =>
          by_cases hn : n ∈ enclosing
          · rw [if_pos hn]
            exact agree_refuse hf more hu (he hn)
          · rw [if_neg hn]
            have hn' : (n :: enclosing).Nodup := List.nodup_cons.mpr ⟨hn,hd⟩
            refine ih hn' (List.cons_subset.mpr ⟨mem_names hu,hs⟩) ?_ ?_ ?_
            · rw [List.length_cons]
              omega
            · rw [List.length_cons]
              omega
            · rw [hf n u hu]
              exact List.cons_subset_cons n he
      · intro n
        dsimp only
        split
        · exact .inl rfl
        · cases hu : family.lookup n with
          | some u => exact .inr (opened?_unfoldWithin hf left (hf n u hu))
          | none => exact .inl rfl

/-- However many declarations may be described in each other, if they are more than the family has,
a description comes to that of the unfolded type. -/
theorem outcome_describe (hf : family.WellNamed) {more : Nat} (hm : family.length < more)
    (t : Schema) : (family.describe more t).outcome [] = (family.unfold t).descriptor := by
  have h := agree_unfoldWithin (t := t) (e := []) hf .nil (List.nil_subset _) hm (Nat.le_refl _)
    (List.nil_subset _)
  unfold Describe.outcome
  rw [h.eq]
  rfl

theorem descriptor_eq_unfold (hf : family.WellNamed) (t : Schema) :
    family.descriptor t = (family.unfold t).descriptor :=
  outcome_describe hf (Nat.lt_succ_self _) t

end Family
end RecordCodec
