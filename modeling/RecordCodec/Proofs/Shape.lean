import RecordCodec.Descriptor.Describe
import RecordCodec.Proofs.Reading

/-! # The shapes of accepted types

A description that succeeds comes to the shape of the type, which depends on the type alone: it
succeeds in the same way inside fewer types, and leaves them as they were. The types that have a
description are well formed: compatible fields stand behind the mandatory ones, directly in structs,
and there are no more of them than slots.
-/
namespace RecordCodec

namespace Field

/-- The types of the mandatory fields. -/
def mandatorySchemas : List Field → List Schema
  | [] => []
  | mandatory _ t :: fs => t :: mandatorySchemas fs
  | compatible .. :: fs | skipped .. :: fs => mandatorySchemas fs

/-- The types of the payloads of the compatible fields. -/
def slotSchemas : List Field → List Schema
  | [] => []
  | compatible _ _ t :: fs => t :: slotSchemas fs
  | mandatory .. :: fs | skipped .. :: fs => slotSchemas fs

/-- Whether every compatible field is behind every mandatory one. -/
def InOrder : List Field → Prop
  | [] => True
  | compatible .. :: fs => mandatorySchemas fs = [] ∧ InOrder fs
  | mandatory .. :: fs | skipped .. :: fs => InOrder fs

theorem inOrder_of_no_slots {fs : List Field} (h : slotSchemas fs = []) : InOrder fs := by
  induction fs with
  | nil => trivial
  | cons f fs ih =>
    cases f with
    | mandatory name t => exact ih h
    | compatible name version t => cases h
    | skipped name t default => exact ih h

end Field

namespace Schema

mutual

/-- The descriptor of a type, if it is accepted. -/
def shape : Schema → Descriptor
  | unit => .unit
  | scalar s => .scalar s
  | text => .text
  | duration => .aggregate duration.name durationFields false
  | sequence t => .sequence t.shape
  | set t => .set t.shape
  | map k v => .map k.shape v.shape
  | array t n => .array t.shape n
  | option t => .optional t.shape
  | tuple ts => .aggregate (tuple ts).name (componentShapes 0 ts) false
  | pointer _ t | compatible t _ | named _ t => t.shape
  | struct typeName _ fields => .aggregate typeName (fieldShapes fields) true
  | enum typeName _ alternatives => .variant typeName (alternativeShapes alternatives)
  | reference _ => .unit
termination_by structural t => t

/-- The fields of a tuple's descriptor, named by their positions from `index` on. -/
def componentShapes (index : Nat) : List Schema → List FieldDescriptor
  | [] => []
  | t :: ts => ⟨toString index,t.shape,none⟩ :: componentShapes (index + 1) ts
termination_by structural ts => ts

/-- The described fields: those that a record holds. -/
def fieldShapes : List Field → List FieldDescriptor
  | [] => []
  | .mandatory name t :: fs => ⟨name,t.shape,none⟩ :: fieldShapes fs
  | .compatible name version t :: fs => ⟨name,t.shape,some version⟩ :: fieldShapes fs
  | .skipped .. :: fs => fieldShapes fs
termination_by structural fs => fs

/-- The described alternatives. -/
def alternativeShapes : List Alternative → List AlternativeDescriptor
  | [] => []
  | .mk name _ fields :: as => ⟨name,fieldShapes fields⟩ :: alternativeShapes as
termination_by structural as => as

end

@[simp] theorem length_alternativeShapes (as : List Alternative) :
    (alternativeShapes as).length = as.length := by
  induction as with
  | nil => rfl
  | cons a as ih =>
    obtain ⟨name,style,fields⟩ := a
    exact congrArg (· + 1) ih

mutual

/-- Whether the compatible fields of a type are where and as many as they may be, and no type is
inside its own definition. -/
def WellFormed : Schema → Prop
  | unit | scalar _ | text | duration => True
  | sequence t | set t | array t _ | option t | pointer _ t | named _ t => t.WellFormed
  | map k v => k.WellFormed ∧ v.WellFormed
  | tuple ts => AllWellFormed ts
  | compatible .. | reference _ => False
  | struct _ _ fields =>
    Field.InOrder fields ∧ (Field.slotSchemas fields).length ≤ maxSlots ∧ FieldsWellFormed fields
  | enum _ _ alternatives =>
    alternatives.length ≤ maxAlternatives ∧ AlternativesWellFormed alternatives
termination_by structural t => t

def AllWellFormed : List Schema → Prop
  | [] => True
  | t :: ts => t.WellFormed ∧ AllWellFormed ts
termination_by structural ts => ts

def FieldsWellFormed : List Field → Prop
  | [] => True
  | .mandatory _ t :: fs | .compatible _ _ t :: fs => t.WellFormed ∧ FieldsWellFormed fs
  | .skipped .. :: fs => FieldsWellFormed fs
termination_by structural fs => fs

def AlternativesWellFormed : List Alternative → Prop
  | [] => True
  | .mk _ _ fields :: as =>
    Field.slotSchemas fields = [] ∧ FieldsWellFormed fields ∧ AlternativesWellFormed as
termination_by structural as => as

end

end Schema

namespace Describe

variable {α β : Type} {x : Describe α} {e e' : List String} {a : α}

/-- A description comes to `a` inside any of the types `e`. -/
def Yields (x : Describe α) (e : List String) (a : α) : Prop := ∀ f, f ⊆ e → x f = .ok a f

theorem Yields.eq (h : Yields x e a) : x e = .ok a e := h e (List.Subset.refl e)

theorem Yields.state_eq {b : α} (h : Yields x e a) (k : x e = .ok b e') : e' = e := by
  rw [h.eq] at k
  cases k
  rfl

theorem Yields.pure (e : List String) (a : α) : Yields (pure a) e a := fun _ _ => rfl

theorem Yields.bind {f : α → Describe β} {b : β} (h : Yields x e a) (k : Yields (f a) e b) :
    Yields (x >>= f) e b := fun g hg => (EStateM.bind_of_ok f (h g hg)).trans (k g hg)

theorem outcome_eq_ok : x.outcome e = .ok a ↔ ∃ e', x e = .ok a e' := by
  unfold outcome
  cases x e <;> simp

theorem outcome_of_error {err : Error} (h : x e = .error err e') : x.outcome e = .error err := by
  unfold outcome
  rw [h]

theorem lift_eq_ok {y : Except Error α} (h : lift y e = .ok a e') : y = .ok a := by
  cases y with
  | ok b =>
    obtain ⟨rfl,-⟩ := EStateM.pure_eq_ok.mp h
    rfl
  | error err => cases h

theorem within_of_mem {typeName : String} (x : Describe α) (h : typeName ∈ e) :
    within typeName x e = .error (.cyclicType typeName) e := if_pos h

theorem within_of_not_mem {typeName : String} (x : Describe α) (h : typeName ∉ e) :
    within typeName x e =
      match x (typeName :: e) with
      | .ok a inner => .ok a inner.tail
      | .error err inner => .error err inner.tail := if_neg h

theorem within_eq_ok {typeName : String} (h : within typeName x e = .ok a e') :
    typeName ∉ e ∧ ∃ inner, x (typeName :: e) = .ok a inner := by
  unfold within at h
  by_cases hm : typeName ∈ e
  · rw [if_pos hm] at h
    cases h
  · rw [if_neg hm] at h
    cases hx : x (typeName :: e) with
    | ok b inner =>
      rw [hx] at h
      cases h
      exact ⟨hm,inner,rfl⟩
    | error err inner =>
      rw [hx] at h
      cases h

theorem Yields.within {typeName : String} (hn : typeName ∉ e) (h : Yields x (typeName :: e) a) :
    Yields (within typeName x) e a := by
  intro f hf
  have hm : typeName ∉ f := fun hm => hn (hf hm)
  unfold Describe.within
  rw [if_neg hm, h _ (List.cons_subset_cons typeName hf)]
  rfl

end Describe

namespace FieldList

/-- What the fields behind those of the list satisfy if all can be put behind it. -/
structure Admits (l : FieldList) (fs : List Field) : Prop where
  inOrder : Field.InOrder fs
  noMandatory : Descriptor.anyCompatible l.fields = true → Field.mandatorySchemas fs = []
  noCompatible : l.admitsCompatible = false → Field.slotSchemas fs = []
  length_le : (Descriptor.compatibleFields l.fields).length ≤ maxSlots →
    (Descriptor.compatibleFields l.fields).length + (Field.slotSchemas fs).length ≤ maxSlots

variable {l l' : FieldList} {name : String} {version : Nat} {shape : Descriptor} {fs : List Field}

theorem pushMandatory_eq_ok (h : l.pushMandatory name shape = .ok l') :
    Descriptor.anyCompatible l.fields = false ∧
      l' = { l with fields := l.fields ++ [⟨name,shape,none⟩] } := by
  unfold pushMandatory at h
  cases ha : Descriptor.anyCompatible l.fields with
  | true => simp [ha] at h
  | false => exact ⟨rfl,by simpa [ha, eq_comm] using h⟩

theorem compatibleFault_eq_none (h : l.compatibleFault name version = none) :
    l.admitsCompatible = true ∧ (Descriptor.compatibleFields l.fields).length < maxSlots := by
  unfold compatibleFault at h
  cases ha : l.admitsCompatible with
  | false =>
    rw [ha] at h
    cases h
  | true =>
    rw [ha, if_neg (by decide)] at h
    split at h
    · cases h
    · by_cases hc : maxSlots ≤ (Descriptor.compatibleFields l.fields).length
      · rw [if_pos hc] at h
        cases h
      · exact ⟨rfl,Nat.lt_of_not_le hc⟩

theorem pushCompatible_eq_ok (h : l.pushCompatible name version shape = .ok l') :
    l.admitsCompatible = true ∧ (Descriptor.compatibleFields l.fields).length < maxSlots ∧
      l' = { l with fields := l.fields ++ [⟨name,shape,some version⟩] } := by
  unfold pushCompatible at h
  cases hf : l.compatibleFault name version with
  | some fault =>
    rw [hf] at h
    cases h
  | none =>
    rw [hf] at h
    obtain ⟨ha,hl⟩ := compatibleFault_eq_none hf
    exact ⟨ha,hl,(Except.ok.inj h).symm⟩

theorem anyCompatible_append (fs gs : List FieldDescriptor) :
    Descriptor.anyCompatible (fs ++ gs) =
      (Descriptor.anyCompatible fs || Descriptor.anyCompatible gs) := List.any_append

theorem compatibleFields_append (fs gs : List FieldDescriptor) :
    Descriptor.compatibleFields (fs ++ gs) =
      Descriptor.compatibleFields fs ++ Descriptor.compatibleFields gs := List.filter_append ..

theorem admits_nil (l : FieldList) : l.Admits [] :=
  ⟨trivial,fun _ => rfl,fun _ => rfl,fun h => h⟩

theorem Admits.skipped {t : Schema} {default : Value} (h : l.Admits fs) :
    l.Admits (.skipped name t default :: fs) := ⟨h.1,h.2,h.3,h.4⟩

theorem Admits.mandatory {t : Schema} (hp : l.pushMandatory name shape = .ok l')
    (h : l'.Admits fs) : l.Admits (.mandatory name t :: fs) := by
  obtain ⟨ha,rfl⟩ := pushMandatory_eq_ok hp
  refine ⟨h.inOrder,fun hc => ?_,h.noCompatible,fun hl => ?_⟩
  · rw [ha] at hc
    cases hc
  · have hk := h.length_le
    simp only [compatibleFields_append] at hk
    have hn : Descriptor.compatibleFields [(⟨name,shape,none⟩ : FieldDescriptor)] = [] := rfl
    rw [hn, List.append_nil] at hk
    exact hk hl

theorem Admits.compatible {t : Schema} (hp : l.pushCompatible name version shape = .ok l')
    (h : l'.Admits fs) : l.Admits (.compatible name version t :: fs) := by
  obtain ⟨ha,hl,rfl⟩ := pushCompatible_eq_ok hp
  have hm : Field.mandatorySchemas fs = [] := by
    apply h.noMandatory
    rw [anyCompatible_append]
    exact Bool.or_true _
  refine ⟨⟨hm,h.inOrder⟩,fun _ => hm,fun hc => ?_,fun _ => ?_⟩
  · rw [ha] at hc
    cases hc
  · have hk := h.length_le
    simp only [compatibleFields_append, List.length_append] at hk
    have hs := hk hl
    simp only [Field.slotSchemas, List.length_cons]
    have hn : (Descriptor.compatibleFields
      [(⟨name,shape,some version⟩ : FieldDescriptor)]).length = 1 := rfl
    omega

end FieldList

namespace Schema

open Describe (Yields)

theorem describeBy_named (r : String → Describe Descriptor) (typeName : String) (t : Schema) :
    (∃ p version, t = compatible p version) ∨
      (named typeName t).describeBy r = t.describeBy r := by
  cases t <;> first | exact .inl ⟨_,_,rfl⟩ | exact .inr rfl

theorem describe_named (typeName : String) (t : Schema) :
    (∃ p version, t = compatible p version) ∨ (named typeName t).describe = t.describe :=
  describeBy_named Describe.refuse typeName t

mutual

/-- A successful description comes to the shape of a well-formed type, and does so inside fewer
types too. -/
theorem describe_eq_ok : ∀ (t : Schema) {e e' : List String} {d : Descriptor},
    t.describe e = .ok d e' → d = t.shape ∧ t.WellFormed ∧ Yields t.describe e t.shape
  | unit, e, _, _, h => by
    obtain ⟨rfl,-⟩ := EStateM.pure_eq_ok.mp h
    exact ⟨rfl,trivial,.pure e _⟩
  | scalar s, e, _, _, h => by
    obtain ⟨rfl,-⟩ := EStateM.pure_eq_ok.mp h
    exact ⟨rfl,trivial,.pure e _⟩
  | text, e, _, _, h => by
    obtain ⟨rfl,-⟩ := EStateM.pure_eq_ok.mp h
    exact ⟨rfl,trivial,.pure e _⟩
  | duration, e, _, _, h => by
    obtain ⟨fs,u,hw,h⟩ := EStateM.bind_eq_ok.mp h
    obtain ⟨rfl,-⟩ := EStateM.pure_eq_ok.mp h
    obtain ⟨hn,_,hp⟩ := Describe.within_eq_ok hw
    obtain ⟨rfl,-⟩ := EStateM.pure_eq_ok.mp hp
    exact ⟨rfl,trivial,((Yields.pure _ durationFields).within hn).bind (.pure e _)⟩
  | sequence t, e, _, _, h => by
    obtain ⟨d,u,ht,h⟩ := EStateM.bind_eq_ok.mp h
    obtain ⟨rfl,-⟩ := EStateM.pure_eq_ok.mp h
    obtain ⟨rfl,hw,hy⟩ := describe_eq_ok t ht
    exact ⟨rfl,hw,hy.bind (.pure e _)⟩
  | set t, e, _, _, h => by
    obtain ⟨d,u,ht,h⟩ := EStateM.bind_eq_ok.mp h
    obtain ⟨rfl,-⟩ := EStateM.pure_eq_ok.mp h
    obtain ⟨rfl,hw,hy⟩ := describe_eq_ok t ht
    exact ⟨rfl,hw,hy.bind (.pure e _)⟩
  | map k v, e, _, _, h => by
    obtain ⟨dk,u,hk,h⟩ := EStateM.bind_eq_ok.mp h
    obtain ⟨dv,w,hv,h⟩ := EStateM.bind_eq_ok.mp h
    obtain ⟨rfl,-⟩ := EStateM.pure_eq_ok.mp h
    obtain ⟨rfl,hkw,hky⟩ := describe_eq_ok k hk
    obtain rfl := hky.state_eq hk
    obtain ⟨rfl,hvw,hvy⟩ := describe_eq_ok v hv
    exact ⟨rfl,⟨hkw,hvw⟩,hky.bind (hvy.bind (.pure u _))⟩
  | array t n, e, _, _, h => by
    obtain ⟨d,u,ht,h⟩ := EStateM.bind_eq_ok.mp h
    obtain ⟨rfl,-⟩ := EStateM.pure_eq_ok.mp h
    obtain ⟨rfl,hw,hy⟩ := describe_eq_ok t ht
    exact ⟨rfl,hw,hy.bind (.pure e _)⟩
  | option t, e, _, _, h => by
    obtain ⟨d,u,ht,h⟩ := EStateM.bind_eq_ok.mp h
    obtain ⟨rfl,-⟩ := EStateM.pure_eq_ok.mp h
    obtain ⟨rfl,hw,hy⟩ := describe_eq_ok t ht
    exact ⟨rfl,hw,hy.bind (.pure e _)⟩
  | tuple ts, e, _, _, h => by
    obtain ⟨ds,u,hw,h⟩ := EStateM.bind_eq_ok.mp h
    obtain ⟨rfl,-⟩ := EStateM.pure_eq_ok.mp h
    obtain ⟨hn,_,hp⟩ := Describe.within_eq_ok hw
    obtain ⟨rfl,hwf,hy⟩ := describeComponents_eq_ok 0 ts hp
    exact ⟨rfl,hwf,(hy.within hn).bind (.pure e _)⟩
  | pointer _ t, e, _, _, h => describe_eq_ok t h
  | compatible t version, e, _, _, h => by
    obtain ⟨d,u,-,h⟩ := EStateM.bind_eq_ok.mp h
    cases h
  | struct typeName _ fields, e, _, _, h => by
    obtain ⟨ds,u,hw,h⟩ := EStateM.bind_eq_ok.mp h
    obtain ⟨rfl,-⟩ := EStateM.pure_eq_ok.mp h
    obtain ⟨hn,_,hp⟩ := Describe.within_eq_ok hw
    obtain ⟨rfl,ha,hwf,hy⟩ := describeFields_eq_ok ⟨typeName,true,[]⟩ fields hp
    have hl := ha.length_le (Nat.zero_le _)
    rw [show (Descriptor.compatibleFields ([] : List FieldDescriptor)).length = 0 from rfl,
      Nat.zero_add] at hl
    exact ⟨rfl,⟨ha.inOrder,hl,hwf⟩,(hy.within hn).bind (.pure e _)⟩
  | enum typeName _ alternatives, e, _, _, h => by
    obtain ⟨ds,u,hw,h⟩ := EStateM.bind_eq_ok.mp h
    obtain ⟨hn,_,hp⟩ := Describe.within_eq_ok hw
    obtain ⟨rfl,hl,hwf,hy⟩ := describeAlternatives_eq_ok typeName alternatives hp
    by_cases hm : maxAlternatives < (alternativeShapes alternatives).length
    · rw [if_pos hm] at h
      cases h
    · rw [if_neg hm] at h
      obtain ⟨rfl,-⟩ := EStateM.pure_eq_ok.mp h
      refine ⟨rfl,⟨hl ▸ Nat.le_of_not_lt hm,hwf⟩,(hy.within hn).bind ?_⟩
      rw [if_neg hm]
      exact .pure e _
  | named typeName t, e, _, _, h => by
    rcases describe_named typeName t with ⟨p,v,rfl⟩ | hn
    · obtain ⟨d,u,-,h⟩ := EStateM.bind_eq_ok.mp h
      cases h
    · rw [hn] at h ⊢
      exact describe_eq_ok t h
  | reference _, e, _, _, h => by cases h

theorem describeComponents_eq_ok : ∀ (index : Nat) (ts : List Schema) {e e' : List String}
    {ds : List FieldDescriptor}, describeComponents index ts e = .ok ds e' →
      ds = componentShapes index ts ∧ AllWellFormed ts ∧
        Yields (describeComponents index ts) e (componentShapes index ts)
  | _, [], e, _, _, h => by
    obtain ⟨rfl,-⟩ := EStateM.pure_eq_ok.mp h
    exact ⟨rfl,trivial,.pure e _⟩
  | index, t :: ts, e, _, _, h => by
    obtain ⟨d,u,ht,h⟩ := EStateM.bind_eq_ok.mp h
    obtain ⟨ds,w,hts,h⟩ := EStateM.bind_eq_ok.mp h
    obtain ⟨rfl,-⟩ := EStateM.pure_eq_ok.mp h
    obtain ⟨rfl,htw,hty⟩ := describe_eq_ok t ht
    obtain rfl := hty.state_eq ht
    obtain ⟨rfl,hsw,hsy⟩ := describeComponents_eq_ok (index + 1) ts hts
    exact ⟨rfl,⟨htw,hsw⟩,hty.bind (hsy.bind (.pure u _))⟩

theorem describeFields_eq_ok : ∀ (before : FieldList) (fs : List Field) {e e' : List String}
    {ds : List FieldDescriptor}, describeFields before fs e = .ok ds e' →
      ds = before.fields ++ fieldShapes fs ∧ before.Admits fs ∧ FieldsWellFormed fs ∧
        Yields (describeFields before fs) e (before.fields ++ fieldShapes fs)
  | before, [], e, _, _, h => by
    obtain ⟨rfl,-⟩ := EStateM.pure_eq_ok.mp h
    have hn : before.fields ++ fieldShapes [] = before.fields := List.append_nil _
    rw [hn]
    exact ⟨rfl,before.admits_nil,trivial,.pure e _⟩
  | before, .mandatory name t :: fs, e, _, _, h => by
    obtain ⟨d,u,ht,h⟩ := EStateM.bind_eq_ok.mp h
    obtain ⟨l,w,hl,hk⟩ := EStateM.bind_eq_ok.mp h
    obtain ⟨rfl,htw,hty⟩ := describe_eq_ok t ht
    obtain rfl := hty.state_eq ht
    have hp := Describe.lift_eq_ok hl
    have hly : Yields (Describe.lift (before.pushMandatory name t.shape)) u l := hp ▸ .pure u l
    obtain rfl := hly.state_eq hl
    obtain ⟨rfl,ha,hw,hy⟩ := describeFields_eq_ok l fs hk
    have he : l.fields ++ fieldShapes fs = before.fields ++ fieldShapes (.mandatory name t :: fs) := by
      rw [(FieldList.pushMandatory_eq_ok hp).2]
      exact List.append_assoc ..
    rw [← he]
    exact ⟨rfl,ha.mandatory hp,⟨htw,hw⟩,hty.bind (hly.bind hy)⟩
  | before, .compatible name version t :: fs, e, _, _, h => by
    obtain ⟨d,u,ht,h⟩ := EStateM.bind_eq_ok.mp h
    obtain ⟨l,w,hl,hk⟩ := EStateM.bind_eq_ok.mp h
    obtain ⟨rfl,htw,hty⟩ := describe_eq_ok t ht
    obtain rfl := hty.state_eq ht
    have hp := Describe.lift_eq_ok hl
    have hly : Yields (Describe.lift (before.pushCompatible name version t.shape)) u l :=
      hp ▸ .pure u l
    obtain rfl := hly.state_eq hl
    obtain ⟨rfl,ha,hw,hy⟩ := describeFields_eq_ok l fs hk
    have he : l.fields ++ fieldShapes fs =
        before.fields ++ fieldShapes (.compatible name version t :: fs) := by
      rw [(FieldList.pushCompatible_eq_ok hp).2.2]
      exact List.append_assoc ..
    rw [← he]
    exact ⟨rfl,ha.compatible hp,⟨htw,hw⟩,hty.bind (hly.bind hy)⟩
  | before, .skipped name t default :: fs, e, _, _, h => by
    obtain ⟨rfl,ha,hw,hy⟩ := describeFields_eq_ok before fs h
    exact ⟨rfl,ha.skipped,hw,hy⟩

theorem describeAlternatives_eq_ok : ∀ (typeName : String) (as : List Alternative)
    {e e' : List String} {ds : List AlternativeDescriptor},
    describeAlternatives typeName as e = .ok ds e' →
      ds = alternativeShapes as ∧ (alternativeShapes as).length = as.length ∧
        AlternativesWellFormed as ∧ Yields (describeAlternatives typeName as) e (alternativeShapes as)
  | _, [], e, _, _, h => by
    obtain ⟨rfl,-⟩ := EStateM.pure_eq_ok.mp h
    exact ⟨rfl,rfl,trivial,.pure e _⟩
  | typeName, .mk name _ fields :: as, e, _, _, h => by
    obtain ⟨d,u,hf,h⟩ := EStateM.bind_eq_ok.mp h
    obtain ⟨ds,w,hs,h⟩ := EStateM.bind_eq_ok.mp h
    obtain ⟨rfl,-⟩ := EStateM.pure_eq_ok.mp h
    obtain ⟨rfl,ha,hfw,hfy⟩ := describeFields_eq_ok ⟨typeName,false,[]⟩ fields hf
    obtain rfl := hfy.state_eq hf
    obtain ⟨rfl,hl,hsw,hsy⟩ := describeAlternatives_eq_ok typeName as hs
    exact ⟨rfl,congrArg (· + 1) hl,⟨ha.noCompatible rfl,hfw,hsw⟩,
      hfy.bind (hsy.bind (.pure u _))⟩

end

/-- An accepted type has the descriptor that is its shape. -/
theorem descriptor_eq_ok {t : Schema} {d : Descriptor} (h : t.descriptor = .ok d) :
    d = t.shape ∧ t.WellFormed := by
  obtain ⟨e,he⟩ := Describe.outcome_eq_ok.mp h
  obtain ⟨hd,hw,-⟩ := describe_eq_ok t he
  exact ⟨hd,hw⟩

/-- A type that can be described inside others can be described outside of them. -/
theorem descriptor_of_yields {t : Schema} {e : List String} (h : Yields t.describe e t.shape) :
    t.descriptor = .ok t.shape :=
  Describe.outcome_eq_ok.mpr ⟨[],h [] (List.nil_subset e)⟩

end Schema
end RecordCodec
