import RecordCodec.Proofs.References

/-! # Descriptions of families

The description of a type from a family of declarations is a walk through the family: it ends where
a type is met inside itself, it succeeds exactly for the valid types, and otherwise it reports the
first violation that the walk meets.
-/
namespace RecordCodec

namespace Describe

variable {α β : Type} {e : List String}

/-- A description reports the first of some violations, and succeeds if there are none. -/
def Reports (x : Describe α) (e : List String) : List Violation → Prop
  | [] => ∃ a, x e = .ok a e
  | v :: _ => x e = .error v.error e

theorem Reports.bind {x : Describe α} {f : α → Describe β} {us vs : List Violation}
    (h : Reports x e us) (k : ∀ a, x e = .ok a e → Reports (f a) e vs) :
    Reports (x >>= f) e (us ++ vs) := by
  cases us with
  | nil =>
    obtain ⟨a,ha⟩ := h
    have hx : (x >>= f) e = f a e := EStateM.bind_of_ok f ha
    have hk := k a ha
    cases vs with
    | nil => exact hk.imp fun b hb => hx.trans hb
    | cons v vs => exact hx.trans hk
  | cons u us => exact EStateM.bind_of_error f h

theorem Reports.within {x : Describe α} {typeName : String} {vs : List Violation}
    (hn : typeName ∉ e) (h : Reports x (typeName :: e) vs) : Reports (within typeName x) e vs := by
  have hx := within_of_not_mem x hn
  cases vs with
  | nil =>
    obtain ⟨a,ha⟩ := h
    rw [ha] at hx
    exact ⟨a,hx⟩
  | cons v vs =>
    rw [show x (typeName :: e) = _ from h] at hx
    exact hx

/-- What follows the parts of a type without a look at the types around may as well be done inside
of it. -/
theorem within_bind_lift (typeName : String) (x : Describe α) (g : α → Except Error β) :
    (within typeName x >>= fun a => lift (g a)) = within typeName (x >>= fun a => lift (g a)) := by
  funext e
  by_cases hn : typeName ∈ e
  · rw [EStateM.bind_of_error _ (within_of_mem x hn), within_of_mem _ hn]
  · have hw := within_of_not_mem x hn
    rw [within_of_not_mem _ hn]
    cases hx : x (typeName :: e) with
    | ok a inner =>
      rw [hx] at hw
      rw [EStateM.bind_of_ok _ hx, EStateM.bind_of_ok _ hw]
      cases g a <;> rfl
    | error err inner =>
      rw [hx] at hw
      rw [EStateM.bind_of_error _ hx, EStateM.bind_of_error _ hw]

end Describe

open Describe (Reports within lift)

/-- A description goes through the stops and reports the first violation that is met at them. -/
def Family.Traces (family : Family) {α : Type} (x : Describe α) (e : List String)
    (stops : List Stop) : Prop := ∃ vs, family.Meets e stops vs ∧ Reports x e vs

namespace Family

variable {family : Family} {α β : Type} {e : List String} {t : Schema} {typeName : String}
  {xs ys : List Stop}

theorem Traces.pure (family : Family) (e : List String) (a : α) :
    family.Traces (pure a) e [] := ⟨[],.nil e,a,rfl⟩

theorem Traces.bind_of_ok {x : Describe α} {f : α → Describe β} (h : family.Traces x e xs)
    (hy : ∃ vs, family.Meets e ys vs) (k : ∀ a, x e = .ok a e → family.Traces (f a) e ys) :
    family.Traces (x >>= f) e (xs ++ ys) := by
  obtain ⟨us,hu,hx⟩ := h
  obtain ⟨vs,hv⟩ := hy
  refine ⟨us ++ vs,hu.append hv,hx.bind fun a ha => ?_⟩
  obtain ⟨vs',hv',hf⟩ := k a ha
  rw [hv.unique hv']
  exact hf

/-- One description behind another: the walk goes on behind a violation, although the second
description is not made. -/
theorem Traces.bind [Nonempty α] {x : Describe α} {f : α → Describe β} (h : family.Traces x e xs)
    (k : ∀ a, family.Traces (f a) e ys) : family.Traces (x >>= f) e (xs ++ ys) :=
  h.bind_of_ok ((k Classical.ofNonempty).imp fun _ hv => hv.1) fun a _ => k a

theorem Traces.bind_pure {x : Describe α} {g : α → β} (h : family.Traces x e xs) :
    family.Traces (x >>= fun a => Pure.pure (g a)) e xs := by
  have hx := h.bind_of_ok ⟨[],.nil e⟩ fun a _ => Traces.pure family e (g a)
  rwa [List.append_nil] at hx

/-- A fault stops a description, and the walk goes on. -/
theorem Traces.fault {x : Describe α} (fault : ShapeFault)
    (h : family.Traces x e xs) :
    family.Traces (throw (.invalidShape typeName fault) : Describe β) e
      (.fault typeName fault :: xs) := by
  obtain ⟨vs,hv,-⟩ := h
  exact ⟨_,.fault typeName fault hv,rfl⟩

theorem Traces.misplaced {x : Describe α} (h : family.Traces x e [.type t]) (typeName : String) :
    family.Traces (x >>= fun _ => (throw (.invalidShape typeName .misplaced) : Describe β)) e
      [.type t, .fault typeName .misplaced] := by
  refine h.bind_of_ok ⟨_,.fault typeName .misplaced (.nil e)⟩ fun _ _ => ?_
  exact (Traces.pure family e ()).fault .misplaced

/-- A type that opens nothing is described as its parts are. -/
theorem Traces.plain {x : Describe α} (ho : t.opened? = none)
    (h : family.Traces x e (family.stops t)) : family.Traces x e [.type t] := by
  obtain ⟨vs,hv,hx⟩ := h
  refine ⟨vs ++ [],.enter (by simp [ho]) ?_ (.nil e),?_⟩
  · rw [ho]
    exact hv
  · rwa [List.append_nil]

/-- A type is described inside of itself, unless it is met there. -/
theorem Traces.opened {x : Describe α} {g : α → Except Error β} (ho : t.opened? = some typeName)
    (h : typeName ∉ e →
      family.Traces (x >>= fun a => lift (g a)) (typeName :: e) (family.stops t)) :
    family.Traces (within typeName x >>= fun a => lift (g a)) e [.type t] := by
  rw [Describe.within_bind_lift]
  by_cases hn : typeName ∈ e
  · exact ⟨_,.reentry ho hn (.nil e),Describe.within_of_mem _ hn⟩
  · obtain ⟨vs,hv,hx⟩ := h hn
    refine ⟨vs ++ [],.enter ?_ ?_ (.nil e),?_⟩
    · intro n hn' hm
      rw [ho] at hn'
      cases hn'
      exact hn hm
    · rw [ho]
      exact hv
    · rw [List.append_nil]
      exact hx.within hn

theorem Traces.opened_pure {x : Describe α} {g : α → β} (ho : t.opened? = some typeName)
    (h : typeName ∉ e → family.Traces x (typeName :: e) (family.stops t)) :
    family.Traces (within typeName x >>= fun a => Pure.pure (g a)) e [.type t] :=
  Traces.opened (g := fun a => .ok (g a)) ho fun hn => (h hn).bind_pure

end Family

/-! ## Fields behind others -/

namespace FieldList

/-- The versions of the compatible fields. -/
def versions (l : FieldList) : List Nat := l.fields.filterMap (·.version)

/-- The fields with one more behind them. -/
def push (l : FieldList) (name : String) (shape : Descriptor) (version : Option Nat) : FieldList :=
  { l with fields := l.fields ++ [⟨name, shape, version⟩] }

variable {l : FieldList} {name : String} {shape : Descriptor}

@[simp] theorem versions_push (version : Option Nat) :
    (l.push name shape version).versions = l.versions ++ version.toList := by
  cases version <;> simp [versions, push]

theorem anyCompatible_iff (fs : List FieldDescriptor) :
    Descriptor.anyCompatible fs = true ↔ fs.filterMap (·.version) ≠ [] := by
  simp [Descriptor.anyCompatible, FieldOf.isCompatible, List.filterMap_eq_nil_iff,
    Option.isSome_iff_ne_none]

theorem length_compatibleFields (fs : List FieldDescriptor) :
    (Descriptor.compatibleFields fs).length = (fs.filterMap (·.version)).length := by
  rw [List.length_filterMap_eq_countP, Descriptor.compatibleFields, List.countP_eq_length_filter]
  rfl

theorem pushMandatory_eq (l : FieldList) (name : String) (t : Schema) (shape : Descriptor) :
    l.pushMandatory name shape =
      match (Field.mandatory name t).fault? l.admitsCompatible l.versions with
      | some fault => .error (.invalidShape l.owner fault)
      | none => .ok (l.push name shape none) := by
  unfold pushMandatory
  by_cases h : l.versions = []
  · have hn : ¬Descriptor.anyCompatible l.fields = true :=
      fun ha => (anyCompatible_iff l.fields).mp ha h
    rw [if_neg hn]
    simp [Field.fault?, h, push]
  · rw [if_pos ((anyCompatible_iff l.fields).mpr h)]
    simp [Field.fault?, h]

theorem compatibleFault_eq (l : FieldList) (name : String) (version : Nat) (t : Schema) :
    l.compatibleFault name version =
      (Field.compatible name version t).fault? l.admitsCompatible l.versions := by
  have hlast : l.lastVersion = l.versions.getLast? := rfl
  simp only [compatibleFault, Field.fault?, length_compatibleFields, Bool.not_eq_true', hlast]
  by_cases ha : l.admitsCompatible = false
  · rw [if_pos ha, if_pos ha]
  · rw [if_neg ha, if_neg ha, List.getLastD_eq_getLast?]
    cases hl : l.versions.getLast? with
    | none => rfl
    | some last =>
      by_cases hv : version < last
      · simp [Option.filter, hv]
      · simp only [Option.filter, decide_eq_true_eq, if_neg hv, Option.getD_some]
        rfl

theorem pushCompatible_eq (l : FieldList) (name : String) (version : Nat) (t : Schema)
    (shape : Descriptor) :
    l.pushCompatible name version shape =
      match (Field.compatible name version t).fault? l.admitsCompatible l.versions with
      | some fault => .error (.invalidShape l.owner fault)
      | none => .ok (l.push name shape (some version)) := by
  unfold pushCompatible
  rw [compatibleFault_eq l name version t]
  rfl

end FieldList

namespace Family

variable {family : Family} {e : List String} {xs : List Stop}

/-- A field is described behind others if it has no fault there. -/
theorem Traces.push {l l' : FieldList} {pushed : Except Error FieldList} {fault? : Option ShapeFault}
    {f : FieldList → Describe (List FieldDescriptor)}
    (hp : pushed = match fault? with
      | some fault => .error (.invalidShape l.owner fault)
      | none => .ok l')
    (h : family.Traces (f l') e xs) :
    family.Traces (lift pushed >>= f) e ((fault?.map (.fault l.owner)).toList ++ xs) := by
  subst hp
  cases fault? with
  | none => exact h
  | some fault => exact h.fault fault

end Family

namespace Family

open Schema

variable {family : Family} {e enclosing : List String} {t : Schema}
  {r : String → Describe Descriptor}

/-- Whether all types that a type refers to are declared. -/
def Covers (family : Family) (t : Schema) : Prop :=
  ∀ n, family.Reaches t (.reference n) → ∃ u, family.lookup n = some u

theorem Covers.inside {u : Schema} (h : family.Covers t) (hu : family.Inside t u) :
    family.Covers u := fun n hn => h n (.head hu hn)

/-- Whether names are described as their declarations inside the types `enclosing`. -/
def Resolves (family : Family) (r : String → Describe Descriptor) (enclosing : List String) :
    Prop :=
  ∀ n e, enclosing ⊆ e → family.Covers (.reference n) →
    family.Traces (r n) e [.type (.reference n)]

/-- Whether all types are covered that a walk stops at. -/
def CoversAll (family : Family) (stops : List Stop) : Prop :=
  ∀ u, .type u ∈ stops → family.Covers u

theorem Covers.stops (h : family.Covers t) : family.CoversAll (family.stops t) :=
  fun _ hu => h.inside hu

theorem CoversAll.head {xs : List Stop} (h : family.CoversAll (.type t :: xs)) :
    family.Covers t := h t (List.mem_cons_self ..)

theorem CoversAll.left {xs ys : List Stop} (h : family.CoversAll (xs ++ ys)) :
    family.CoversAll xs := fun u hu => h u (List.mem_append_left _ hu)

theorem CoversAll.right {xs ys : List Stop} (h : family.CoversAll (xs ++ ys)) :
    family.CoversAll ys := fun u hu => h u (List.mem_append_right _ hu)

theorem CoversAll.tail {xs : List Stop} (h : family.CoversAll (.type t :: xs)) :
    family.CoversAll xs := fun u hu => h u (List.mem_cons_of_mem _ hu)

instance : Nonempty Descriptor := ⟨.unit⟩

theorem length_describeAlternativesBy {n : String} (as : List Alternative) {e' : List String}
    {ds : List AlternativeDescriptor} (h : describeAlternativesBy r n as e = .ok ds e') :
    ds.length = as.length := by
  induction as generalizing e e' ds with
  | nil =>
    obtain ⟨rfl,-⟩ := EStateM.pure_eq_ok.mp h
    rfl
  | cons a as ih =>
    obtain ⟨name,style,fields⟩ := a
    obtain ⟨d,f,-,h⟩ := EStateM.bind_eq_ok.mp h
    obtain ⟨ds,g,hds,h⟩ := EStateM.bind_eq_ok.mp h
    obtain ⟨rfl,-⟩ := EStateM.pure_eq_ok.mp h
    exact congrArg (· + 1) (ih hds)

theorem traces_enum {n : String} (label : String) {as : List Alternative}
    (h : family.Traces (describeAlternativesBy r n as) (n :: e)
      (as.flatMap fun a => Field.stops n false [] a.fields)) :
    family.Traces ((enum n label as).describeBy r) e [.type (enum n label as)] := by
  let g (described : List AlternativeDescriptor) : Except Error Descriptor :=
    if maxAlternatives < described.length then .error (.invalidShape n .alternatives)
    else .ok (.variant n described)
  have hg : (enum n label as).describeBy r =
      within n (describeAlternativesBy r n as) >>= fun d => lift (g d) := by
    change (_ >>= fun _ => _) = _
    refine congrArg _ (funext fun d => ?_)
    dsimp only [g]
    split <;> rfl
  rw [hg]
  refine Traces.opened rfl fun _ => ?_
  -- alternatives are counted after all of them are described, so that their faults come first
  have hl (d : List AlternativeDescriptor)
      (hd : describeAlternativesBy r n as (n :: e) = .ok d (n :: e)) : d.length = as.length :=
    length_describeAlternativesBy as hd
  by_cases hm : maxAlternatives < as.length
  · have hs : family.stops (enum n label as) =
        as.flatMap (fun a => Field.stops n false [] a.fields) ++ [.fault n .alternatives] :=
      congrArg _ (if_pos hm)
    rw [hs]
    refine h.bind_of_ok ⟨_,.fault n .alternatives (.nil _)⟩ fun d hd => ?_
    rw [show g d = _ from if_pos (hl d hd ▸ hm)]
    exact (Traces.pure family _ ()).fault .alternatives
  · have hs : family.stops (enum n label as) =
        as.flatMap (fun a => Field.stops n false [] a.fields) ++ [] := congrArg _ (if_neg hm)
    rw [hs]
    refine h.bind_of_ok ⟨_,.nil _⟩ fun d hd => ?_
    rw [show g d = _ from if_neg (hl d hd ▸ hm)]
    exact .pure family _ _

mutual

/-- The description of a type whose references are resolved is a walk through the type. -/
theorem traces_describeBy (hr : family.Resolves r enclosing) : ∀ (t : Schema) (e : List String),
    enclosing ⊆ t.opened?.toList ++ e → family.Covers t →
      family.Traces (t.describeBy r) e [.type t]
  | .unit, e, _, _ => (Traces.pure family e _).plain rfl
  | .scalar _, e, _, _ => (Traces.pure family e _).plain rfl
  | .text, e, _, _ => (Traces.pure family e _).plain rfl
  | .duration, _, _, _ => .opened_pure rfl fun _ => .pure ..
  | .sequence t, e, he, hc | .set t, e, he, hc | .array t _, e, he, hc | .option t, e, he, hc =>
    (traces_describeBy hr t e (subset_opened he t) hc.stops.head).bind_pure.plain rfl
  | .pointer _ t, e, he, hc =>
    (traces_describeBy hr t e (subset_opened he t) hc.stops.head).plain rfl
  | .map k v, e, he, hc =>
    ((traces_describeBy hr k e (subset_opened he k) hc.stops.head).bind fun _ =>
      (traces_describeBy hr v e (subset_opened he v) hc.stops.tail.head).bind_pure).plain rfl
  | .tuple ts, _, he, hc => .opened_pure rfl fun _ => traces_components hr 0 ts _ he hc.stops
  | .struct n _ fs, _, he, hc =>
    .opened_pure rfl fun _ => traces_fields hr fs ⟨n,true,[]⟩ _ he hc.stops
  | .enum n label as, e, he, hc =>
    traces_enum label (traces_alternatives hr n as (n :: e) he hc.stops.left)
  | .compatible t _, e, he, hc =>
    ((traces_describeBy hr t e (subset_opened he t) hc.stops.head).misplaced _).plain rfl
  | .named n (.compatible t _), e, he, hc =>
    ((traces_describeBy hr t e (subset_opened he t) hc.stops.head).misplaced n).plain rfl
  | .named _ .unit, e, he, hc | .named _ (.scalar _), e, he, hc | .named _ .text, e, he, hc
  | .named _ .duration, e, he, hc | .named _ (.sequence _), e, he, hc
  | .named _ (.set _), e, he, hc | .named _ (.map ..), e, he, hc | .named _ (.array ..), e, he, hc
  | .named _ (.option _), e, he, hc | .named _ (.tuple _), e, he, hc
  | .named _ (.pointer ..), e, he, hc | .named _ (.struct ..), e, he, hc
  | .named _ (.enum ..), e, he, hc | .named _ (.named ..), e, he, hc
  | .named _ (.reference _), e, he, hc =>
    (traces_describeBy hr _ e (subset_opened he _) hc.stops.head).plain rfl
  | .reference n, e, he, hc => hr n e he hc

theorem traces_components (hr : family.Resolves r enclosing) :
    ∀ (index : Nat) (ts : List Schema) (e : List String), enclosing ⊆ e →
      family.CoversAll (ts.map .type) →
        family.Traces (describeComponentsBy r index ts) e (ts.map .type)
  | _, [], e, _, _ => .pure family e _
  | index, t :: ts, e, he, hc =>
    (traces_describeBy hr t e (subset_opened he t) hc.head).bind fun _ =>
      (traces_components hr (index + 1) ts e he hc.tail).bind_pure

theorem traces_fields (hr : family.Resolves r enclosing) :
    ∀ (fs : List Field) (l : FieldList) (e : List String), enclosing ⊆ e →
      family.CoversAll (Field.stops l.owner l.admitsCompatible l.versions fs) →
        family.Traces (describeFieldsBy r l fs) e
          (Field.stops l.owner l.admitsCompatible l.versions fs)
  | [], _, e, _, _ => .pure family e _
  | .mandatory name t :: fs, l, e, he, hc => by
    refine (traces_describeBy hr t e (subset_opened he t) hc.head).bind fun shape => ?_
    refine Traces.push (l.pushMandatory_eq name t shape) ?_
    have h := traces_fields hr fs (l.push name shape none) e he
    rw [FieldList.versions_push, Option.toList_none, List.append_nil] at h
    exact h hc.tail.right
  | .compatible name version t :: fs, l, e, he, hc => by
    refine (traces_describeBy hr t e (subset_opened he t) hc.head).bind fun shape => ?_
    refine Traces.push (l.pushCompatible_eq name version t shape) ?_
    have h := traces_fields hr fs (l.push name shape (some version)) e he
    rw [FieldList.versions_push] at h
    exact h hc.tail.right
  | .skipped .. :: fs, l, e, he, hc => traces_fields hr fs l e he hc

theorem traces_alternatives (hr : family.Resolves r enclosing) :
    ∀ (typeName : String) (as : List Alternative) (e : List String), enclosing ⊆ e →
      family.CoversAll (as.flatMap fun a => Field.stops typeName false [] a.fields) →
        family.Traces (describeAlternativesBy r typeName as) e
          (as.flatMap fun a => Field.stops typeName false [] a.fields)
  | _, [], e, _, _ => .pure family e _
  | typeName, .mk _ _ fields :: as, e, he, hc =>
    (traces_fields hr fields ⟨typeName,false,[]⟩ e he hc.left).bind fun _ =>
      (traces_alternatives hr typeName as e he hc.right).bind_pure

end

theorem stops_reference {n : String} {u : Schema} (h : family.lookup n = some u) :
    family.stops (.reference n) = [.type u] := by simp [stops, h]

/-- A type described inside others is a walk, if more declarations may be described in each other
than are still to be opened. The check at the entry of a type ends it, not the bound. -/
theorem traces_describe (hf : family.WellNamed) {more : Nat} (hd : enclosing.Nodup)
    (hs : enclosing ⊆ family.map (·.1)) (hl : family.length < more + enclosing.length)
    (he : enclosing ⊆ t.opened?.toList ++ e) (hc : family.Covers t) :
    family.Traces (family.describe more t) e [.type t] := by
  induction more generalizing enclosing t e with
  | zero =>
    have hle := length_le_of_nodup hd hs
    omega
  | succ more ih =>
    refine traces_describeBy (fun n e he hc => ?_) t e he hc
    obtain ⟨u,hu⟩ := hc n .refl
    have ho := hf n u hu
    have hs' := stops_reference hu
    simp only [hu]
    refine Traces.plain rfl ?_
    rw [hs']
    by_cases hn : n ∈ e
    · have hx : family.describe more u e = .error (.cyclicType n) e := describe_of_mem more ho hn
      exact ⟨_,.reentry ho hn (.nil e),hx⟩
    · -- a declaration that is not open takes one of those that may be described
      have hn' : (n :: enclosing).Nodup := List.nodup_cons.mpr ⟨fun hm => hn (he hm),hd⟩
      refine ih hn' (List.cons_subset.mpr ⟨mem_names hu,hs⟩) ?_ ?_ ?_
      · rw [List.length_cons]
        omega
      · rw [ho]
        exact List.cons_subset_cons n he
      · refine hc.inside ?_
        rw [Inside, hs']
        exact List.mem_singleton_self _

/-- A description of a type from a family of declarations is a walk that ends. It succeeds exactly
for the valid types, and for any other type it fails with the first violation of the walk. -/
theorem descriptor_unfold (hf : family.WellNamed) (hc : family.Covers t) :
    ∃ vs, family.Meets [] [.type t] vs ∧ (∀ us, family.Meets [] [.type t] us → us = vs) ∧
      (vs = [] ↔ family.Valid t) ∧
      ((∃ d, (family.unfold t).descriptor = .ok d) ↔ family.Valid t) ∧
      ∀ v us, vs = v :: us → (family.unfold t).descriptor = .error v.error := by
  rw [← descriptor_eq_unfold hf]
  obtain ⟨vs,hv,hx⟩ := traces_describe hf .nil (List.nil_subset _) (Nat.lt_succ_self _)
    (List.nil_subset _) hc
  have hvalid := hv.eq_nil_iff_valid
  refine ⟨vs,hv,fun us hu => hu.unique hv,hvalid,?_,?_⟩
  · rw [← hvalid]
    cases vs with
    | nil =>
      obtain ⟨d,hd⟩ := hx
      exact ⟨fun _ => rfl,fun _ => ⟨d,Describe.outcome_eq_ok.mpr ⟨[],hd⟩⟩⟩
    | cons v vs =>
      refine ⟨?_,(nomatch ·)⟩
      rintro ⟨d,hd⟩
      rw [Family.descriptor, Describe.outcome_of_error hx] at hd
      cases hd
  · rintro v us rfl
    exact Describe.outcome_of_error hx

/-- What is reached from a type stays among types that have all their parts among them. -/
theorem Reaches.mem {ts : List Schema} {u : Schema} (h : family.Reaches t u) (ht : t ∈ ts)
    (hp : ∀ a ∈ ts, ∀ b, family.Inside a b → b ∈ ts) : u ∈ ts := by
  induction h with
  | refl => exact ht
  | tail _ hb ih => exact hp _ ih _ hb

def node : Schema := .struct "Node" .named [.mandatory "next" (.option (.reference "Link"))]

def link : Schema :=
  .struct "Link" .positional [.mandatory "0" (.pointer .box (.reference "Node"))]

def leaf : Schema := .struct "Leaf" .named [.mandatory "mark" (phantom (.reference "Node"))]

/-- Nodes that own the next through a link, and leaves that only mention nodes. -/
def ring : Family := [("Node",node), ("Link",link), ("Leaf",leaf)]

example : ring.descriptor (.reference "Node") = .error (.cyclicType "Node") := rfl

theorem wellNamed_ring : ring.WellNamed := by
  intro n t h
  have hm := mem_of_lookup h
  simp only [ring, List.mem_cons, Prod.mk.injEq, List.not_mem_nil, or_false] at hm
  rcases hm with ⟨rfl,rfl⟩ | ⟨rfl,rfl⟩ | ⟨rfl,rfl⟩ <;> rfl

/-- The types that are reached in the ring. -/
def ringTypes : List Schema :=
  [.unit, .reference "Node", node, .option (.reference "Link"), .reference "Link", link,
    .pointer .box (.reference "Node"), .reference "Leaf", leaf, phantom (.reference "Node")]

theorem stops_ring {a : Schema} (ha : a ∈ ringTypes) :
    ring.stops a = [] ∨ ∃ b ∈ ringTypes, ring.stops a = [.type b] := by
  simp only [ringTypes, List.mem_cons, List.not_mem_nil, or_false] at ha
  rcases ha with rfl | rfl | rfl | rfl | rfl | rfl | rfl | rfl | rfl | rfl
  · exact .inl rfl
  all_goals exact .inr ⟨_,by simp [ringTypes],rfl⟩

theorem covers_ring (ht : t ∈ ringTypes) : ring.Covers t := by
  intro n hn
  have hm : .reference n ∈ ringTypes := hn.mem ht fun a ha b hb => by
    rcases stops_ring ha with hs | ⟨b',hb',hs⟩
    · simp [Inside, hs] at hb
    · simp only [Inside, hs, List.mem_singleton, Stop.type.injEq] at hb
      exact hb ▸ hb'
  have hname : n = "Node" ∨ n = "Link" ∨ n = "Leaf" := by
    simpa [ringTypes, node, link, leaf, phantom] using hm
  rcases hname with rfl | rfl | rfl
  · exact ⟨node,rfl⟩
  · exact ⟨link,rfl⟩
  · exact ⟨leaf,rfl⟩

theorem descriptor_unfold_ring :
    ¬ring.Valid (.reference "Node") ∧ ring.Valid (.reference "Leaf") := by
  have hcn : ring.Covers (.reference "Node") := covers_ring (by simp [ringTypes])
  have hcl : ring.Covers (.reference "Leaf") := covers_ring (by simp [ringTypes])
  obtain ⟨-,-,-,-,hn,-⟩ := descriptor_unfold wellNamed_ring hcn
  obtain ⟨-,-,-,-,hl,-⟩ := descriptor_unfold wellNamed_ring hcl
  constructor
  · intro hv
    obtain ⟨d,hd⟩ := hn.mpr hv
    cases hd
  · exact hl.mp ⟨_,rfl⟩

end Family
end RecordCodec
