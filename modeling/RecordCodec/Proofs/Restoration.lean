import RecordCodec.Descriptor.Describe
import RecordCodec.Proofs.Shape

/-! # Descriptions leave the types around them as they are

A description is made of a few operations: it enters a type and leaves it again, fails, or goes on
with what came of another description, be it a failure. Whatever comes of it and at whatever depth,
the types that it is inside of are afterwards those of before. So types that are described one after
another, some of them without a shape, are described as each of them alone.
-/
namespace RecordCodec

namespace Describe

variable {α β : Type} {x : Describe α} {f : α → Describe β} {raises : Error → Prop}

def attempt (x : Describe α) : Describe (Except Error α) := fun e =>
  match x e with
  | .ok a e => .ok (.ok a) e
  | .error err e => .ok (.error err) e

def each : List (Describe α) → Describe (List (Except Error α))
  | [] => pure []
  | x :: xs => do
    let outcome ← attempt x
    let outcomes ← each xs
    pure (outcome :: outcomes)

/-- A description that is made of the operations of descriptions, and of its own accord fails only
with errors that it `raises`. -/
inductive Made (raises : Error → Prop) : {α : Type} → Describe α → Prop
  | pure {α : Type} (a : α) : Made raises (pure a : Describe α)
  | throw {α : Type} {e : Error} (h : raises e) : Made raises (throw e : Describe α)
  | bind {α β : Type} {x : Describe α} {f : α → Describe β} (h : Made raises x)
    (k : ∀ a, Made raises (f a)) : Made raises (x >>= f)
  | attempt {α : Type} {x : Describe α} (h : Made raises x) : Made raises (attempt x)
  | within {α : Type} {x : Describe α} {typeName : String} (hc : raises (.cyclicType typeName))
    (h : Made raises x) : Made raises (within typeName x)

/-- Whatever comes of a description, the types around it stay; if it fails, it does so with one of
some errors. -/
def Restores (raises : Error → Prop) (x : Describe α) : Prop :=
  ∀ e, (∃ a, x e = .ok a e) ∨ ∃ err, x e = .error err e ∧ raises err

theorem Restores.bind (h : Restores raises x) (k : ∀ a, Restores raises (f a)) :
    Restores raises (x >>= f) := by
  intro e
  rcases h e with ⟨a,ha⟩ | ⟨err,herr,hr⟩
  · have hx : (x >>= f) e = f a e := EStateM.bind_of_ok f ha
    rw [hx]
    exact k a e
  · exact .inr ⟨err,EStateM.bind_of_error f herr,hr⟩

theorem Restores.attempt (h : Restores raises x) : Restores raises (attempt x) := by
  intro e
  unfold Describe.attempt
  rcases h e with ⟨a,ha⟩ | ⟨err,herr,-⟩
  · exact .inl ⟨.ok a,by rw [ha]⟩
  · exact .inl ⟨.error err,by rw [herr]⟩

/-- The type that is entered is the one that is left, because its parts leave it where it was. -/
theorem Restores.within {typeName : String} (hc : raises (.cyclicType typeName))
    (h : Restores raises x) : Restores raises (within typeName x) := by
  intro e
  unfold Describe.within
  by_cases hn : typeName ∈ e
  · rw [if_pos hn]
    exact .inr ⟨_,rfl,hc⟩
  · rw [if_neg hn]
    rcases h (typeName :: e) with ⟨a,ha⟩ | ⟨err,herr,hr⟩
    · exact .inl ⟨a,by rw [ha]; rfl⟩
    · exact .inr ⟨err,by rw [herr]; rfl,hr⟩

theorem Made.restores (h : Made raises x) : Restores raises x := by
  induction h with
  | pure a => exact fun e => .inl ⟨a,rfl⟩
  | throw h => exact fun e => .inr ⟨_,rfl,h⟩
  | bind _ _ ih ihf => exact ih.bind ihf
  | attempt _ ih => exact ih.attempt
  | within hc _ ih => exact ih.within hc

theorem Restores.attempt_eq (h : Restores raises x) (e : List String) :
    Describe.attempt x e = .ok (outcome x e) e := by
  unfold Describe.attempt outcome
  rcases h e with ⟨a,ha⟩ | ⟨err,herr,-⟩
  · rw [ha]
  · rw [herr]

theorem each_eq {xs : List (Describe α)} (h : ∀ x ∈ xs, Restores raises x) (e : List String) :
    each xs e = .ok (xs.map (outcome · e)) e := by
  induction xs with
  | nil => rfl
  | cons x xs ih =>
    have hx := (h x (List.mem_cons_self ..)).attempt_eq e
    have hxs := ih fun y hy => h y (List.mem_cons_of_mem _ hy)
    exact (EStateM.bind_of_ok _ hx).trans (EStateM.bind_of_ok _ hxs)

theorem Made.aggregate {typeName : String} {extensible : Bool}
    {fields : Describe (List FieldDescriptor)} (hc : raises (.cyclicType typeName))
    (h : Made raises fields) : Made raises (aggregate typeName extensible fields) :=
  (h.within hc).bind fun _ => .pure _

theorem Made.variant {typeName : String} {alternatives : Describe (List AlternativeDescriptor)}
    (hc : raises (.cyclicType typeName)) (hm : raises (.invalidShape typeName .alternatives))
    (h : Made raises alternatives) : Made raises (variant typeName alternatives) := by
  refine (h.within hc).bind fun as => ?_
  have hp : Made raises (Pure.pure (Descriptor.variant typeName as)) := .pure _
  split
  · exact (Made.throw hm).bind fun _ => hp
  · exact hp

end Describe

namespace FieldList

def add (l : FieldList) : Field → Describe FieldList
  | .mandatory name t => do
    let shape ← t.describe
    Describe.lift (l.pushMandatory name shape)
  | .compatible name version t => do
    let shape ← t.describe
    Describe.lift (l.pushCompatible name version shape)
  | .skipped .. => pure l

def addComponent (l : FieldList) (name : String) (t : Schema) : Describe FieldList := do
  let shape ← t.describe
  pure { l with fields := l.fields ++ [⟨name, shape, none⟩] }

end FieldList

namespace Schema

open Describe (Made Restores aggregate variant each each_eq outcome attempt)

def Shapeless (e : Error) : Prop :=
  (∃ typeName, e = .cyclicType typeName) ∨ ∃ typeName fault, e = .invalidShape typeName fault

theorem shapeless_cyclicType (n : String) : Shapeless (.cyclicType n) := .inl ⟨n,rfl⟩

theorem shapeless_invalidShape (n : String) (f : ShapeFault) : Shapeless (.invalidShape n f) :=
  .inr ⟨n,f,rfl⟩

theorem describeFields_cons (l : FieldList) (f : Field) (fs : List Field) :
    describeFields l (f :: fs) = l.add f >>= fun l => describeFields l fs := by
  cases f with
  | mandatory name t => exact (bind_assoc ..).symm
  | compatible name version t => exact (bind_assoc ..).symm
  | skipped name t default => rfl

theorem made_pushMandatory (l : FieldList) (name : String) (shape : Descriptor) :
    Made Shapeless (Describe.lift (l.pushMandatory name shape)) := by
  unfold FieldList.pushMandatory
  split
  · exact .throw (shapeless_invalidShape _ _)
  · exact .pure _

theorem made_pushCompatible (l : FieldList) (name : String) (version : Nat) (shape : Descriptor) :
    Made Shapeless (Describe.lift (l.pushCompatible name version shape)) := by
  unfold FieldList.pushCompatible
  split
  · exact .throw (shapeless_invalidShape _ _)
  · exact .pure _

mutual

theorem made_describe : ∀ t : Schema, Made Shapeless t.describe
  | unit | scalar _ | text => .pure _
  | duration => .aggregate (shapeless_cyclicType _) (.pure _)
  | sequence t | set t | array t _ | option t => (made_describe t).bind fun _ => .pure _
  | map k v => (made_describe k).bind fun _ => (made_describe v).bind fun _ => .pure _
  | tuple ts => .aggregate (shapeless_cyclicType _) (made_describeComponents 0 ts)
  | pointer _ t => made_describe t
  | compatible t _ => (made_describe t).bind fun _ => .throw (shapeless_invalidShape _ _)
  | struct n _ fs => .aggregate (shapeless_cyclicType n) (made_describeFields ⟨n,true,[]⟩ fs)
  | enum n _ as =>
    .variant (shapeless_cyclicType n) (shapeless_invalidShape _ _) (made_describeAlternatives n as)
  | named n t => by
    rcases describe_named n t with ⟨p,version,rfl⟩ | h
    · exact (made_describe p).bind fun _ => .throw (shapeless_invalidShape _ _)
    · rw [h]
      exact made_describe t
  | reference n => .throw (shapeless_cyclicType n)

theorem made_describeComponents : ∀ (index : Nat) (ts : List Schema),
    Made Shapeless (describeComponents index ts)
  | _, [] => .pure _
  | index, t :: ts =>
    (made_describe t).bind fun _ => (made_describeComponents (index + 1) ts).bind fun _ => .pure _

theorem made_add : ∀ (l : FieldList) (f : Field), Made Shapeless (l.add f)
  | l, .mandatory name t => (made_describe t).bind fun shape => made_pushMandatory l name shape
  | l, .compatible name version t =>
    (made_describe t).bind fun shape => made_pushCompatible l name version shape
  | l, .skipped .. => .pure l

theorem made_describeFields : ∀ (l : FieldList) (fs : List Field),
    Made Shapeless (describeFields l fs)
  | _, [] => .pure _
  | l, f :: fs => by
    rw [describeFields_cons]
    exact (made_add l f).bind fun l => made_describeFields l fs

theorem made_describeAlternatives : ∀ (typeName : String) (as : List Alternative),
    Made Shapeless (describeAlternatives typeName as)
  | _, [] => .pure _
  | typeName, .mk _ _ fields :: as =>
    (made_describeFields ⟨typeName,false,[]⟩ fields).bind fun _ =>
      (made_describeAlternatives typeName as).bind fun _ => .pure _

end

/-- Whatever is described and whatever comes of it, at any depth, the types around it are afterwards
those of before. This holds of every type, of every further field of a struct, an alternative or a
tuple, and of aggregates and variants with whatever their parts are described by. So one description
after another comes to what each comes to alone. -/
theorem describe_restores :
    (∀ t : Schema, Restores Shapeless t.describe) ∧
      (∀ (l : FieldList) (f : Field), Restores Shapeless (l.add f)) ∧
      (∀ (l : FieldList) (name : String) (t : Schema),
        Restores Shapeless (l.addComponent name t)) ∧
      (∀ (typeName : String) (extensible : Bool) (fields : Describe (List FieldDescriptor)),
        Made (fun _ => True) fields →
          Restores (fun _ => True) (aggregate typeName extensible fields)) ∧
      (∀ (typeName : String) (alternatives : Describe (List AlternativeDescriptor)),
        Made (fun _ => True) alternatives →
          Restores (fun _ => True) (variant typeName alternatives)) ∧
      (∀ (xs : List (Describe Descriptor)) (e : List String),
        (∀ x ∈ xs, Made (fun _ => True) x) → each xs e = .ok (xs.map (outcome · e)) e) ∧
      ∀ ts : List Schema, each (ts.map describe) [] = .ok (ts.map descriptor) [] := by
  refine ⟨fun t => (made_describe t).restores,fun l f => (made_add l f).restores,?_,?_,?_,?_,?_⟩
  · intro l name t
    exact ((made_describe t).bind fun _ => .pure _).restores
  · intro typeName extensible fields h
    exact (Made.aggregate trivial h).restores
  · intro typeName alternatives h
    exact (Made.variant trivial trivial h).restores
  · intro xs e h
    exact each_eq (fun x hx => (h x hx).restores) e
  · intro ts
    have hr : ∀ x ∈ ts.map describe, Restores Shapeless x := by
      intro x hx
      obtain ⟨t,-,rfl⟩ := List.mem_map.mp hx
      exact (made_describe t).restores
    rw [each_eq hr, List.map_map]
    exact congrArg (EStateM.Result.ok · []) (List.map_congr_left fun _ _ => rfl)

def shelfFields : Describe (List FieldDescriptor) := do
  match ← attempt (aggregate "Shelf" true (pure [])) with
  | .ok inner => pure [⟨"inner", inner, none⟩]
  | .error _ => pure []

/-- A type without a shape inside another of these, a type that is met inside itself, and one behind
both. -/
def lots : List Schema :=
  [.tuple [.struct "Lot" .named [.compatible "note" 1 .text, .mandatory "id" (.scalar .u8)]],
    .struct "Ring" .named [.mandatory "next" (.option (.reference "Ring"))],
    .tuple [.struct "Lot" .unit []]]

theorem describe_restores_shelf :
    (∃ d, aggregate "Shelf" true shelfFields ["Room"] = .ok d ["Room"]) ∧
      each (lots.map describe) [] =
        .ok [.error (.invalidShape "Lot" (.late "id")), .error (.cyclicType "Ring"),
          .ok (.aggregate "(Lot,)" [⟨"0", .aggregate "Lot" [] true, none⟩] false)] [] := by
  have hfields : Made (fun _ => True) shelfFields := by
    refine (Made.attempt (.aggregate trivial (.pure _))).bind fun outcome => ?_
    cases outcome with
    | ok inner => exact .pure _
    | error e => exact .pure _
  obtain ⟨-,-,-,haggregate,-,-,heach⟩ := describe_restores
  constructor
  · rcases haggregate "Shelf" true shelfFields hfields ["Room"] with h | ⟨err,herr,-⟩
    · exact h
    · cases herr
  · exact heach lots

end Schema
end RecordCodec
