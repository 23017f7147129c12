import RecordCodec.Code.Render
import RecordCodec.Proofs.Marks

/-! # What code is generated for

An item's description, writing and reading are planned apart from each other. They are planned for
the same items: all but unions and those with a malformed or unknown attribute.
-/
namespace RecordCodec.Code

/-- Whether a declared field is marked to be skipped. -/
def FieldItem.isSkipped (f : FieldItem) : Bool := f.attributes.any Attribute.isMark

/-- A declared field as generated code sees it in its place. -/
def FieldItem.seen (place : Nat) (f : FieldItem) : CodecField where
  member :=
    match f.word with
    | some w => .word w
    | none => .position place
  name :=
    match f.word with
    | some w => plainName w
    | none => toString place
  binding := s!"__field_{place}"
  type := f.type
  isSkipped := f.isSkipped

namespace FieldItems

variable (fs : FieldItems)

def Accepted : Prop := ∀ f ∈ fs.fields, ∀ a ∈ f.attributes, a.Accepted

/-- The fields in the order of their declaration. -/
def seen : List CodecField := fs.fields.zipIdx.map fun p => p.1.seen p.2

/-- The fields that are not marked, in the order of their declaration. -/
def kept : List CodecField :=
  (fs.fields.zipIdx.filter fun p => !p.1.isSkipped).map fun p => p.1.seen p.2

theorem held_seen : CodecField.held fs.seen = fs.kept := List.filter_map

/-- The names that patterns bind fields to are distinct. -/
theorem nodup_bindings : (fs.seen.map CodecField.binding).Nodup := by
  have hb : fs.seen.map CodecField.binding =
      (List.range fs.fields.length).map fun i => s!"__field_{i}" := by
    unfold seen
    rw [List.map_map, List.range_eq_range', ← List.zipIdx_map_snd 0 fs.fields, List.map_map]
    rfl
  rw [hb]
  refine List.Pairwise.map _ ?_ List.nodup_range
  intro i j hij h
  have hs : i.repr = j.repr := (String.append_right_inj _).mp h
  have hd : Nat.toDigits 10 i = Nat.toDigits 10 j := by
    rw [← Nat.toList_repr, hs, Nat.toList_repr]
  have hv := congrArg (Nat.ofDigitChars 10 · 0) hd
  rw [Nat.ofDigitChars_toDigits (by decide) (by decide),
    Nat.ofDigitChars_toDigits (by decide) (by decide)] at hv
  exact hij hv

end FieldItems

theorem mapM_marks {as : List Attribute} {bs : List Bool} :
    as.mapM Skip.marks = .ok bs ↔ (∀ a ∈ as, a.Accepted) ∧ bs = as.map Attribute.isMark := by
  induction as generalizing bs with
  | nil => simp [eq_comm, pure, Except.pure]
  | cons a as ih =>
    rw [List.mapM_cons, Except.bind_eq_ok, List.forall_mem_cons]
    constructor
    · rintro ⟨b,hb,h⟩
      obtain ⟨bs,hbs,h⟩ := Except.bind_eq_ok.mp h
      obtain ⟨ha,rfl⟩ := Skip.marks_eq_ok.mp hb
      obtain ⟨has,rfl⟩ := ih.mp hbs
      cases h
      exact ⟨⟨ha,has⟩,rfl⟩
    · rintro ⟨⟨ha,has⟩,rfl⟩
      exact ⟨_,Skip.marks_eq_ok.mpr ⟨ha,rfl⟩,Except.bind_eq_ok.mpr ⟨_,ih.mpr ⟨has,rfl⟩,rfl⟩⟩

theorem ofItems_eq_ok {place : Nat} {fs : List FieldItem} {found : List CodecField} :
    CodecField.ofItems place fs = .ok found ↔
      (∀ f ∈ fs, ∀ a ∈ f.attributes, a.Accepted) ∧
        found = (fs.zipIdx place).map fun p => p.1.seen p.2 := by
  induction fs generalizing place found with
  | nil => simp [CodecField.ofItems, eq_comm]
  | cons f fs ih =>
    have hseen (marked : List Bool) (h : marked = f.attributes.map Attribute.isMark) :
        f.seen place = { f.seen place with isSkipped := marked.any id } := by
      rw [h, List.any_map]
      rfl
    rw [List.forall_mem_cons, List.zipIdx_cons, List.map_cons]
    constructor
    · intro h
      obtain ⟨marked,hm,h⟩ := Except.bind_eq_ok.mp h
      obtain ⟨rest,hr,h⟩ := Except.bind_eq_ok.mp h
      obtain ⟨hf,hm⟩ := mapM_marks.mp hm
      obtain ⟨hfs,rfl⟩ := ih.mp hr
      cases h
      exact ⟨⟨hf,hfs⟩,congrArg (· :: _) (hseen _ hm).symm⟩
    · rintro ⟨⟨hf,hfs⟩,rfl⟩
      rw [hseen _ rfl]
      exact Except.bind_eq_ok.mpr ⟨_,mapM_marks.mpr ⟨hf,rfl⟩,
        Except.bind_eq_ok.mpr ⟨_,ih.mpr ⟨hfs,rfl⟩,rfl⟩⟩

theorem alternativeFields_eq_ok {place : Nat} {as : List AlternativeItem}
    {found : List (Nat × AlternativeItem × List CodecField)} :
    alternativeFields place as = .ok found ↔
      (∀ a ∈ as, a.fields.Accepted) ∧
        found = (as.zipIdx place).map fun p => (p.2,p.1,p.1.fields.seen) := by
  induction as generalizing place found with
  | nil => simp [alternativeFields, eq_comm]
  | cons a as ih =>
    rw [List.forall_mem_cons, List.zipIdx_cons, List.map_cons]
    constructor
    · intro h
      obtain ⟨fields,hf,h⟩ := Except.bind_eq_ok.mp h
      obtain ⟨rest,hr,h⟩ := Except.bind_eq_ok.mp h
      obtain ⟨ha,rfl⟩ := ofItems_eq_ok.mp hf
      obtain ⟨has,rfl⟩ := ih.mp hr
      cases h
      exact ⟨⟨ha,has⟩,rfl⟩
    · rintro ⟨⟨ha,has⟩,rfl⟩
      exact Except.bind_eq_ok.mpr ⟨_,ofItems_eq_ok.mpr ⟨ha,rfl⟩,
        Except.bind_eq_ok.mpr ⟨_,ih.mpr ⟨has,rfl⟩,rfl⟩⟩

/-- Whether code is generated for an item: it is no union, and its fields' attributes are
accepted. -/
def ItemBody.Accepted : ItemBody → Prop
  | .struct fs => fs.Accepted
  | .enum as => ∀ a ∈ as, a.fields.Accepted
  | .union => False

namespace ItemBody

/-- What is planned of an item once its fields are found. -/
def planned {β : Type} (struct : FieldItems → List CodecField → β)
    (enum : List AlternativeItem → List (Nat × AlternativeItem × List CodecField) → β)
    (fault : SyntaxError) : ItemBody → Except SyntaxError β
  | .struct fs => do pure (struct fs (← CodecField.ofItems 0 fs.fields))
  | .enum as => do pure (enum as (← alternativeFields 0 as))
  | .union => .error fault

variable {β : Type} {struct : FieldItems → List CodecField → β} {fault : SyntaxError}
  {enum : List AlternativeItem → List (Nat × AlternativeItem × List CodecField) → β}

theorem planned_struct {fs : FieldItems} (h : fs.Accepted) :
    planned struct enum fault (.struct fs) = .ok (struct fs fs.seen) :=
  Except.bind_eq_ok.mpr ⟨_,ofItems_eq_ok.mpr ⟨h,rfl⟩,rfl⟩

theorem planned_enum {as : List AlternativeItem} (h : ∀ a ∈ as, a.fields.Accepted) :
    planned struct enum fault (.enum as) =
      .ok (enum as (as.zipIdx.map fun p => (p.2,p.1,p.1.fields.seen))) :=
  Except.bind_eq_ok.mpr ⟨_,alternativeFields_eq_ok.mpr ⟨h,rfl⟩,rfl⟩

/-- A plan is made exactly if the item is accepted. -/
theorem exists_planned {body : ItemBody} :
    (∃ b, body.planned struct enum fault = .ok b) ↔ body.Accepted := by
  constructor
  · rintro ⟨b,h⟩
    cases body with
    | struct fs =>
      obtain ⟨_,hf,-⟩ := Except.bind_eq_ok.mp h
      exact (ofItems_eq_ok.mp hf).1
    | «enum» as =>
      obtain ⟨_,hf,-⟩ := Except.bind_eq_ok.mp h
      exact (alternativeFields_eq_ok.mp hf).1
    | union => cases h
  · intro h
    cases body with
    | struct fs => exact ⟨_,planned_struct h⟩
    | «enum» as => exact ⟨_,planned_enum h⟩
    | union => exact h.elim

end ItemBody

namespace Item

variable (item : Item)

theorem describing_eq : item.describing =
    item.body.planned (fun _ all => .aggregate (CodecField.held all))
      (fun _ found =>
        .variant (found.map fun (_, a, fields) => (plainName a.word,CodecField.held fields)))
      (.union "Shape" "") := by
  unfold describing
  cases item.body <;> rfl

theorem writing_eq : item.writing =
    item.body.planned
      (fun _ all =>
        .struct ⟨CodecField.held all,CodecField.held all⟩ ⟨CodecField.held all,CodecField.held all⟩)
      (fun as found => .enum (found.map fun (i, a, fields) =>
        ⟨a.word,⟨a.fields.style,fields⟩,i,as.length,CodecField.held fields⟩))
      (.union "Encode" " due to memory safety concerns") := by
  unfold writing
  cases item.body <;> rfl

theorem reading_eq : item.reading =
    item.body.planned (fun fs all => .struct ⟨fs.style,all⟩ (CodecField.held all))
      (fun as found => .enum item.word as.length (found.map fun (i, a, fields) =>
        ⟨a.word,i,⟨a.fields.style,fields⟩⟩))
      (.union "Decode" " due to memory safety concerns") := by
  unfold reading
  cases item.body <;> rfl

theorem exists_code {α β ε : Type} {x : Except ε α} (f : α → β) :
    (∃ b, (do pure (f (← x)) : Except ε β) = .ok b) ↔ ∃ a, x = .ok a := by
  constructor
  · rintro ⟨_,h⟩
    obtain ⟨a,ha,-⟩ := Except.bind_eq_ok.mp h
    exact ⟨a,ha⟩
  · rintro ⟨a,rfl⟩
    exact ⟨f a,rfl⟩

end Item
end RecordCodec.Code
