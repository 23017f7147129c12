import RecordCodec.Proofs.Offsets
import RecordCodec.Proofs.Related

/-! # The fields of records

The fields of a struct or a tuple, whatever points to it, and which of them records hold something
of. Those are numbered in a layout; a numbered field has its layout, its bytes and its value in the
same place.
-/
namespace RecordCodec

namespace Field

def isSkipped : Field → Bool
  | skipped .. => true
  | _ => false

def schema : Field → Schema
  | mandatory _ t | compatible _ _ t | skipped _ t _ => t

/-- The fields of which records hold something, with the values that they have. -/
def described : List Field → List Value → List (Field × Value)
  | f :: fs, v :: vs => if f.isSkipped then described fs vs else (f,v) :: described fs vs
  | _, _ => []

/-- Whether a value of a field has bytes: an absent payload has none. -/
def isThere : Field → Value → Bool
  | compatible .., .absent => false
  | _, _ => true

/-- The components of a tuple as fields, named by their positions from `index` on. -/
def ofComponents (index : Nat) : List Schema → List Field
  | [] => []
  | t :: ts => mandatory (toString index) t :: ofComponents (index + 1) ts

end Field

namespace Schema

def recordFields? (t : Schema) : Option (List Field) :=
  match t.bare with
  | struct _ _ fields => some fields
  | tuple ts => some (Field.ofComponents 0 ts)
  | _ => none

end Schema

/-! ## The fields of a type -/

namespace Schema

theorem fieldShapes_ofComponents (index : Nat) (ts : List Schema) :
    fieldShapes (Field.ofComponents index ts) = componentShapes index ts := by
  induction ts generalizing index with
  | nil => rfl
  | cons t ts ih => exact congrArg (_ :: ·) (ih (index + 1))

theorem slotSchemas_ofComponents (index : Nat) (ts : List Schema) :
    Field.slotSchemas (Field.ofComponents index ts) = [] := by
  induction ts generalizing index with
  | nil => rfl
  | cons t ts ih => exact ih (index + 1)

theorem fieldsWellFormed_ofComponents (index : Nat) (ts : List Schema) (h : AllWellFormed ts) :
    FieldsWellFormed (Field.ofComponents index ts) := by
  induction ts generalizing index with
  | nil => trivial
  | cons t ts ih => exact ⟨h.1,ih (index + 1) h.2⟩

theorem decodeFields_ofComponents (index : Nat) (ts : List Schema) (slots : Slots) :
    decodeFields (Field.ofComponents index ts) slots =
      decodeComponents ts >>= fun vs => slots.finish >>= fun _ => pure vs := by
  induction ts generalizing index with
  | nil => rfl
  | cons t ts ih =>
    change (t.decode >>= fun v =>
      decodeFields (Field.ofComponents (index + 1) ts) slots >>= fun vs => pure (v :: vs)) =
      (t.decode >>= fun v => decodeComponents ts >>= fun vs => pure (v :: vs)) >>= _
    rw [ih]
    simp only [bind_assoc, pure_bind]

variable {t : Schema} {fs : List Field}

theorem recordFields?_eq_some (h : t.recordFields? = some fs) :
    (∃ name style, t.bare = struct name style fs) ∨
      ∃ ts, t.bare = tuple ts ∧ fs = Field.ofComponents 0 ts := by
  unfold recordFields? at h
  split at h
  · rename_i name style fields hb
    cases h
    exact .inl ⟨name,style,hb⟩
  · rename_i ts hb
    cases h
    exact .inr ⟨ts,hb,rfl⟩
  · cases h

theorem shape_of_record (h : t.recordFields? = some fs) :
    ∃ name extensible, t.shape = .aggregate name (fieldShapes fs) extensible := by
  rw [← shape_bare]
  rcases recordFields?_eq_some h with ⟨name,style,hb⟩ | ⟨ts,hb,rfl⟩
  · rw [hb]
    exact ⟨name,true,rfl⟩
  · rw [hb, fieldShapes_ofComponents]
    exact ⟨_,false,rfl⟩

theorem wellFormed_of_record (h : t.recordFields? = some fs) (hw : t.WellFormed) :
    Field.InOrder fs ∧ FieldsWellFormed fs := by
  rw [← wellFormed_bare] at hw
  rcases recordFields?_eq_some h with ⟨name,style,hb⟩ | ⟨ts,hb,rfl⟩
  · rw [hb] at hw
    exact ⟨hw.1,hw.2.2⟩
  · rw [hb] at hw
    exact ⟨Field.inOrder_of_no_slots (slotSchemas_ofComponents 0 ts),
      fieldsWellFormed_ofComponents 0 ts hw⟩

theorem decodeBody_of_record (h : t.recordFields? = some fs) (slots : Slots) :
    t.decodeBody slots = Value.record <$> decodeFields fs slots := by
  rw [← t.apply_bare (fun t => t.decodeBody slots) (fun _ _ => rfl) fun _ _ => rfl]
  rcases recordFields?_eq_some h with ⟨name,style,hb⟩ | ⟨ts,hb,rfl⟩
  · rw [hb]
    rfl
  · rw [hb, decodeFields_ofComponents]
    change (Value.record <$> decodeComponents ts) >>= (fun v => slots.finish >>= fun _ => pure v) = _
    simp only [map_bind, map_pure, bind_map_left]

/-- A field that was described inside a struct has a type that can be described alone. -/
theorem descriptor_of_describeFields {before : FieldList} {e e' : List String}
    {ds : List FieldDescriptor} (h : describeFields before fs e = .ok ds e') {f : Field}
    (hf : f ∈ fs) (hs : f.isSkipped = false) : f.schema.descriptor = .ok f.schema.shape := by
  induction fs generalizing before e with
  | nil => cases hf
  | cons g fs ih =>
    cases g with
    | mandatory name t =>
      obtain ⟨d,u,ht,h⟩ := EStateM.bind_eq_ok.mp h
      obtain ⟨l,w,hl,h⟩ := EStateM.bind_eq_ok.mp h
      obtain ⟨-,-,hy⟩ := describe_eq_ok t ht
      rcases List.mem_cons.mp hf with rfl | hf
      · exact descriptor_of_yields hy
      · exact ih h hf
    | compatible name version t =>
      obtain ⟨d,u,ht,h⟩ := EStateM.bind_eq_ok.mp h
      obtain ⟨l,w,hl,h⟩ := EStateM.bind_eq_ok.mp h
      obtain ⟨-,-,hy⟩ := describe_eq_ok t ht
      rcases List.mem_cons.mp hf with rfl | hf
      · exact descriptor_of_yields hy
      · exact ih h hf
    | skipped name t default =>
      rcases List.mem_cons.mp hf with rfl | hf
      · cases hs
      · exact ih h hf

theorem descriptor_of_describeComponents {index : Nat} {ts : List Schema} {e e' : List String}
    {ds : List FieldDescriptor} (h : describeComponents index ts e = .ok ds e') {i : Nat} {f : Field}
    (hf : f ∈ Field.ofComponents i ts) : f.schema.descriptor = .ok f.schema.shape := by
  induction ts generalizing index e e' ds i with
  | nil => cases hf
  | cons t ts ih =>
    obtain ⟨d,u,ht,h⟩ := EStateM.bind_eq_ok.mp h
    obtain ⟨rest,w,hr,h⟩ := EStateM.bind_eq_ok.mp h
    obtain ⟨-,-,hy⟩ := describe_eq_ok t ht
    rcases List.mem_cons.mp hf with rfl | hf
    · exact descriptor_of_yields hy
    · exact ih hr hf

theorem describe_bare_eq_ok : ∀ (t : Schema) {e e' : List String} {d : Descriptor},
    t.describe e = .ok d e' → t.bare.describe e = .ok d e'
  | pointer _ t, _, _, _, h => describe_bare_eq_ok t h
  | named typeName t, _, _, _, h => by
    rcases describe_named typeName t with ⟨p,v,rfl⟩ | hn
    · obtain ⟨d,u,-,h⟩ := EStateM.bind_eq_ok.mp h
      cases h
    · rw [hn] at h
      exact describe_bare_eq_ok t h
  | unit, _, _, _, h | scalar _, _, _, _, h | text, _, _, _, h | duration, _, _, _, h
  | sequence _, _, _, _, h | set _, _, _, _, h | map .., _, _, _, h | array .., _, _, _, h
  | option _, _, _, _, h | tuple _, _, _, _, h | compatible .., _, _, _, h | struct .., _, _, _, h
  | enum .., _, _, _, h | reference _, _, _, _, h => h

theorem descriptor_of_record (h : t.recordFields? = some fs) {d : Descriptor}
    (hd : t.descriptor = .ok d) {f : Field} (hf : f ∈ fs) (hs : f.isSkipped = false) :
    f.schema.descriptor = .ok f.schema.shape := by
  obtain ⟨u,ht⟩ := Describe.outcome_eq_ok.mp hd
  have hb := describe_bare_eq_ok t ht
  rcases recordFields?_eq_some h with ⟨name,style,he⟩ | ⟨ts,he,rfl⟩
  · rw [he] at hb
    obtain ⟨ds,w,hw,-⟩ := EStateM.bind_eq_ok.mp hb
    obtain ⟨-,_,hk⟩ := Describe.within_eq_ok hw
    exact descriptor_of_describeFields hk hf hs
  · rw [he] at hb
    obtain ⟨ds,w,hw,-⟩ := EStateM.bind_eq_ok.mp hb
    obtain ⟨-,_,hk⟩ := Describe.within_eq_ok hw
    exact descriptor_of_describeComponents hk hf

end Schema

/-! ## Places among the described fields -/

namespace Field

def kept (fs : List Field) : List Field := fs.filter fun f => !f.isSkipped

@[simp] theorem length_fieldShapes (fs : List Field) :
    (Schema.fieldShapes fs).length = (kept fs).length := by
  induction fs with
  | nil => rfl
  | cons f fs ih =>
    cases f with
    | mandatory name t => exact congrArg (· + 1) ih
    | compatible name version t => exact congrArg (· + 1) ih
    | skipped name t default => exact ih

/-- The layout of a kept field is in its place. -/
theorem plan_of_kept (fs : List Field) (index slot : Nat) (offset : Option Nat) {j : Nat}
    {field : Field} (h : (kept fs)[j]? = some field) :
    ∃ f, (FieldLayout.plan index offset slot (Schema.fieldShapes fs))[j]? = some f ∧
      f.index = index + j ∧ f.descriptor = field.schema.shape := by
  induction fs generalizing index slot j offset with
  | nil => cases h
  | cons g fs ih =>
    cases g with
    | skipped name t default => exact ih index slot offset h
    | mandatory name t =>
      cases j with
      | zero =>
        cases h
        exact ⟨_,rfl,rfl,rfl⟩
      | succ j =>
        obtain ⟨f,hf,hi,hd⟩ := ih (index + 1) slot (Extract.offsetBehind offset t.shape) h
        exact ⟨f,hf,by omega,hd⟩
    | compatible name version t =>
      cases j with
      | zero =>
        cases h
        exact ⟨_,rfl,rfl,rfl⟩
      | succ j =>
        obtain ⟨f,hf,hi,hd⟩ := ih (index + 1) (slot + 1) offset h
        exact ⟨f,hf,by omega,hd⟩

theorem kept_of_mem_plan {fs : List Field} {f : FieldLayout}
    (h : f ∈ FieldLayout.plan 0 (some 0) 0 (Schema.fieldShapes fs)) :
    ∃ field, (kept fs)[f.index]? = some field ∧ f.descriptor = field.schema.shape := by
  obtain ⟨j,hj⟩ := List.mem_iff_getElem?.mp h
  have hlt : j < (kept fs).length := by
    rw [← length_fieldShapes, ← Extract.length_plan (Schema.fieldShapes fs) 0 0 (some 0)]
    exact (List.getElem?_eq_some_iff.mp hj).1
  have hk := List.getElem?_eq_getElem hlt
  obtain ⟨g,hg,hi,hd⟩ := plan_of_kept fs 0 0 (some 0) hk
  obtain rfl : f = g := Option.some.inj (hj.symm.trans hg)
  rw [Nat.zero_add] at hi
  subst hi
  exact ⟨_,hk,hd⟩

/-- What a kept field holds is in its place. -/
theorem described_of_kept {o : Options} (fs : List Field) {vs : List Value}
    {cs : List (Option (List UInt8))} (h : AllHold o fs vs cs) {j : Nat} {field : Field}
    (hj : (kept fs)[j]? = some field) :
    ∃ v c, (described fs vs)[j]? = some (field,v) ∧ cs[j]? = some c ∧ field.Holds o v c := by
  induction fs generalizing vs cs j with
  | nil => cases hj
  | cons g fs ih =>
    cases g with
    | skipped name t default =>
      obtain ⟨v,ws,rfl,-,h⟩ := h
      exact ih h hj
    | mandatory name t =>
      obtain ⟨v,ws,c,ds,rfl,rfl,hv,h⟩ := h
      cases j with
      | zero =>
        cases hj
        exact ⟨v,c,rfl,rfl,hv⟩
      | succ j => exact ih h hj
    | compatible name version t =>
      obtain ⟨v,ws,c,ds,rfl,rfl,hv,h⟩ := h
      cases j with
      | zero =>
        cases hj
        exact ⟨v,c,rfl,rfl,hv⟩
      | succ j => exact ih h hj

theorem isSome_of_holds {o : Options} {field : Field} {v : Value} {c : Option (List UInt8)}
    (hs : field.isSkipped = false) (h : field.Holds o v c) : c.isSome = field.isThere v := by
  cases field with
  | skipped name t default => cases hs
  | mandatory name t =>
    obtain ⟨b,rfl,-⟩ := h
    rfl
  | compatible name version t =>
    cases c with
    | none =>
      obtain rfl : v = .absent := h
      rfl
    | some b =>
      obtain ⟨w,rfl,-⟩ := h
      rfl

end Field

@[simp] theorem length_contents (fs : List FieldDescriptor) (bs : List (List UInt8))
    (ps : List (Option (List UInt8))) : (contents fs bs ps).length = fs.length := by
  induction fs generalizing bs ps with
  | nil => rfl
  | cons d fs ih =>
    obtain ⟨name,shape,version⟩ := d
    cases version with
    | none => exact congrArg (· + 1) (ih _ _)
    | some version => exact congrArg (· + 1) (ih _ _)

end RecordCodec
