import RecordCodec.Layout
import RecordCodec.Proofs.Shape
import RecordCodec.Proofs.Typing

/-! # Related types

Two types are related when they are releases of one type: they have the same constructors and the
same mandatory parts, and the slots that both know hold related payloads. A value of the producer's
type is projected to the consumer's: of the slots the common ones stay, those that the consumer
alone knows are empty. Names, pointers and skipped fields do not matter.
-/
namespace RecordCodec

namespace Field

/-- The mandatory fields' types, with what they hold. -/
def mandatoryParts : List Field → List Value → List (Schema × Value)
  | mandatory _ t :: fs, v :: vs => (t,v) :: mandatoryParts fs vs
  | compatible .. :: fs, _ :: vs | skipped .. :: fs, _ :: vs => mandatoryParts fs vs
  | _, _ => []

/-- The payloads' types of the compatible fields, with what the fields hold. -/
def slotParts : List Field → List Value → List (Schema × Value)
  | compatible _ _ t :: fs, v :: vs => (t,v) :: slotParts fs vs
  | mandatory .. :: fs, _ :: vs | skipped .. :: fs, _ :: vs => slotParts fs vs
  | _, _ => []

end Field

namespace Schema

/-- A type without its pointers and other names. -/
def bare : Schema → Schema
  | pointer _ t | named _ t => t.bare
  | t => t

/-- The element type of a collection or an option. -/
def element (t : Schema) : Schema :=
  match t.bare with
  | sequence u | set u | array u _ | option u => u
  | u => u

/-- The key type of a map. -/
def keyType (t : Schema) : Schema :=
  match t.bare with
  | map k _ => k
  | u => u

/-- The value type of a map. -/
def valueType (t : Schema) : Schema :=
  match t.bare with
  | map _ v => v
  | u => u

/-- The component types of a tuple. -/
def components (t : Schema) : List Schema :=
  match t.bare with
  | tuple us => us
  | _ => []

/-- The fields of a struct. -/
def declaredFields (t : Schema) : List Field :=
  match t.bare with
  | struct _ _ fields => fields
  | _ => []

/-- The alternatives of an enum. -/
def declaredAlternatives (t : Schema) : List Alternative :=
  match t.bare with
  | enum _ _ alternatives => alternatives
  | _ => []

mutual

/-- Whether a consumer's type is related to a producer's. -/
def related : (consumer producer : Schema) → Bool
  | unit, u => (u.bare matches unit)
  | scalar s, u =>
    match u.bare with
    | scalar s' => s == s'
    | _ => false
  | text, u => (u.bare matches text)
  | duration, u => (u.bare matches duration)
  | sequence t, u =>
    match u.bare with
    | sequence u => t.related u
    | _ => false
  | set t, u =>
    match u.bare with
    | set u => t.related u
    | _ => false
  | map k v, u =>
    match u.bare with
    | map l w => k.related l && v.related w
    | _ => false
  | array t n, u =>
    match u.bare with
    | array u m => n == m && t.related u
    | _ => false
  | option t, u =>
    match u.bare with
    | option u => t.related u
    | _ => false
  | tuple ts, u =>
    match u.bare with
    | tuple us => componentsRelated ts us
    | _ => false
  | pointer _ t, u | named _ t, u => t.related u
  | struct _ _ fields, u =>
    match u.bare with
    | struct _ _ fields' =>
      fieldsRelated fields (Field.mandatorySchemas fields') (Field.slotSchemas fields')
    | _ => false
  | enum _ _ alternatives, u =>
    match u.bare with
    | enum _ _ alternatives' => alternativesRelated alternatives alternatives'
    | _ => false
  | compatible .., _ | reference _, _ => false
termination_by structural t => t

def componentsRelated : List Schema → List Schema → Bool
  | [], [] => true
  | t :: ts, u :: us => t.related u && componentsRelated ts us
  | _, _ => false
termination_by structural ts => ts

/-- Whether a consumer's fields are related to a producer's mandatory parts and slots: those come
first, and these go in pairs as far as both have any. -/
def fieldsRelated : List Field → (mandatory slots : List Schema) → Bool
  | [], ms, _ => ms.isEmpty
  | .mandatory _ t :: fs, m :: ms, ss => t.related m && fieldsRelated fs ms ss
  | .compatible _ _ t :: fs, [], s :: ss => t.related s && fieldsRelated fs [] ss
  | .compatible .. :: fs, [], [] => fieldsRelated fs [] []
  | .skipped .. :: fs, ms, ss => fieldsRelated fs ms ss
  | .mandatory .. :: _, [], _ | .compatible .. :: _, _ :: _, _ => false
termination_by structural fs => fs

def alternativesRelated : List Alternative → List Alternative → Bool
  | [], [] => true
  | .mk _ _ fields :: as, .mk _ _ fields' :: bs =>
    fieldsRelated fields (Field.mandatorySchemas fields') (Field.slotSchemas fields') &&
      alternativesRelated as bs
  | _, _ => false
termination_by structural as => as

end

mutual

/-- What a consumer sees of a producer's value. -/
def project : (consumer producer : Schema) → Value → Value
  | sequence t, u, .sequence vs | array t _, u, .sequence vs =>
    .sequence (vs.map (t.project u.element))
  | set t, u, .sequence vs => .sequence (Value.arranged id (vs.map (t.project u.element)))
  | map k v, u, .sequence es =>
    .sequence (Value.arranged Value.key
      (es.map (Value.mapEntry (k.project u.keyType) (v.project u.valueType))))
  | option t, u, .present v => .present (t.project u.element v)
  | tuple ts, u, .record vs => .record (projectComponents ts u.components vs)
  | pointer _ t, u, v | named _ t, u, v => t.project u v
  | struct _ _ fields, u, .record vs =>
    .record (projectFields fields (Field.mandatoryParts u.declaredFields vs)
      (Field.slotParts u.declaredFields vs))
  | enum _ _ alternatives, u, .variant index vs =>
    .variant index (projectAlternative alternatives u.declaredAlternatives index vs)
  | _, _, v => v
termination_by structural t => t

def projectComponents : List Schema → List Schema → List Value → List Value
  | t :: ts, u :: us, v :: vs => t.project u v :: projectComponents ts us vs
  | _, _, _ => []
termination_by structural ts => ts

/-- A consumer's fields, out of a producer's mandatory parts and slots. -/
def projectFields : List Field → (mandatory slots : List (Schema × Value)) → List Value
  | .mandatory _ t :: fs, m :: ms, ss => t.project m.1 m.2 :: projectFields fs ms ss
  | .compatible _ _ t :: fs, ms, (u,.present v) :: ss =>
    .present (t.project u v) :: projectFields fs ms ss
  | .compatible .. :: fs, ms, _ :: ss => .absent :: projectFields fs ms ss
  | .compatible .. :: fs, ms, [] => .absent :: projectFields fs ms []
  | .skipped _ _ default :: fs, ms, ss => default :: projectFields fs ms ss
  | [], _, _ | .mandatory .. :: _, [], _ => []
termination_by structural fs => fs

def projectAlternative :
    List Alternative → List Alternative → (index : Nat) → List Value → List Value
  | .mk _ _ fields :: _, .mk _ _ fields' :: _, 0, vs =>
    projectFields fields (Field.mandatoryParts fields' vs) (Field.slotParts fields' vs)
  | _ :: as, _ :: bs, index + 1, vs => projectAlternative as bs index vs
  | _, _, _, _ => []
termination_by structural as => as

end

/-! ## Pointers and other names -/

/-- What does not see pointers and other names does not change without them. -/
theorem apply_bare {α : Type} (f : Schema → α) (hp : ∀ p t, f (pointer p t) = f t)
    (hn : ∀ n t, f (named n t) = f t) (t : Schema) : f t.bare = f t := by
  unfold bare
  split
  · rename_i p t
    exact (apply_bare f hp hn t).trans (hp p t).symm
  · rename_i n t
    exact (apply_bare f hp hn t).trans (hn n t).symm
  · rfl

@[simp] theorem shape_bare (t : Schema) : t.bare.shape = t.shape :=
  t.apply_bare shape (fun _ _ => rfl) fun _ _ => rfl

@[simp] theorem encode_bare (t : Schema) (v : Value) : t.bare.encode v = t.encode v :=
  t.apply_bare (fun t => t.encode v) (fun _ _ => rfl) fun _ _ => rfl

@[simp] theorem admits_bare (t : Schema) (v : Value) : t.bare.admits v = t.admits v :=
  t.apply_bare (fun t => t.admits v) (fun _ _ => rfl) fun _ _ => rfl

@[simp] theorem lengths_bare (t : Schema) (v : Value) : t.bare.lengths v = t.lengths v :=
  t.apply_bare (fun t => t.lengths v) (fun _ _ => rfl) fun _ _ => rfl

@[simp] theorem wellFormed_bare (t : Schema) : t.bare.WellFormed = t.WellFormed :=
  t.apply_bare WellFormed (fun _ _ => rfl) fun _ _ => rfl

/-! ## Inversion -/

section Inversion
variable {u : Schema}

theorem related_unit (h : unit.related u = true) : u.bare = unit := by
  change (u.bare matches unit) = true at h
  split at h
  · assumption
  · cases h

theorem related_scalar {s : Scalar} (h : (scalar s).related u = true) : u.bare = scalar s := by
  change (match u.bare with
    | scalar s' => s == s'
    | _ => false) = true at h
  split at h
  · rename_i s' hu
    rw [hu, eq_of_beq h]
  · cases h

theorem related_text (h : text.related u = true) : u.bare = text := by
  change (u.bare matches text) = true at h
  split at h
  · assumption
  · cases h

theorem related_duration (h : duration.related u = true) : u.bare = duration := by
  change (u.bare matches duration) = true at h
  split at h
  · assumption
  · cases h

theorem related_sequence {t : Schema} (h : (sequence t).related u = true) :
    ∃ u', u.bare = sequence u' ∧ t.related u' = true := by
  change (match u.bare with
    | sequence u => t.related u
    | _ => false) = true at h
  split at h
  · exact ⟨_,by assumption,h⟩
  · cases h

theorem related_set {t : Schema} (h : (set t).related u = true) :
    ∃ u', u.bare = set u' ∧ t.related u' = true := by
  change (match u.bare with
    | set u => t.related u
    | _ => false) = true at h
  split at h
  · exact ⟨_,by assumption,h⟩
  · cases h

theorem related_map {k v : Schema} (h : (map k v).related u = true) :
    ∃ l w, u.bare = map l w ∧ k.related l = true ∧ v.related w = true := by
  change (match u.bare with
    | map l w => k.related l && v.related w
    | _ => false) = true at h
  split at h
  · exact ⟨_,_,by assumption,Bool.and_eq_true_iff.mp h⟩
  · cases h

theorem related_array {t : Schema} {n : Nat} (h : (array t n).related u = true) :
    ∃ u', u.bare = array u' n ∧ t.related u' = true := by
  change (match u.bare with
    | array u m => n == m && t.related u
    | _ => false) = true at h
  split at h
  · rename_i u' m hu
    obtain ⟨hn,ht⟩ := Bool.and_eq_true_iff.mp h
    exact ⟨u',by rw [hu, eq_of_beq hn],ht⟩
  · cases h

theorem related_option {t : Schema} (h : (option t).related u = true) :
    ∃ u', u.bare = option u' ∧ t.related u' = true := by
  change (match u.bare with
    | option u => t.related u
    | _ => false) = true at h
  split at h
  · exact ⟨_,by assumption,h⟩
  · cases h

theorem related_tuple {ts : List Schema} (h : (tuple ts).related u = true) :
    ∃ us, u.bare = tuple us ∧ componentsRelated ts us = true := by
  change (match u.bare with
    | tuple us => componentsRelated ts us
    | _ => false) = true at h
  split at h
  · exact ⟨_,by assumption,h⟩
  · cases h

theorem related_struct {name : String} {style : Style} {fields : List Field}
    (h : (struct name style fields).related u = true) :
    ∃ name' style' fields', u.bare = struct name' style' fields' ∧
      fieldsRelated fields (Field.mandatorySchemas fields') (Field.slotSchemas fields') = true := by
  change (match u.bare with
    | struct _ _ fields' =>
      fieldsRelated fields (Field.mandatorySchemas fields') (Field.slotSchemas fields')
    | _ => false) = true at h
  split at h
  · exact ⟨_,_,_,by assumption,h⟩
  · cases h

theorem related_enum {name label : String} {alternatives : List Alternative}
    (h : (enum name label alternatives).related u = true) :
    ∃ name' label' alternatives', u.bare = enum name' label' alternatives' ∧
      alternativesRelated alternatives alternatives' = true := by
  change (match u.bare with
    | enum _ _ alternatives' => alternativesRelated alternatives alternatives'
    | _ => false) = true at h
  split at h
  · exact ⟨_,_,_,by assumption,h⟩
  · cases h

end Inversion

/-! ## Equations of the projection -/

section Projection
variable {u u' : Schema}

theorem project_sequence (t : Schema) (hu : u.bare = sequence u') (vs : List Value) :
    (sequence t).project u (.sequence vs) = .sequence (vs.map (t.project u')) := by
  have he : u.element = u' := by rw [element, hu]
  exact he ▸ rfl

theorem project_set (t : Schema) (hu : u.bare = set u') (vs : List Value) :
    (set t).project u (.sequence vs) =
      .sequence (Value.arranged id (vs.map (t.project u'))) := by
  have he : u.element = u' := by rw [element, hu]
  exact he ▸ rfl

theorem project_map (k v : Schema) {l w : Schema} (hu : u.bare = map l w) (es : List Value) :
    (map k v).project u (.sequence es) =
      .sequence (Value.arranged Value.key
        (es.map (Value.mapEntry (k.project l) (v.project w)))) := by
  have hk : u.keyType = l := by rw [keyType, hu]
  have hv : u.valueType = w := by rw [valueType, hu]
  exact hk ▸ hv ▸ rfl

theorem project_array (t : Schema) {n m : Nat} (hu : u.bare = array u' m) (vs : List Value) :
    (array t n).project u (.sequence vs) = .sequence (vs.map (t.project u')) := by
  have he : u.element = u' := by rw [element, hu]
  exact he ▸ rfl

theorem project_present (t : Schema) (hu : u.bare = option u') (v : Value) :
    (option t).project u (.present v) = .present (t.project u' v) := by
  have he : u.element = u' := by rw [element, hu]
  exact he ▸ rfl

theorem project_tuple (ts : List Schema) {us : List Schema} (hu : u.bare = tuple us)
    (vs : List Value) :
    (tuple ts).project u (.record vs) = .record (projectComponents ts us vs) := by
  have hc : u.components = us := by rw [components, hu]
  exact hc ▸ rfl

theorem project_struct {name name' : String} {style style' : Style} (fields : List Field)
    {fields' : List Field} (hu : u.bare = struct name' style' fields') (vs : List Value) :
    (struct name style fields).project u (.record vs) =
      .record (projectFields fields (Field.mandatoryParts fields' vs)
        (Field.slotParts fields' vs)) := by
  have hf : u.declaredFields = fields' := by rw [declaredFields, hu]
  exact hf ▸ rfl

theorem project_enum {name name' label label' : String} (alternatives : List Alternative)
    {alternatives' : List Alternative} (hu : u.bare = enum name' label' alternatives')
    (index : Nat) (vs : List Value) :
    (enum name label alternatives).project u (.variant index vs) =
      .variant index (projectAlternative alternatives alternatives' index vs) := by
  have ha : u.declaredAlternatives = alternatives' := by rw [declaredAlternatives, hu]
  exact ha ▸ rfl

end Projection

/-! ## Literals -/

theorem fieldsLiteral_componentShapes (index : Nat) (ts : List Schema) :
    Descriptor.fieldsLiteral (componentShapes index ts) =
      ts.flatMap (fun t => t.shape.literal) ++ [Literal.aggregateEnd] := by
  induction ts generalizing index with
  | nil => rfl
  | cons t ts ih =>
    rw [componentShapes, Descriptor.fieldsLiteral, ih, List.flatMap_cons, List.append_assoc]

theorem fieldsLiteral_fieldShapes (fs : List Field) :
    Descriptor.fieldsLiteral (fieldShapes fs) =
      (Field.mandatorySchemas fs).flatMap (fun t => t.shape.literal) ++ [Literal.aggregateEnd] := by
  induction fs with
  | nil => rfl
  | cons f fs ih =>
    cases f with
    | mandatory name t =>
      rw [fieldShapes, Descriptor.fieldsLiteral, ih, Field.mandatorySchemas, List.flatMap_cons,
        List.append_assoc]
    | compatible name version t => exact ih
    | skipped name t default => exact ih

mutual

/-- Related types have the same literal. -/
theorem literal_eq_of_related : ∀ (t u : Schema), t.related u = true →
    t.shape.literal = u.shape.literal
  | unit, u, h => by rw [← shape_bare u, related_unit h]
  | scalar s, u, h => by rw [← shape_bare u, related_scalar h]
  | text, u, h => by rw [← shape_bare u, related_text h]
  | duration, u, h => by rw [← shape_bare u, related_duration h]
  | sequence t, u, h => by
    obtain ⟨u',hu,ht⟩ := related_sequence h
    rw [← shape_bare u, hu]
    exact congrArg (Literal.sequence :: ·) (literal_eq_of_related t u' ht)
  | set t, u, h => by
    obtain ⟨u',hu,ht⟩ := related_set h
    rw [← shape_bare u, hu]
    exact congrArg (Literal.set :: ·) (literal_eq_of_related t u' ht)
  | map k v, u, h => by
    obtain ⟨l,w,hu,hk,hv⟩ := related_map h
    rw [← shape_bare u, hu]
    simp only [shape, Descriptor.literal, literal_eq_of_related k l hk,
      literal_eq_of_related v w hv]
  | array t n, u, h => by
    obtain ⟨u',hu,ht⟩ := related_array h
    rw [← shape_bare u, hu]
    simp only [shape, Descriptor.literal, literal_eq_of_related t u' ht]
  | option t, u, h => by
    obtain ⟨u',hu,ht⟩ := related_option h
    rw [← shape_bare u, hu]
    exact congrArg (Literal.optional :: ·) (literal_eq_of_related t u' ht)
  | tuple ts, u, h => by
    obtain ⟨us,hu,ht⟩ := related_tuple h
    rw [← shape_bare u, hu]
    simp only [shape, Descriptor.literal, fieldsLiteral_componentShapes,
      literals_eq_of_related ts us ht]
  | pointer _ t, u, h => literal_eq_of_related t u h
  | named _ t, u, h => literal_eq_of_related t u h
  | struct _ _ fields, u, h => by
    obtain ⟨_,_,fields',hu,hf⟩ := related_struct h
    rw [← shape_bare u, hu]
    simp only [shape, Descriptor.literal, fieldsLiteral_eq_of_related fields _ _ hf,
      fieldsLiteral_fieldShapes]
  | enum _ _ alternatives, u, h => by
    obtain ⟨_,_,alternatives',hu,ha⟩ := related_enum h
    obtain ⟨hl,he⟩ := alternativesLiteral_eq_of_related _ _ ha
    rw [← shape_bare u, hu]
    simp only [shape, Descriptor.literal, hl, he]
  | compatible _ _, _, h => by cases h
  | reference _, _, h => by cases h

theorem literals_eq_of_related : ∀ (ts us : List Schema), componentsRelated ts us = true →
    ts.flatMap (fun t => t.shape.literal) = us.flatMap (fun t => t.shape.literal)
  | [], [], _ => rfl
  | [], _ :: _, h => by cases h
  | _ :: _, [], h => by cases h
  | t :: ts, u :: us, h => by
    obtain ⟨ht,hs⟩ : t.related u = true ∧ componentsRelated ts us = true := by
      simpa [componentsRelated] using h
    rw [List.flatMap_cons, List.flatMap_cons, literal_eq_of_related t u ht,
      literals_eq_of_related ts us hs]

theorem fieldsLiteral_eq_of_related : ∀ (fs : List Field) (ms ss : List Schema),
    fieldsRelated fs ms ss = true →
      Descriptor.fieldsLiteral (fieldShapes fs) =
        ms.flatMap (fun t => t.shape.literal) ++ [Literal.aggregateEnd]
  | [], [], _, _ => rfl
  | [], _ :: _, _, h => by cases h
  | .mandatory name t :: fs, m :: ms, ss, h => by
    obtain ⟨ht,hs⟩ : t.related m = true ∧ fieldsRelated fs ms ss = true := by
      simpa [fieldsRelated] using h
    rw [fieldShapes, Descriptor.fieldsLiteral, fieldsLiteral_eq_of_related fs ms ss hs,
      literal_eq_of_related t m ht, List.flatMap_cons, List.append_assoc]
  | .mandatory .. :: _, [], _, h => by cases h
  | .compatible _ _ t :: fs, [], s :: ss, h => by
    obtain ⟨-,hs⟩ : t.related s = true ∧ fieldsRelated fs [] ss = true := by
      simpa [fieldsRelated] using h
    exact fieldsLiteral_eq_of_related fs [] ss hs
  | .compatible .. :: fs, [], [], h => fieldsLiteral_eq_of_related fs [] [] h
  | .compatible .. :: _, _ :: _, _, h => by cases h
  | .skipped .. :: fs, ms, ss, h => fieldsLiteral_eq_of_related fs ms ss h

theorem alternativesLiteral_eq_of_related : ∀ (as bs : List Alternative),
    alternativesRelated as bs = true →
      (alternativeShapes as).length = (alternativeShapes bs).length ∧
        Descriptor.alternativesLiteral (alternativeShapes as) =
          Descriptor.alternativesLiteral (alternativeShapes bs)
  | [], [], _ => ⟨rfl,rfl⟩
  | [], .mk .. :: _, h => by cases h
  | .mk .. :: _, [], h => by cases h
  | .mk _ _ fields :: as, .mk _ _ fields' :: bs, h => by
    obtain ⟨hf,hs⟩ : fieldsRelated fields (Field.mandatorySchemas fields')
        (Field.slotSchemas fields') = true ∧ alternativesRelated as bs = true := by
      simpa [alternativesRelated] using h
    obtain ⟨hl,he⟩ := alternativesLiteral_eq_of_related as bs hs
    simp only [alternativeShapes, Descriptor.alternativesLiteral, List.length_cons, hl, he,
      fieldsLiteral_eq_of_related fields _ _ hf, fieldsLiteral_fieldShapes, and_self]

end
/-! ## A type and itself -/

mutual

/-- A well-formed type is related to itself, whatever points to it. -/
theorem related_of_bare_eq : ∀ t u : Schema, u.bare = t.bare → t.WellFormed → t.related u = true
  | unit, u, hu, _ | text, u, hu, _ | duration, u, hu, _ => by
    rw [related, hu]
    rfl
  | scalar s, u, hu, _ => by
    rw [related, hu]
    exact BEq.rfl
  | sequence t, u, hu, hw | set t, u, hu, hw | option t, u, hu, hw => by
    rw [related, hu]
    exact related_of_bare_eq t t rfl hw
  | map k v, u, hu, hw => by
    rw [related, hu]
    exact Bool.and_eq_true_iff.mpr
      ⟨related_of_bare_eq k k rfl hw.1,related_of_bare_eq v v rfl hw.2⟩
  | array t n, u, hu, hw => by
    rw [related, hu]
    exact Bool.and_eq_true_iff.mpr ⟨BEq.rfl,related_of_bare_eq t t rfl hw⟩
  | tuple ts, u, hu, hw => by
    rw [related, hu]
    exact componentsRelated_self ts hw
  | pointer _ t, u, hu, hw | named _ t, u, hu, hw => related_of_bare_eq t u hu hw
  | struct _ _ fields, u, hu, hw => by
    rw [related, hu]
    exact fieldsRelated_self fields hw.1 hw.2.2
  | enum _ _ alternatives, u, hu, hw => by
    rw [related, hu]
    exact alternativesRelated_self alternatives hw.2
  | compatible .., _, _, hw | reference _, _, _, hw => hw.elim

theorem componentsRelated_self : ∀ ts : List Schema, AllWellFormed ts →
    componentsRelated ts ts = true
  | [], _ => rfl
  | t :: ts, hw => Bool.and_eq_true_iff.mpr
    ⟨related_of_bare_eq t t rfl hw.1,componentsRelated_self ts hw.2⟩

theorem fieldsRelated_self : ∀ fs : List Field, Field.InOrder fs → FieldsWellFormed fs →
    fieldsRelated fs (Field.mandatorySchemas fs) (Field.slotSchemas fs) = true
  | [], _, _ => rfl
  | .mandatory _ t :: fs, hi, hw => Bool.and_eq_true_iff.mpr
    ⟨related_of_bare_eq t t rfl hw.1,fieldsRelated_self fs hi hw.2⟩
  | .compatible _ _ t :: fs, hi, hw => by
    have hs := fieldsRelated_self fs hi.2 hw.2
    rw [hi.1] at hs
    rw [Field.mandatorySchemas, hi.1]
    exact Bool.and_eq_true_iff.mpr ⟨related_of_bare_eq t t rfl hw.1,hs⟩
  | .skipped .. :: fs, hi, hw => fieldsRelated_self fs hi hw

theorem alternativesRelated_self : ∀ as : List Alternative, AlternativesWellFormed as →
    alternativesRelated as as = true
  | [], _ => rfl
  | .mk _ _ fields :: as, hw => Bool.and_eq_true_iff.mpr
    ⟨fieldsRelated_self fields (Field.inOrder_of_no_slots hw.1) hw.2.1,
      alternativesRelated_self as hw.2.2⟩

end

theorem related_self {t : Schema} (h : t.WellFormed) : t.related t = true :=
  related_of_bare_eq t t rfl h

theorem mapEntry_congr {p q : Value → Bool} {f f' g g' : Value → Value} {e : Value}
    (h : e.isEntry p q = true) (hf : ∀ v, p v = true → f v = f' v)
    (hg : ∀ v, q v = true → g v = g' v) : e.mapEntry f g = e.mapEntry f' g' := by
  obtain ⟨a,b,rfl,ha,hb⟩ := Value.isEntry_eq_true h
  change Value.entry (f a) (g b) = Value.entry (f' a) (g' b)
  rw [hf a ha, hg b hb]

mutual

/-- A type sees its own values up to skipped fields. -/
theorem project_of_bare_eq : ∀ (t u : Schema) (v : Value), u.bare = t.bare → t.admits v = true →
    t.project u v = t.reset v
  | unit, _, v, _, _ | text, _, v, _, _ | duration, _, v, _, _ | scalar _, _, v, _, _ => by
    cases v <;> rfl
  | sequence t, u, v, hu, h => by
    cases v with
    | sequence vs =>
      rw [project_sequence t hu]
      exact congrArg Value.sequence (List.map_congr_left fun v hv =>
        project_of_bare_eq t t v rfl (List.all_eq_true.mp h v hv))
    | _ => cases h
  | set t, u, v, hu, h => by
    cases v with
    | sequence vs =>
      have hm : vs.map (t.project t) = vs.map t.reset := List.map_congr_left fun v hv =>
        project_of_bare_eq t t v rfl (List.all_eq_true.mp h v hv)
      rw [project_set t hu, hm]
      rfl
    | _ => cases h
  | map k w, u, v, hu, h => by
    cases v with
    | sequence es =>
      have hm : es.map (Value.mapEntry (k.project k) (w.project w)) =
          es.map (Value.mapEntry k.reset w.reset) := List.map_congr_left fun e he =>
        mapEntry_congr (List.all_eq_true.mp h e he) (fun a => project_of_bare_eq k k a rfl)
          fun b => project_of_bare_eq w w b rfl
      rw [project_map k w hu, hm]
      rfl
    | _ => cases h
  | array t n, u, v, hu, h => by
    cases v with
    | sequence vs =>
      have ha := (Bool.and_eq_true_iff.mp h).2
      rw [project_array t hu]
      exact congrArg Value.sequence (List.map_congr_left fun v hv =>
        project_of_bare_eq t t v rfl (List.all_eq_true.mp ha v hv))
    | _ => cases h
  | option t, u, v, hu, h => by
    cases v with
    | absent => rfl
    | present v =>
      rw [project_present t hu, project_of_bare_eq t t v rfl h]
      rfl
    | _ => cases h
  | tuple ts, u, v, hu, h => by
    cases v with
    | record vs =>
      rw [project_tuple ts hu, projectComponents_self ts vs h]
      rfl
    | _ => cases h
  | pointer _ t, u, v, hu, h | named _ t, u, v, hu, h => project_of_bare_eq t u v hu h
  | struct _ _ fields, u, v, hu, h => by
    cases v with
    | record vs =>
      rw [project_struct fields hu, projectFields_self fields vs h]
      rfl
    | _ => cases h
  | enum _ _ alternatives, u, v, hu, h => by
    cases v with
    | variant index vs =>
      rw [project_enum alternatives hu, projectAlternative_self alternatives index vs h]
      rfl
    | _ => cases h
  | compatible .., _, _, _, h | reference _, _, _, _, h => by cases h

theorem projectComponents_self : ∀ (ts : List Schema) (vs : List Value),
    componentsAdmit ts vs = true → projectComponents ts ts vs = resetComponents ts vs
  | [], _, _ => rfl
  | _ :: _, [], h => by cases h
  | t :: ts, v :: vs, h => by
    obtain ⟨hv,hs⟩ := Bool.and_eq_true_iff.mp h
    rw [projectComponents, project_of_bare_eq t t v rfl hv, projectComponents_self ts vs hs]
    rfl

theorem projectFields_self : ∀ (fs : List Field) (vs : List Value), fieldsAdmit fs vs = true →
    projectFields fs (Field.mandatoryParts fs vs) (Field.slotParts fs vs) = resetFields fs vs
  | [], _, _ => rfl
  | .mandatory .. :: _, [], h | .compatible .. :: _, [], h | .skipped .. :: _, [], h => by cases h
  | .mandatory _ t :: fs, v :: vs, h => by
    obtain ⟨hv,hs⟩ := Bool.and_eq_true_iff.mp h
    rw [Field.mandatoryParts, Field.slotParts, projectFields, project_of_bare_eq t t v rfl hv,
      projectFields_self fs vs hs]
    rfl
  | .compatible _ _ t :: fs, v :: vs, h => by
    cases v with
    | present v =>
      obtain ⟨hv,hs⟩ := Bool.and_eq_true_iff.mp h
      rw [Field.mandatoryParts, Field.slotParts, projectFields, project_of_bare_eq t t v rfl hv,
        projectFields_self fs vs hs]
      rfl
    | absent => exact congrArg (Value.absent :: ·) (projectFields_self fs vs h)
    | _ => cases h
  | .skipped _ _ default :: fs, _ :: vs, h =>
    congrArg (default :: ·) (projectFields_self fs vs h)

theorem projectAlternative_self : ∀ (as : List Alternative) (index : Nat) (vs : List Value),
    alternativeAdmits as index vs = true →
      projectAlternative as as index vs = resetAlternative as index vs
  | [], _, _, h => by cases h
  | .mk _ _ fields :: _, 0, vs, h => projectFields_self fields vs h
  | .mk .. :: as, index + 1, vs, h => projectAlternative_self as index vs h

end

theorem project_self {t : Schema} {v : Value} (h : t.admits v = true) :
    t.project t v = t.reset v := project_of_bare_eq t t v rfl h

end Schema
end RecordCodec
