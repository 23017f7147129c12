import RecordCodec.Descriptor.Literal
import RecordCodec.Proofs.Numbers
import RecordCodec.Proofs.Shape

/-! # Unique decodability of type literals

A descriptor's skeleton is what its literal tells: the structure of the mandatory parts, and which
aggregates are extensible. The tag that a literal opens with tells the constructor, a list of fields
ends where no tag of a type can stand, and no number is a prefix of another. So a literal in front of
any bytes determines the skeleton and those bytes.
-/
namespace RecordCodec

namespace Bytes.Varint

/-- A number is no prefix of another. -/
theorem encode_append_inj {n m : Nat} {x y : List UInt8} (hn : n < addressSpace)
    (hm : m < addressSpace) (h : encode n ++ x = encode m ++ y) : n = m ∧ x = y := by
  have hr := (Read.gives_varint {} hn).unique (Read.gives_varint {} hm) h
  exact ⟨hr.1,hr.2.2⟩

end Bytes.Varint

namespace Scalar

/-- The scalar of a tag. -/
def ofTag (tag : UInt8) : Option Scalar := all.find? fun s => s.tag == tag

theorem ofTag_tag (s : Scalar) : ofTag s.tag = some s := by
  cases s <;> rfl

theorem tag_injective {s s' : Scalar} (h : s.tag = s'.tag) : s = s' := by
  have hs := ofTag_tag s
  rw [h, ofTag_tag s'] at hs
  exact (Option.some.inj hs).symm

end Scalar

/-- A descriptor without names and compatible fields. -/
inductive Skeleton where
  | unit
  | scalar (s : Scalar)
  | text
  | sequence (element : Skeleton)
  | set (element : Skeleton)
  | map (key value : Skeleton)
  | array (element : Skeleton) (length : Nat)
  | optional (payload : Skeleton)
  | variant (alternatives : List (List Skeleton))
  | aggregate (fields : List Skeleton) (extensible : Bool)

namespace Skeleton

/-- The tag that a literal opens with. -/
def tag : Skeleton → UInt8
  | unit => Literal.unit
  | scalar s => s.tag
  | text => Literal.text
  | sequence _ => Literal.sequence
  | set _ => Literal.set
  | map .. => Literal.map
  | array .. => Literal.array
  | optional _ => Literal.optional
  | variant _ => Literal.variantBegin
  | aggregate _ true => Literal.extensibleBegin
  | aggregate _ false => Literal.aggregateBegin

mutual

/-- What follows the tag in a literal. -/
def suffix : Skeleton → List UInt8
  | unit | text => []
  | scalar s => [UInt8.ofNat s.width]
  | sequence t | set t | optional t => t.tag :: t.suffix
  | map k v => k.tag :: (k.suffix ++ v.tag :: v.suffix)
  | array t n => t.tag :: (t.suffix ++ Bytes.Varint.encode n)
  | variant as => Bytes.Varint.encode as.length ++ alternativesLiteral as
  | aggregate fs _ => fieldsLiteral fs
termination_by structural t => t

def fieldsLiteral : List Skeleton → List UInt8
  | [] => [Literal.aggregateEnd]
  | t :: ts => t.tag :: (t.suffix ++ fieldsLiteral ts)
termination_by structural ts => ts

def alternativesLiteral : List (List Skeleton) → List UInt8
  | [] => [Literal.variantEnd]
  | fs :: as => Literal.aggregateBegin :: (fieldsLiteral fs ++ alternativesLiteral as)
termination_by structural as => as

end

/-- The literal of a type inside another. -/
def literal (t : Skeleton) : List UInt8 := t.tag :: t.suffix

/-- The skeleton without the mark of an outermost aggregate. -/
def outermost : Skeleton → Skeleton
  | aggregate fs _ => aggregate fs false
  | t => t

mutual

/-- Whether the lengths of arrays and the numbers of alternatives fit the address space. -/
def Addressable : Skeleton → Prop
  | unit | scalar _ | text => True
  | sequence t | set t | optional t => t.Addressable
  | map k v => k.Addressable ∧ v.Addressable
  | array t n => t.Addressable ∧ n < addressSpace
  | variant as => as.length < addressSpace ∧ AlternativesAddressable as
  | aggregate fs _ => AllAddressable fs
termination_by structural t => t

def AllAddressable : List Skeleton → Prop
  | [] => True
  | t :: ts => t.Addressable ∧ AllAddressable ts
termination_by structural ts => ts

def AlternativesAddressable : List (List Skeleton) → Prop
  | [] => True
  | fs :: as => AllAddressable fs ∧ AlternativesAddressable as
termination_by structural as => as

end

/-- Skeletons with the same outermost constructor and mark. -/
inductive Alike : Skeleton → Skeleton → Prop where
  | unit : Alike unit unit
  | scalar (s : Scalar) : Alike (scalar s) (scalar s)
  | text : Alike text text
  | sequence (t u : Skeleton) : Alike (sequence t) (sequence u)
  | set (t u : Skeleton) : Alike (set t) (set u)
  | map (k v l w : Skeleton) : Alike (map k v) (map l w)
  | array (t u : Skeleton) (n m : Nat) : Alike (array t n) (array u m)
  | optional (t u : Skeleton) : Alike (optional t) (optional u)
  | variant (as bs : List (List Skeleton)) : Alike (variant as) (variant bs)
  | aggregate (fs gs : List Skeleton) (extensible : Bool) :
      Alike (aggregate fs extensible) (aggregate gs extensible)

theorem alike_of_tag_eq {a b : Skeleton} (h : a.tag = b.tag) : Alike a b := by
  cases a with
  | scalar s =>
    cases b with
    | scalar s' =>
      obtain rfl := Scalar.tag_injective h
      exact .scalar s
    | aggregate fs extensible => cases extensible <;> cases s <;> cases h
    | _ => cases s <;> cases h
  | aggregate fs extensible =>
    cases b with
    | scalar s => cases extensible <;> cases s <;> cases h
    | aggregate gs extensible' =>
      cases extensible <;> cases extensible' <;> first | exact .aggregate .. | cases h
    | _ => cases extensible <;> cases h
  | _ =>
    cases b with
    | scalar s => cases s <;> cases h
    | aggregate gs extensible => cases extensible <;> cases h
    | _ => first | constructor | cases h

theorem cons_append_inj {a b : UInt8} {l m x y : List UInt8} (h : a :: l ++ x = b :: m ++ y) :
    a = b ∧ l ++ x = m ++ y := List.cons.inj h

theorem tag_ne_aggregateEnd (t : Skeleton) : t.tag ≠ Literal.aggregateEnd := by
  intro h
  cases t with
  | scalar s => cases s <;> cases h
  | aggregate fs extensible => cases extensible <;> cases h
  | _ => cases h

mutual

/-- A literal in front of any bytes determines the skeleton and those bytes. -/
theorem suffix_append_inj : ∀ (a b : Skeleton) {x y : List UInt8}, a.Addressable → b.Addressable →
    a.tag = b.tag → a.suffix ++ x = b.suffix ++ y → a = b ∧ x = y
  | unit, b, _, _, _, _, ht, h => by
    cases alike_of_tag_eq ht with
    | unit => exact ⟨rfl,h⟩
  | scalar s, b, _, _, _, _, ht, h => by
    cases alike_of_tag_eq ht with
    | scalar => exact ⟨rfl,(cons_append_inj h).2⟩
  | text, b, _, _, _, _, ht, h => by
    cases alike_of_tag_eq ht with
    | text => exact ⟨rfl,h⟩
  | sequence t, b, _, _, ha, hb, ht, h => by
    cases alike_of_tag_eq ht with
    | sequence _ u =>
      obtain ⟨hu,hs⟩ := cons_append_inj h
      obtain ⟨rfl,hx⟩ := suffix_append_inj t u ha hb hu hs
      exact ⟨rfl,hx⟩
  | set t, b, _, _, ha, hb, ht, h => by
    cases alike_of_tag_eq ht with
    | set _ u =>
      obtain ⟨hu,hs⟩ := cons_append_inj h
      obtain ⟨rfl,hx⟩ := suffix_append_inj t u ha hb hu hs
      exact ⟨rfl,hx⟩
  | map k v, b, _, _, ha, hb, ht, h => by
    cases alike_of_tag_eq ht with
    | map _ _ l w =>
      obtain ⟨hl,hs⟩ := cons_append_inj h
      rw [List.append_assoc, List.append_assoc] at hs
      obtain ⟨rfl,hv⟩ := suffix_append_inj k l ha.1 hb.1 hl hs
      obtain ⟨hw,hs⟩ := cons_append_inj hv
      obtain ⟨rfl,hx⟩ := suffix_append_inj v w ha.2 hb.2 hw hs
      exact ⟨rfl,hx⟩
  | array t n, b, _, _, ha, hb, ht, h => by
    cases alike_of_tag_eq ht with
    | array _ u _ m =>
      obtain ⟨hu,hs⟩ := cons_append_inj h
      rw [List.append_assoc, List.append_assoc] at hs
      obtain ⟨rfl,hn⟩ := suffix_append_inj t u ha.1 hb.1 hu hs
      obtain ⟨rfl,hx⟩ := Bytes.Varint.encode_append_inj ha.2 hb.2 hn
      exact ⟨rfl,hx⟩
  | optional t, b, _, _, ha, hb, ht, h => by
    cases alike_of_tag_eq ht with
    | optional _ u =>
      obtain ⟨hu,hs⟩ := cons_append_inj h
      obtain ⟨rfl,hx⟩ := suffix_append_inj t u ha hb hu hs
      exact ⟨rfl,hx⟩
  | variant as, b, x, y, ha, hb, ht, h => by
    cases alike_of_tag_eq ht with
    | variant _ bs =>
      change (_ ++ alternativesLiteral as) ++ x = (_ ++ alternativesLiteral bs) ++ y at h
      rw [List.append_assoc, List.append_assoc] at h
      obtain ⟨-,hs⟩ := Bytes.Varint.encode_append_inj ha.1 hb.1 h
      obtain ⟨rfl,hx⟩ := alternativesLiteral_append_inj as bs ha.2 hb.2 hs
      exact ⟨rfl,hx⟩
  | aggregate fs extensible, b, _, _, ha, hb, ht, h => by
    cases alike_of_tag_eq ht with
    | aggregate _ gs =>
      obtain ⟨rfl,hx⟩ := fieldsLiteral_append_inj fs gs ha hb h
      exact ⟨rfl,hx⟩

theorem fieldsLiteral_append_inj : ∀ (fs gs : List Skeleton) {x y : List UInt8},
    AllAddressable fs → AllAddressable gs → fieldsLiteral fs ++ x = fieldsLiteral gs ++ y →
      fs = gs ∧ x = y
  | [], [], _, _, _, _, h => ⟨rfl,(cons_append_inj h).2⟩
  | [], u :: us, _, _, _, _, h => absurd (cons_append_inj h).1.symm u.tag_ne_aggregateEnd
  | t :: ts, [], _, _, _, _, h => absurd (cons_append_inj h).1 t.tag_ne_aggregateEnd
  | t :: ts, u :: us, _, _, ha, hb, h => by
    obtain ⟨hu,hs⟩ := cons_append_inj h
    rw [List.append_assoc, List.append_assoc] at hs
    obtain ⟨rfl,hts⟩ := suffix_append_inj t u ha.1 hb.1 hu hs
    obtain ⟨rfl,hx⟩ := fieldsLiteral_append_inj ts us ha.2 hb.2 hts
    exact ⟨rfl,hx⟩

theorem alternativesLiteral_append_inj : ∀ (as bs : List (List Skeleton)) {x y : List UInt8},
    AlternativesAddressable as → AlternativesAddressable bs →
      alternativesLiteral as ++ x = alternativesLiteral bs ++ y → as = bs ∧ x = y
  | [], [], _, _, _, _, h => ⟨rfl,(cons_append_inj h).2⟩
  | [], gs :: bs, _, _, _, _, h => by cases (cons_append_inj h).1
  | fs :: as, [], _, _, _, _, h => by cases (cons_append_inj h).1
  | fs :: as, gs :: bs, _, _, ha, hb, h => by
    have hs := (cons_append_inj h).2
    rw [List.append_assoc, List.append_assoc] at hs
    obtain ⟨rfl,has⟩ := fieldsLiteral_append_inj fs gs ha.1 hb.1 hs
    obtain ⟨rfl,hx⟩ := alternativesLiteral_append_inj as bs ha.2 hb.2 has
    exact ⟨rfl,hx⟩

end

theorem literal_append_inj {a b : Skeleton} {x y : List UInt8} (ha : a.Addressable)
    (hb : b.Addressable) (h : a.literal ++ x = b.literal ++ y) : a = b ∧ x = y :=
  suffix_append_inj a b ha hb (cons_append_inj h).1 (cons_append_inj h).2

theorem literal_inj {a b : Skeleton} (ha : a.Addressable) (hb : b.Addressable) :
    a.literal = b.literal ↔ a = b := by
  constructor
  · intro h
    exact (literal_append_inj (x := []) (y := []) ha hb (congrArg (· ++ []) h)).1
  · exact congrArg literal

/-- No literal is a proper prefix of another. -/
theorem eq_of_literal_prefix {a b : Skeleton} (ha : a.Addressable) (hb : b.Addressable)
    (h : a.literal <+: b.literal) : a = b := by
  obtain ⟨x,hx⟩ := h
  exact (literal_append_inj (y := []) ha hb (hx.trans (List.append_nil _).symm)).1

theorem addressable_outermost {a : Skeleton} (h : a.Addressable) : a.outermost.Addressable := by
  cases a <;> exact h

end Skeleton

namespace Descriptor

mutual

/-- What a literal tells of a descriptor. -/
def skeleton : Descriptor → Skeleton
  | unit => .unit
  | scalar s => .scalar s
  | text => .text
  | sequence element => .sequence element.skeleton
  | set element => .set element.skeleton
  | map key value => .map key.skeleton value.skeleton
  | array element length => .array element.skeleton length
  | optional payload => .optional payload.skeleton
  | variant _ alternatives => .variant (alternativeSkeletons alternatives)
  | aggregate _ fields extensible => .aggregate (fieldSkeletons fields) extensible
termination_by structural d => d

/-- The skeletons of the mandatory fields. -/
def fieldSkeletons : List FieldDescriptor → List Skeleton
  | [] => []
  | ⟨_, shape, none⟩ :: fs => shape.skeleton :: fieldSkeletons fs
  | ⟨_, _, some _⟩ :: fs => fieldSkeletons fs
termination_by structural fs => fs

def alternativeSkeletons : List AlternativeDescriptor → List (List Skeleton)
  | [] => []
  | ⟨_, fields⟩ :: as => fieldSkeletons fields :: alternativeSkeletons as
termination_by structural as => as

end

@[simp] theorem length_alternativeSkeletons (as : List AlternativeDescriptor) :
    (alternativeSkeletons as).length = as.length := by
  induction as with
  | nil => rfl
  | cons a as ih => exact congrArg (· + 1) ih

theorem append_congr {a b x y : List UInt8} (ha : a = b) (hx : x = y) : a ++ x = b ++ y := by
  rw [ha, hx]

mutual

theorem literal_eq_skeleton : ∀ d : Descriptor, d.literal = d.skeleton.literal
  | unit | scalar _ | text => rfl
  | sequence element | set element | optional element =>
    congrArg (_ :: ·) (literal_eq_skeleton element)
  | map key value => by
    have hk := literal_eq_skeleton key
    have hv := literal_eq_skeleton value
    exact congrArg (Literal.map :: ·) (append_congr hk hv)
  | array element length =>
    congrArg (fun l => Literal.array :: (l ++ Bytes.Varint.encode length))
      (literal_eq_skeleton element)
  | variant _ alternatives => by
    have hl := length_alternativeSkeletons alternatives
    have ha := alternativesLiteral_eq_skeletons alternatives
    change _ :: (Bytes.Varint.encode alternatives.length ++ alternativesLiteral alternatives) = _
    rw [← hl, ha]
    rfl
  | aggregate _ fields true | aggregate _ fields false =>
    congrArg (_ :: ·) (fieldsLiteral_eq_skeletons fields)

theorem fieldsLiteral_eq_skeletons : ∀ fs : List FieldDescriptor,
    fieldsLiteral fs = Skeleton.fieldsLiteral (fieldSkeletons fs)
  | [] => rfl
  | ⟨_, shape, none⟩ :: fs =>
    append_congr (literal_eq_skeleton shape) (fieldsLiteral_eq_skeletons fs)
  | ⟨_, _, some _⟩ :: fs => fieldsLiteral_eq_skeletons fs

theorem alternativesLiteral_eq_skeletons : ∀ as : List AlternativeDescriptor,
    alternativesLiteral as = Skeleton.alternativesLiteral (alternativeSkeletons as)
  | [] => rfl
  | ⟨_, fields⟩ :: as =>
    congrArg (Literal.aggregateBegin :: ·)
      (append_congr (fieldsLiteral_eq_skeletons fields) (alternativesLiteral_eq_skeletons as))

end

theorem topLevelLiteral_eq_skeleton (d : Descriptor) :
    d.topLevelLiteral = d.skeleton.outermost.literal := by
  cases d with
  | aggregate typeName fields extensible =>
    exact congrArg (Literal.aggregateBegin :: ·) (fieldsLiteral_eq_skeletons fields)
  | _ => exact literal_eq_skeleton _

end Descriptor

namespace Schema

mutual

/-- Whether the lengths of all arrays are numbers of 64 bits. -/
def Addressable : Schema → Prop
  | unit | scalar _ | text | duration | reference _ => True
  | sequence t | set t | option t | pointer _ t | compatible t _ | named _ t => t.Addressable
  | map k v => k.Addressable ∧ v.Addressable
  | array t n => t.Addressable ∧ n < addressSpace
  | tuple ts => AllAddressable ts
  | struct _ _ fields => FieldsAddressable fields
  | enum _ _ alternatives => AlternativesAddressable alternatives
termination_by structural t => t

def AllAddressable : List Schema → Prop
  | [] => True
  | t :: ts => t.Addressable ∧ AllAddressable ts
termination_by structural ts => ts

def FieldsAddressable : List Field → Prop
  | [] => True
  | .mandatory _ t :: fs | .compatible _ _ t :: fs => t.Addressable ∧ FieldsAddressable fs
  | .skipped .. :: fs => FieldsAddressable fs
termination_by structural fs => fs

def AlternativesAddressable : List Alternative → Prop
  | [] => True
  | .mk _ _ fields :: as => FieldsAddressable fields ∧ AlternativesAddressable as
termination_by structural as => as

end

open Descriptor (fieldSkeletons alternativeSkeletons)

mutual

theorem addressable_skeleton : ∀ t : Schema, t.WellFormed → t.Addressable →
    t.shape.skeleton.Addressable
  | unit, _, _ | scalar _, _, _ | text, _, _ => trivial
  | duration, _, _ => ⟨trivial,trivial,trivial⟩
  | reference _, hw, _ | compatible .., hw, _ => hw.elim
  | sequence t, hw, ha | set t, hw, ha | option t, hw, ha => addressable_skeleton t hw ha
  | pointer _ t, hw, ha | named _ t, hw, ha => addressable_skeleton t hw ha
  | array t _, hw, ha => ⟨addressable_skeleton t hw ha.1,ha.2⟩
  | map k v, hw, ha => ⟨addressable_skeleton k hw.1 ha.1,addressable_skeleton v hw.2 ha.2⟩
  | tuple ts, hw, ha => componentSkeletons_addressable 0 ts hw ha
  | struct _ _ fields, hw, ha => fieldSkeletons_addressable fields hw.2.2 ha
  | enum _ _ alternatives, hw, ha => by
    have hl : (alternativeSkeletons (alternativeShapes alternatives)).length < addressSpace := by
      rw [Descriptor.length_alternativeSkeletons, length_alternativeShapes]
      exact Nat.lt_of_le_of_lt hw.1 (by decide)
    exact ⟨hl,alternativeSkeletons_addressable alternatives hw.2 ha⟩

theorem componentSkeletons_addressable : ∀ (index : Nat) (ts : List Schema), AllWellFormed ts →
    AllAddressable ts → Skeleton.AllAddressable (fieldSkeletons (componentShapes index ts))
  | _, [], _, _ => trivial
  | index, t :: ts, hw, ha =>
    ⟨addressable_skeleton t hw.1 ha.1,componentSkeletons_addressable (index + 1) ts hw.2 ha.2⟩

theorem fieldSkeletons_addressable : ∀ fs : List Field, FieldsWellFormed fs →
    FieldsAddressable fs → Skeleton.AllAddressable (fieldSkeletons (fieldShapes fs))
  | [], _, _ => trivial
  | .mandatory _ t :: fs, hw, ha =>
    ⟨addressable_skeleton t hw.1 ha.1,fieldSkeletons_addressable fs hw.2 ha.2⟩
  | .compatible .. :: fs, hw, ha => fieldSkeletons_addressable fs hw.2 ha.2
  | .skipped .. :: fs, hw, ha => fieldSkeletons_addressable fs hw ha

theorem alternativeSkeletons_addressable : ∀ as : List Alternative, AlternativesWellFormed as →
    AlternativesAddressable as →
      Skeleton.AlternativesAddressable (alternativeSkeletons (alternativeShapes as))
  | [], _, _ => trivial
  | .mk _ _ fields :: as, hw, ha =>
    ⟨fieldSkeletons_addressable fields hw.2.1 ha.1,alternativeSkeletons_addressable as hw.2.2 ha.2⟩

end

end Schema

namespace Descriptor

/-- The literals of two described types agree exactly if their skeletons do, none is a proper prefix
of another, and the literals of the types outermost do not tell extensible aggregates from others. -/
theorem literal_eq_iff_skeleton_eq {t u : Schema} {e e' f f' : List String} {c d : Descriptor}
    (ht : t.describe e = .ok c e') (hu : u.describe f = .ok d f') (hta : t.Addressable)
    (hua : u.Addressable) :
    (c.literal = d.literal ↔ c.skeleton = d.skeleton) ∧
      (c.literal <+: d.literal → c.literal = d.literal) ∧
      (c.topLevelLiteral = d.topLevelLiteral ↔ c.skeleton.outermost = d.skeleton.outermost) := by
  obtain ⟨rfl,htw,-⟩ := t.describe_eq_ok ht
  obtain ⟨rfl,huw,-⟩ := u.describe_eq_ok hu
  have ha := t.addressable_skeleton htw hta
  have hb := u.addressable_skeleton huw hua
  have hoa := Skeleton.addressable_outermost ha
  have hob := Skeleton.addressable_outermost hb
  simp only [literal_eq_skeleton, topLevelLiteral_eq_skeleton]
  refine ⟨Skeleton.literal_inj ha hb,?_,Skeleton.literal_inj hoa hob⟩
  intro hp
  rw [Skeleton.eq_of_literal_prefix ha hb hp]

/-- Perhaps a track of so many points, with the fields that it has beside these and its origin. -/
def track (points : Nat) (later : List Field) : Schema :=
  .option (.struct "Track" .named
    (.mandatory "points" (.array (.scalar .u16) points) ::
      .mandatory "origin" (.enum "Origin" "Origin"
        [.mk "Unknown" .unit [], .mk "At" .positional [.mandatory "0" (.scalar .f32)]]) :: later))

theorem addressable_track {points : Nat} {later : List Field} (h : points < addressSpace)
    (hl : Schema.FieldsAddressable later) : (track points later).Addressable :=
  ⟨⟨trivial,h⟩,⟨trivial,⟨trivial,trivial⟩,trivial⟩,hl⟩

/-- A later note leaves no trace in a literal, the number of points does. -/
theorem literal_track :
    let note := Field.compatible "note" 1 .text
    (track 3 []).shape.literal = (track 3 [note]).shape.literal ∧
      (track 3 []).shape.literal ≠ (track 300 []).shape.literal ∧
      ¬(track 3 []).shape.literal <+: (track 300 []).shape.literal := by
  have h3 : (track 3 []).Addressable := addressable_track (by decide) trivial
  have hn : (track 3 [.compatible "note" 1 .text]).Addressable :=
    addressable_track (by decide) ⟨trivial,trivial⟩
  have h300 : (track 300 []).Addressable := addressable_track (by decide) trivial
  have hsame := literal_eq_iff_skeleton_eq (e := []) (f := []) (c := (track 3 []).shape) rfl rfl h3 hn
  have hother := literal_eq_iff_skeleton_eq (e := []) (f := []) (c := (track 3 []).shape) rfl rfl h3
    h300
  refine ⟨hsame.1.mpr rfl,?_,?_⟩
  · intro h
    cases hother.1.mp h
  · intro h
    cases hother.1.mp (hother.2.1 h)

end Descriptor
end RecordCodec
