import RecordCodec.Proofs.AddressLimits
import RecordCodec.Proofs.Widths

/-! # Where planned fields are

A layout lists the fields as they are declared, the mandatory ones first, and numbers the slots of the
others. An offset is planned for a mandatory field if every field before it has a fixed width and these
add up to an address. The bytes of the field then begin so many bytes behind the first mandatory byte,
in the record of every value.
-/
namespace RecordCodec

open Bytes
open FieldLayout (widths)

/-! ## The order of a layout -/

def FieldLayout.described (f : FieldLayout) : FieldDescriptor :=
  ⟨f.name,f.descriptor,f.slot.map (·.version)⟩

namespace Extract

variable {f : FieldLayout}

theorem described_plan (fs : List FieldDescriptor) (index slot : Nat) (offset : Option Nat) :
    (FieldLayout.plan index offset slot fs).map FieldLayout.described = fs := by
  induction fs generalizing index slot offset with
  | nil => rfl
  | cons d fs ih =>
    obtain ⟨name,shape,version⟩ := d
    cases version with
    | none => exact congrArg (_ :: ·) (ih ..)
    | some version => exact congrArg (_ :: ·) (ih ..)

theorem index_plan {fs : List FieldDescriptor} {index slot i : Nat} {offset : Option Nat}
    (h : (FieldLayout.plan index offset slot fs)[i]? = some f) : f.index = index + i := by
  induction fs generalizing index slot offset i with
  | nil => cases h
  | cons d fs ih =>
    obtain ⟨name,shape,version⟩ := d
    cases i with
    | zero => cases version <;> cases h <;> rfl
    | succ i =>
      have hi : f.index = index + 1 + i := by cases version <;> exact ih h
      rw [hi, Nat.add_assoc, Nat.add_comm 1 i]

theorem slot_compatiblePlan {fs : List FieldDescriptor} {index slot i : Nat} {offset : Option Nat}
    (h : (compatiblePlan index offset slot fs)[i]? = some f) :
    ∃ version, f.slot = some ⟨slot + i,version⟩ := by
  induction fs generalizing index slot offset i with
  | nil => cases h
  | cons d fs ih =>
    obtain ⟨name,shape,version⟩ := d
    cases version with
    | none => exact ih h
    | some version =>
      cases i with
      | zero =>
        cases h
        exact ⟨version,rfl⟩
      | succ i =>
        obtain ⟨later,hs⟩ := ih h
        refine ⟨later,hs.trans ?_⟩
        rw [Nat.add_assoc, Nat.add_comm 1 i]

theorem mandatoryPlan_of_none {fs : List Field} (h : Field.mandatorySchemas fs = [])
    (index slot : Nat) (offset : Option Nat) :
    mandatoryPlan index offset slot (Schema.fieldShapes fs) = [] := by
  induction fs generalizing index slot with
  | nil => rfl
  | cons f fs ih =>
    cases f with
    | mandatory name t => cases h
    | compatible name version t => exact ih h (index + 1) (slot + 1)
    | skipped name t default => exact ih h index slot

theorem plan_of_inOrder {fs : List Field} (h : Field.InOrder fs) (index slot : Nat)
    (offset : Option Nat) :
    FieldLayout.plan index offset slot (Schema.fieldShapes fs) =
      mandatoryPlan index offset slot (Schema.fieldShapes fs) ++
        compatiblePlan index offset slot (Schema.fieldShapes fs) := by
  induction fs generalizing index slot offset with
  | nil => rfl
  | cons f fs ih =>
    cases f with
    | mandatory name t => exact congrArg (_ :: ·) (ih h (index + 1) slot _)
    | compatible name version t =>
      have hlater := ih h.2 (index + 1) (slot + 1) offset
      have hnone : mandatoryPlan index offset slot
          (Schema.fieldShapes (.compatible name version t :: fs)) = [] :=
        mandatoryPlan_of_none h.1 (index + 1) (slot + 1) offset
      rw [mandatoryPlan_of_none h.1] at hlater
      rw [hnone]
      exact congrArg (_ :: ·) hlater
    | skipped name t default => exact ih h index slot offset

/-- The offset behind fields is the sum of their widths, where all have one and this is an address. -/
theorem behind_eq_some_iff {fs : List FieldLayout} {n o : Nat} (hn : n < addressSpace) :
    behind (some n) fs = some o ↔
      (∀ f ∈ fs, f.descriptor.fixedWidth.isSome = true) ∧ o = n + widths fs ∧ o < addressSpace := by
  induction fs generalizing n with
  | nil =>
    constructor
    · rintro ⟨⟩
      exact ⟨nofun,rfl,hn⟩
    · rintro ⟨-,rfl,-⟩
      rfl
  | cons f fs ih =>
    rw [List.forall_mem_cons, FieldLayout.widths_cons]
    have hcons : behind (some n) (f :: fs) =
        behind (f.descriptor.fixedWidth.bind fun w => checked (n + w)) fs := rfl
    rw [hcons]
    cases f.descriptor.fixedWidth with
    | none =>
      rw [Option.bind_none, behind_none]
      simp
    | some w =>
      rw [Option.bind_some, Option.getD_some, ← Nat.add_assoc]
      by_cases hlt : n + w < addressSpace
      · rw [checked_eq_some.mpr ⟨hlt,rfl⟩, ih hlt]
        simp
      · have hnone : checked (n + w) = none := if_neg hlt
        have hle : o = n + w + widths fs → ¬ o < addressSpace := by omega
        rw [hnone, behind_none]
        simpa using fun _ => hle

end Extract

namespace Layout

variable {l : Layout} {f : FieldLayout} {i : Nat}

/-- A layout has the fields in the order of their declaration, the mandatory ones first, the others
with numbered slots, and plans an offset wherever the fields before add up to one. -/
structure Orderly (l : Layout) (fs : List Field) : Prop where
  declared : l.fields.map FieldLayout.described = Schema.fieldShapes fs
  index_eq : ∀ (i : Nat) (f : FieldLayout), l.fields[i]? = some f → f.index = i
  mandatory_first : l.fields = l.mandatoryFields ++ l.compatibleFields
  slot_eq : ∀ (i : Nat) (f : FieldLayout), l.compatibleFields[i]? = some f →
    ∃ version, f.slot = some ⟨i,version⟩
  offset_iff : ∀ f ∈ l.mandatoryFields, ∀ o, f.offset = some o ↔
    (∀ g ∈ l.fields.take f.index, g.descriptor.fixedWidth.isSome = true) ∧
      o = widths (l.fields.take f.index) ∧ o < addressSpace

theorem offset_eq_behind (h : l.mandatoryFields[i]? = some f) :
    f.offset = Extract.behind (some 0) (l.mandatoryFields.take i) := by
  obtain ⟨hi,rfl⟩ := List.getElem?_eq_some_iff.mp h
  have hplan := l.planned_mandatoryFields
  rw [← List.take_append_drop i l.mandatoryFields, List.drop_eq_getElem_cons hi] at hplan
  exact (Extract.planned_append.mp hplan).2.1

theorem orderly_of_fields {fs : List Field} (hi : Field.InOrder fs)
    (h : l.fields = FieldLayout.plan 0 (some 0) 0 (Schema.fieldShapes fs)) : l.Orderly fs := by
  have hm : l.mandatoryFields = Extract.mandatoryPlan 0 (some 0) 0 (Schema.fieldShapes fs) :=
    congrArg (List.filter _) h
  have hc : l.compatibleFields = Extract.compatiblePlan 0 (some 0) 0 (Schema.fieldShapes fs) :=
    congrArg (List.filter _) h
  have hindex (i : Nat) (f : FieldLayout) (hf : l.fields[i]? = some f) : f.index = i := by
    rw [h] at hf
    exact (Extract.index_plan hf).trans (Nat.zero_add i)
  have hfirst : l.fields = l.mandatoryFields ++ l.compatibleFields := by
    rw [h, hm, hc]
    exact Extract.plan_of_inOrder hi 0 0 (some 0)
  refine ⟨?_,hindex,hfirst,?_,?_⟩
  · rw [h]
    exact Extract.described_plan _ 0 0 (some 0)
  · intro i f hf
    rw [hc] at hf
    obtain ⟨version,hs⟩ := Extract.slot_compatiblePlan hf
    rw [Nat.zero_add] at hs
    exact ⟨version,hs⟩
  · intro f hf o
    obtain ⟨i,hlt,rfl⟩ := List.mem_iff_getElem.mp hf
    have hf := List.getElem?_eq_getElem hlt
    have hat : l.fields[i]? = some l.mandatoryFields[i] := by
      rw [hfirst, List.getElem?_append_left hlt, hf]
    have htake : l.fields.take i = l.mandatoryFields.take i := by
      rw [hfirst, List.take_append_of_le_length (Nat.le_of_lt hlt)]
    rw [hindex i _ hat, htake, offset_eq_behind hf, Extract.behind_eq_some_iff (by decide),
      Nat.zero_add]

end Layout

/-! ## The bytes of planned fields -/

namespace Field

variable {R : Schema × Value → List UInt8 → Prop}

theorem planned_parts {fs : List Field} {vs : List Value} {bs : List (List UInt8)}
    (ha : Schema.fieldsAdmit fs vs = true) (h : List.Forall₂ R (mandatoryParts fs vs) bs)
    (index slot : Nat) (offset : Option Nat) :
    List.Forall₂ (fun f b => ∃ j u v, f.index = index + j ∧ f.descriptor = u.shape ∧
        (described fs vs)[j]? = some (.mandatory f.name u,v) ∧ R (u,v) b)
      (Extract.mandatoryPlan index offset slot (Schema.fieldShapes fs)) bs := by
  induction fs generalizing vs bs index slot offset with
  | nil =>
    cases h
    exact .nil
  | cons g fs ih =>
    cases vs with
    | nil => cases g <;> cases ha
    | cons v vs =>
      cases g with
      | skipped name t default => exact ih ha h index slot offset
      | mandatory name t =>
        cases h with
        | cons hb h =>
          have hlater := ih (Bool.and_eq_true_iff.mp ha).2 h (index + 1) slot
            (Extract.offsetBehind offset t.shape)
          refine .cons ⟨0,t,v,rfl,rfl,rfl,hb⟩ (hlater.imp ?_)
          rintro f b ⟨j,u,w,hj,hd,hp,hr⟩
          exact ⟨j + 1,u,w,by omega,hd,hp,hr⟩
      | compatible name version t =>
        have hlater := ih (Schema.fieldsAdmit_of_compatible ha) h (index + 1) (slot + 1) offset
        refine hlater.imp ?_
        rintro f b ⟨j,u,w,hj,hd,hp,hr⟩
        exact ⟨j + 1,u,w,by omega,hd,hp,hr⟩

end Field

namespace Extract

theorem length_flatten_of_behind {fs : List FieldLayout} {bs : List (List UInt8)} {n o : Nat}
    (h : List.Forall₂ (fun f b => ∀ w, f.descriptor.fixedWidth = some w → b.length = w) fs bs)
    (ho : behind (some n) fs = some o) : o = n + bs.flatten.length := by
  induction h generalizing n with
  | nil => exact (Option.some.inj ho).symm
  | @cons f b fs bs hb _ ih =>
    change behind (offsetBehind (some n) f.descriptor) fs = some o at ho
    cases hk : offsetBehind (some n) f.descriptor with
    | none =>
      rw [hk, behind_none] at ho
      cases ho
    | some k =>
      rw [hk] at ho
      obtain ⟨_,w,⟨⟩,hw,rfl⟩ := offsetBehind_eq_some hk
      rw [ih ho, List.flatten_cons, List.length_append, hb w hw, Nat.add_assoc]

end Extract

/-- Where a field has an offset, the fields before it have so many bytes. -/
theorem Layout.offset_eq_length {l : Layout} {bs : List (List UInt8)} {i o : Nat} {f : FieldLayout}
    (h : List.Forall₂ (fun f b => ∀ w, f.descriptor.fixedWidth = some w → b.length = w)
      l.mandatoryFields bs) (hf : l.mandatoryFields[i]? = some f) (ho : f.offset = some o) :
    (bs.take i).flatten.length = o := by
  rw [offset_eq_behind hf] at ho
  have hlength := Extract.length_flatten_of_behind (List.forall₂_take i h) ho
  rw [Nat.zero_add] at hlength
  exact hlength.symm

/-- The record of a value is the header, the bitmap if it is announced, the bytes `bs` of the
mandatory fields and whatever the slots hold. Where a field has an offset, the fields before it have so
many bytes. -/
structure Layout.Places (l : Layout) (t : Schema) (parts : List (Field × Value)) (v : Value)
    (p : Presence) (bs : List (List UInt8)) (tail : List UInt8) : Prop where
  serialized : Record.serialize t v = .ok (LittleEndian.encode Header.width l.header.raw ++
    ((if l.header.announcesBitmap then p.toBytes else []) ++ (bs.flatten ++ tail)))
  mandatory : List.Forall₂ (fun f b => ∃ u w, parts[f.index]? = some (.mandatory f.name u,w) ∧
    IsEncoding (u,w) b) l.mandatoryFields bs
  offset_eq : ∀ (i : Nat) (f : FieldLayout), l.mandatoryFields[i]? = some f →
    ∀ o, f.offset = some o → (bs.take i).flatten.length = o

namespace Record

variable {t : Schema} {d : Descriptor} {fs : List Field} {v : Value}

theorem orderly_of_aggregate (hw : t.WellFormed) (h : t.aggregateFields? = some fs)
    (typeName : String) : Layout.Orderly ⟨typeName,t.shape⟩ fs := by
  obtain ⟨name,extensible,hs⟩ := Schema.shape_of_aggregate h
  refine Layout.orderly_of_fields (Schema.wellFormed_of_aggregate h hw).1 ?_
  rw [hs]
  rfl

theorem exists_mandatory_bytes {vs : List Value} {p : Presence} (hd : t.descriptor = .ok d)
    (h : t.aggregateFields? = some fs) (hp : t.Consists v fs vs p)
    (hl : ∀ n ∈ t.lengths v, n < addressSpace) :
    ∃ bs tail, List.Forall₂ IsEncoding (Field.mandatoryParts fs vs) bs ∧
      serialize t v =
        .ok (LittleEndian.encode Header.width (Layout.header ⟨t.name,t.shape⟩).raw ++
          ((if (Layout.header ⟨t.name,t.shape⟩).announcesBitmap then p.toBytes else []) ++
            (bs.flatten ++ tail))) := by
  have hw := Schema.wellFormed_of_aggregate h (Schema.descriptor_eq_ok hd).2
  rw [hp.lengths_eq] at hl
  -- the fields are written as those of a struct are
  have hfits : Fits .widest (.struct t.name .named fs,.record vs) := .widest hw hp.admits hl
  obtain ⟨es,bs,ps,he,hbs,-,-,hbytes⟩ := Schema.exists_parts Options.widest_lt hfits
  have hbody := hp.body_eq
  rw [he] at hbody
  have hflag := Schema.announcesBitmap_of_aggregate h t.name
  rw [← hp.isEmpty_eq] at hflag
  refine ⟨bs,ps.flatMap behindLength,hbs,?_⟩
  rw [serialize_of_body hd hbody hflag, hbytes]

theorem exists_places (hd : t.descriptor = .ok d) (h : t.aggregateFields? = some fs)
    (ha : t.admits v = true) (hl : ∀ n ∈ t.lengths v, n < addressSpace) :
    ∃ vs p bs tail, v = .record vs ∧ Presence.ofSlots (Field.slots fs vs) = .ok p ∧
      Layout.Places ⟨t.name,t.shape⟩ t (Field.described fs vs) v p bs tail := by
  have hw := (Schema.descriptor_eq_ok hd).2
  obtain ⟨vs,p,hp⟩ := Schema.exists_consists h hw ha
  obtain ⟨bs,tail,hbs,hserialized⟩ := exists_mandatory_bytes hd h hp hl
  have hsized := Schema.sized_mandatoryParts (Schema.wellFormed_of_aggregate h hw).2.2 hp.admits
  obtain ⟨name,extensible,hs⟩ := Schema.shape_of_aggregate h
  have hplan : Layout.mandatoryFields ⟨t.name,t.shape⟩ =
      Extract.mandatoryPlan 0 (some 0) 0 (Schema.fieldShapes fs) := by
    rw [hs]
    rfl
  have hparts := Field.planned_parts hp.admits ((List.forall₂_and_left _ _).mpr ⟨hsized,hbs⟩)
    0 0 (some 0)
  rw [← hplan] at hparts
  refine ⟨vs,p,bs,tail,hp.value_eq,hp.built,hserialized,?_,?_⟩
  · refine hparts.imp ?_
    rintro f b ⟨j,u,w,hj,-,hpart,-,hb⟩
    rw [Nat.zero_add] at hj
    exact ⟨u,w,hj ▸ hpart,hb⟩
  · intro i f hf o ho
    refine Layout.offset_eq_length (hparts.imp ?_) hf ho
    rintro f b ⟨-,u,w,-,hd,-,hfills,hb⟩ k hk
    exact hfills.length_eq hb (hd ▸ hk)

/-- Fixed widths and offsets are true of every value: a type of a fixed width is written and read in
so many bytes, and a record of a fixed size has so many behind its header. The layout of an aggregate
is in order, and each field that has an offset begins there in the record of every value. -/
theorem widths_and_offsets (hd : t.descriptor = .ok d) :
    ∃ l : Layout, Layout.of t = .ok l ∧
      (∀ w, d.fixedWidth = some w → t.HasWidth w) ∧
      (∀ w, l.fixedSize = some w → ∀ v, t.admits v = true →
        ∃ bytes, serialize t v = .ok bytes ∧ bytes.length = Header.width + w) ∧
      (l.isAggregate = true → ∃ fs, t.aggregateFields? = some fs ∧ l.Orderly fs ∧
        ∀ v, t.admits v = true → (∀ n ∈ t.lengths v, n < addressSpace) →
          ∃ vs p bs tail, v = .record vs ∧ Presence.ofSlots (Field.slots fs vs) = .ok p ∧
            l.Places t (Field.described fs vs) v p bs tail) := by
  obtain ⟨rfl,hw⟩ := Schema.descriptor_eq_ok hd
  refine ⟨_,layout_of hd,?_,?_,?_⟩
  · exact fun w h => Schema.hasWidth_of_fixedWidth hw h
  · exact fun w h v ha => exists_serialize hd ha h
  · intro h
    cases hf : t.aggregateFields? with
    | none =>
      rw [(Schema.plain_of_no_fields (v := .unit) hw hf t.name).1] at h
      cases h
    | some fs =>
      exact ⟨fs,rfl,orderly_of_aggregate hw hf t.name,fun v ha hl => exists_places hd hf ha hl⟩

def route : Schema := .tuple [.scalar .u16, .duration]

def leg : Schema :=
  .struct "Leg" .positional [.mandatory "0" route, .mandatory "1" (.array (.scalar .u8) 3)]

def cargoFields : List Field :=
  [.mandatory "route" route, .skipped "hint" .text (.text ""),
    .mandatory "grades" (.array (.scalar .u8) 3), .mandatory "label" .text,
    .mandatory "weight" (.scalar .u32), .compatible "seal" 1 (.scalar .u16),
    .compatible "note" 2 .text]

def cargo : Schema := .pointer .rc (.struct "Cargo" .named cargoFields)

def loadedCargo : List Value :=
  [.record [.int 7, .record [.int 60, .int 5]], .text "left", .sequence [.int 1, .int 2, .int 3],
    .text "ab", .int 900, .absent, .present (.text "hi")]

theorem widths_and_offsets_cargo :
    route.HasWidth 14 ∧ leg.shape.fixedWidth = none ∧
      (∃ bytes, serialize leg (.record [.record [.int 7, .record [.int 60, .int 5]],
        .sequence [.int 1, .int 2, .int 3]]) = .ok bytes ∧ bytes.length = Header.width + 17) ∧
      ∃ l p bs tail, Layout.of cargo = .ok l ∧ l.Orderly cargoFields ∧
        l.Places cargo (Field.described cargoFields loadedCargo) (.record loadedCargo) p bs tail ∧
        l.mandatoryFields.map (·.offset) = [some 0, some 14, some 17, none] ∧
        (bs.take 2).flatten.length = 17 := by
  obtain ⟨-,-,hroute,-,-⟩ := widths_and_offsets (t := route) (d := route.shape) (by rfl)
  obtain ⟨l,hl,-,hleg,-⟩ := widths_and_offsets (t := leg) (d := leg.shape) (by rfl)
  obtain rfl : ⟨leg.name,leg.shape⟩ = l := Except.ok.inj hl
  have hlegBytes := hleg 17 (by decide) (.record [.record [.int 7, .record [.int 60, .int 5]],
    .sequence [.int 1, .int 2, .int 3]]) (by decide)
  obtain ⟨l,hl,-,-,hcargo⟩ := widths_and_offsets (t := cargo) (d := cargo.shape) (by rfl)
  obtain rfl : ⟨cargo.name,cargo.shape⟩ = l := Except.ok.inj hl
  obtain ⟨fs,hfs,hordered,hplaces⟩ := hcargo rfl
  obtain rfl : cargoFields = fs := Option.some.inj hfs
  obtain ⟨vs,p,bs,tail,hv,-,hp⟩ := hplaces (.record loadedCargo) (by decide) (by decide)
  obtain rfl : loadedCargo = vs := Value.record.inj hv
  exact ⟨hroute 14 (by decide),rfl,hlegBytes,_,p,bs,tail,hl,hordered,hp,rfl,
    hp.offset_eq 2 _ rfl 17 rfl⟩

end Record
end RecordCodec
