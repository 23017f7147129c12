import Mathlib.Data.List.Forall2
import RecordCodec.Proofs.RecordFields
import RecordCodec.Proofs.RoundTrip

/-! # What structs are composed of

The header of a struct's records, its layout and the bitmap that opens a value are each made in a way
of their own from the same fields. They agree all the same: the bitmap has a slot for every field
that the layout plans as a compatible one, and the header announces it exactly if there is such a
field. Behind the bitmap are the mandatory fields, and behind them the payloads of the filled slots,
each behind its length.
-/
namespace RecordCodec

open Bytes
open Emission (allBytes framed)

/-! ## Bitmaps and layouts -/

/-- The bytes of a bitmap. -/
def Presence.toBytes (p : Presence) : List UInt8 := Varint.encode p.size ++ p.bitBytes

@[simp] theorem Emission.allBytes_presence (p : Presence) :
    allBytes (presence p) = p.toBytes := by
  simp [allBytes, presence, Presence.toBytes, toBytes]

namespace Field

theorem isFilled_eq_true {t : Schema} {v : Value} :
    isFilled (t,v) = true ↔ ∃ w, v = .present w := by
  cases v <;> simp [isFilled]

/-- A compatible field is planned in its place, with the slot that it has among the others. -/
theorem described_of_compatiblePlan (fs : List Field) {vs : List Value}
    (ha : Schema.fieldsAdmit fs vs = true) (index slot : Nat) (offset : Option Nat) {i : Nat}
    {f : FieldLayout}
    (h : (Extract.compatiblePlan index offset slot (Schema.fieldShapes fs))[i]? = some f) :
    ∃ j version t v, f.index = index + j ∧ f.slot = some ⟨slot + i,version⟩ ∧
      (described fs vs)[j]? = some (.compatible f.name version t,v) ∧
      (slotParts fs vs)[i]? = some (t,v) := by
  induction fs generalizing vs index slot offset i with
  | nil => cases h
  | cons g fs ih =>
    cases vs with
    | nil => cases g <;> cases ha
    | cons v vs =>
      cases g with
      -- a skipped field has no place in the layout, and a mandatory one no slot
      | skipped name t default => exact ih ha index slot offset h
      | mandatory name t =>
        have hk := (Bool.and_eq_true_iff.mp ha).2
        obtain ⟨j,version,u,w,hj,hs,hd,hp⟩ := ih hk (index + 1) slot _ h
        exact ⟨j + 1,version,u,w,by omega,hs,hd,hp⟩
      | compatible name version t =>
        cases i with
        | zero =>
          cases h
          exact ⟨0,version,t,v,rfl,rfl,rfl,rfl⟩
        | succ i =>
          have hk := Schema.fieldsAdmit_of_compatible ha
          obtain ⟨j,version,u,w,hj,hs,hd,hp⟩ := ih hk (index + 1) (slot + 1) offset h
          have hslot : slot + 1 + i = slot + (i + 1) := by omega
          rw [hslot] at hs
          exact ⟨j + 1,version,u,w,by omega,hs,hd,hp⟩

theorem length_compatiblePlan (fs : List Field) (index slot : Nat) (offset : Option Nat) :
    (Extract.compatiblePlan index offset slot (Schema.fieldShapes fs)).length =
      (slotSchemas fs).length := by
  induction fs generalizing index slot offset with
  | nil => rfl
  | cons g fs ih =>
    cases g with
    | skipped name t default => exact ih ..
    | mandatory name t => exact ih ..
    | compatible name version t => exact congrArg (· + 1) (ih ..)

end Field

variable {t : Schema} {name : String} {style : Style} {fields : List Field} {vs : List Value}
  {p : Presence}

/-- A bitmap has the slots that a layout has planned, each filled exactly if the planned field holds
something, and is announced by the header if it has any. -/
structure Presence.Agrees (p : Presence) (layout : Layout) (fields : List Field) (vs : List Value) :
    Prop where
  built : ofSlots (Field.slots fields vs) = .ok p
  size_eq : p.size = layout.compatibleFields.length
  planned : ∀ (i : Nat) (f : FieldLayout), layout.compatibleFields[i]? = some f →
    ∃ version t v, f.slot = some ⟨i,version⟩ ∧
      (Field.described fields vs)[f.index]? = some (.compatible f.name version t,v) ∧
      (Field.slotParts fields vs)[i]? = some (t,v) ∧ (p.isPresent i = true ↔ ∃ w, v = .present w)
  announced : layout.header.announcesBitmap = true ↔ layout.compatibleFields ≠ []

theorem Presence.Agrees.announces_eq {layout : Layout} (h : p.Agrees layout fields vs) :
    layout.header.announcesBitmap = !p.isEmpty := by
  have hempty : p.isEmpty = true ↔ layout.compatibleFields = [] := by
    rw [← List.length_eq_zero_iff, ← h.size_eq]
    simp [Presence.isEmpty, Presence.size]
  have hflag := h.announced
  rw [Ne, ← hempty] at hflag
  rw [Bool.eq_iff_iff, hflag]
  simp

namespace Schema

theorem compatibleFields_of_struct (hb : t.bare = .struct name style fields) (typeName : String) :
    Layout.compatibleFields ⟨typeName,t.shape⟩ =
      Extract.compatiblePlan 0 (some 0) 0 (fieldShapes fields) := by
  rw [← shape_bare, hb]
  rfl

theorem announcesBitmap_of_struct (hb : t.bare = .struct name style fields) (typeName : String) :
    (Layout.header ⟨typeName,t.shape⟩).announcesBitmap = !(Field.slotSchemas fields).isEmpty := by
  rw [← shape_bare, hb]
  exact anyCompatible_fieldShapes fields

theorem agrees_of_struct (hb : t.bare = .struct name style fields) (hw : t.WellFormed)
    (ha : fieldsAdmit fields vs = true) (typeName : String) :
    ∃ p : Presence, p.Agrees ⟨typeName,t.shape⟩ fields vs ∧
      p.slots = (Field.slotParts fields vs).map Field.isFilled := by
  rw [← wellFormed_bare, hb] at hw
  obtain ⟨-,hn,hfields⟩ := hw
  obtain ⟨p,hp,hslots⟩ := ofSlots_fields hn hfields ha
  have hplan := compatibleFields_of_struct hb typeName
  have hlength := Field.length_compatiblePlan fields 0 0 (some 0)
  refine ⟨p,⟨hp,?_,?_,?_⟩,hslots⟩
  -- the bitmap and the layout count the same fields: those with a payload's type
  · unfold Presence.size
    rw [hplan, hlength, hslots, ← (map_fst_parts ha).2]
    simp
  · intro i f hf
    rw [hplan] at hf
    obtain ⟨j,version,u,v,hj,hs,hd,hv⟩ := Field.described_of_compatiblePlan fields ha 0 0 (some 0) hf
    rw [Nat.zero_add] at hj hs
    subst hj
    refine ⟨version,u,v,hs,hd,hv,?_⟩
    have hbit : p.slots[i]? = some (Field.isFilled (u,v)) := by simp [hslots, hv]
    unfold Presence.isPresent
    rw [List.getD_eq_getElem?_getD, hbit]
    exact Field.isFilled_eq_true
  · rw [announcesBitmap_of_struct hb, hplan, ← List.length_pos_iff, hlength, List.length_pos_iff]
    simp

end Schema

/-! ## Bytes -/

/-- The bytes of a value inside another. -/
def IsEncoding (part : Schema × Value) (b : List UInt8) : Prop :=
  ∃ es, part.1.encode part.2 = .ok es ∧ b = allBytes es

/-- What a slot holds: the bytes of its payload, or none if it is empty. -/
inductive IsPayload : Schema × Value → Option (List UInt8) → Prop where
  | empty (t : Schema) : IsPayload (t,.absent) none
  | filled {t : Schema} {v : Value} {b : List UInt8} (h : IsEncoding (t,v) b) :
    IsPayload (t,.present v) (some b)

/-- The bytes of a slot: a payload behind its length, and nothing for an empty slot. -/
def behindLength : Option (List UInt8) → List UInt8
  | none => []
  | some b => Varint.encode b.length ++ b

/-- The bytes `bs` of the mandatory fields and those of the payloads, `ps`, make up a value, behind
its bitmap, and a record, behind its header and the bitmap that this announces. -/
structure Presence.Composes (p : Presence) (t : Schema) (layout : Layout) (fields : List Field)
    (vs : List Value) (bs : List (List UInt8)) (ps : List (Option (List UInt8))) : Prop where
  mandatory : List.Forall₂ IsEncoding (Field.mandatoryParts fields vs) bs
  payloads : List.Forall₂ IsPayload (Field.slotParts fields vs) ps
  slots_eq : ps.map Option.isSome = p.slots
  nested : IsEncoding (t,.record vs) (p.toBytes ++ (bs.flatten ++ ps.flatMap behindLength))
  outermost : Record.serialize t (.record vs) =
    .ok (LittleEndian.encode Header.width layout.header.raw ++
      ((if layout.header.announcesBitmap then p.toBytes else []) ++
        (bs.flatten ++ ps.flatMap behindLength)))

namespace Field

variable {o : Options} {parts : List (Schema × Value)}

theorem exists_mandatory (ho : o.maxLength < addressSpace) (h : ∀ part ∈ parts, Fits o part) :
    ∃ es bs, mandatoryPieces parts = .ok es ∧ List.Forall₂ IsEncoding parts bs ∧
      allBytes es = bs.flatten := by
  induction parts with
  | nil => exact ⟨[],[],rfl,.nil,rfl⟩
  | cons part parts ih =>
    obtain ⟨es,he,-⟩ := Schema.writes ho part.1 part.2 (h part List.mem_cons_self)
    obtain ⟨fs,bs,hf,hbs,hflat⟩ := ih fun q hq => h q (List.mem_cons_of_mem part hq)
    refine ⟨es ++ fs,allBytes es :: bs,?_,.cons ⟨es,he,rfl⟩ hbs,?_⟩
    · rw [mandatoryPieces, he, hf]
      rfl
    · simp [hflat]

/-- What is counted before a payload is written is its length. -/
theorem allBytes_framed {es : List Emission} (h : Emission.totalSize es = (allBytes es).length) :
    allBytes (framed es) = behindLength (some (allBytes es)) := by
  have hframed : allBytes (framed es) = Varint.encode (Emission.totalSize es) ++ allBytes es := rfl
  rw [hframed, h]
  rfl

theorem exists_payloads (ho : o.maxLength < addressSpace) (h : ∀ part ∈ parts, SlotFits o part) :
    ∃ es ps, slotPieces parts = .ok es ∧ List.Forall₂ IsPayload parts ps ∧
      ps.map Option.isSome = parts.map isFilled ∧ allBytes es = ps.flatMap behindLength := by
  induction parts with
  | nil => exact ⟨[],[],rfl,.nil,rfl,rfl⟩
  | cons part parts ih =>
    obtain ⟨fs,ps,hf,hps,hbits,hflat⟩ := ih fun q hq => h q (List.mem_cons_of_mem part hq)
    cases h part List.mem_cons_self with
    | empty t =>
      refine ⟨fs,none :: ps,hf,.cons (.empty t) hps,?_,hflat⟩
      simp [hbits, isFilled]
    | @filled t v hv _ =>
      obtain ⟨es,he,hsize⟩ := Schema.writes ho t v hv
      refine ⟨framed es ++ fs,some (allBytes es) :: ps,?_,.cons (.filled ⟨es,he,rfl⟩) hps,?_,?_⟩
      · rw [slotPieces, he, hf]
        rfl
      · simp [hbits, isFilled]
      · simp [allBytes_framed hsize, hflat]

end Field

namespace Schema

theorem exists_parts {o : Options} (ho : o.maxLength < addressSpace)
    (h : Fits o (struct name style fields,.record vs)) :
    ∃ es bs ps, encodeFields fields vs = .ok es ∧
      List.Forall₂ IsEncoding (Field.mandatoryParts fields vs) bs ∧
      List.Forall₂ IsPayload (Field.slotParts fields vs) ps ∧
      ps.map Option.isSome = (Field.slotParts fields vs).map Field.isFilled ∧
      allBytes es = bs.flatten ++ ps.flatMap behindLength := by
  obtain ⟨hi,-,hw⟩ := h.wellFormed
  obtain ⟨hm,hs⟩ := parts_fit hw h.admits h.within
  obtain ⟨es,bs,he,hbs,hmandatory⟩ := Field.exists_mandatory ho hm
  obtain ⟨fs,ps,hf,hps,hbits,hpayloads⟩ := Field.exists_payloads ho hs
  refine ⟨es ++ fs,bs,ps,?_,hbs,hps,hbits,?_⟩
  · rw [encodeFields_eq hi h.admits, he, hf]
    rfl
  · simp [hmandatory, hpayloads]

theorem encode_of_struct {es : List Emission} (hb : t.bare = .struct name style fields)
    (hp : Presence.ofSlots (Field.slots fields vs) = .ok p)
    (he : encodeFields fields vs = .ok es) : IsEncoding (t,.record vs) (p.toBytes ++ allBytes es) := by
  refine ⟨Emission.presence p ++ es,?_,?_⟩
  · rw [← encode_bare, hb, encode_struct hp, he]
    rfl
  · simp

theorem encodeBody_of_struct {es : List Emission} (hb : t.bare = .struct name style fields)
    (hp : Presence.ofSlots (Field.slots fields vs) = .ok p)
    (he : encodeFields fields vs = .ok es) :
    t.encodeBody (.record vs) = .ok ((if p.isEmpty then [] else Emission.presence p) ++ es) := by
  rw [← encodeBody_bare, hb, encodeBody_struct hp, he]
  rfl

end Schema

namespace Record

/-- The header announces the bitmap of a body exactly if there is one. -/
theorem serialize_of_body {d : Descriptor} {v : Value} {es : List Emission}
    (hd : t.descriptor = .ok d)
    (he : t.encodeBody v = .ok ((if p.isEmpty then [] else Emission.presence p) ++ es))
    (h : (Layout.header ⟨t.name,t.shape⟩).announcesBitmap = !p.isEmpty) :
    serialize t v =
      .ok (LittleEndian.encode Header.width (Layout.header ⟨t.name,t.shape⟩).raw ++
        ((if (Layout.header ⟨t.name,t.shape⟩).announcesBitmap then p.toBytes else []) ++
          allBytes es)) := by
  have hopening : allBytes (if p.isEmpty then [] else Emission.presence p) =
      if (Layout.header ⟨t.name,t.shape⟩).announcesBitmap then p.toBytes else [] := by
    rw [h]
    cases p.isEmpty with
    | true => rfl
    | false => exact Emission.allBytes_presence p
  have hbytes : emissions t v =
      .ok (.nat Header.width (Layout.header ⟨t.name,t.shape⟩).raw ::
        ((if p.isEmpty then [] else Emission.presence p) ++ es)) := by
    rw [emissions_eq hd, he]
    rfl
  rw [serialize_eq hbytes, ← hopening, ← Emission.allBytes_append]
  rfl

theorem serialize_of_struct {d : Descriptor} {es : List Emission} (hd : t.descriptor = .ok d)
    (hb : t.bare = .struct name style fields) (he : Schema.encodeFields fields vs = .ok es)
    (h : p.Agrees ⟨t.name,t.shape⟩ fields vs) :
    serialize t (.record vs) =
      .ok (LittleEndian.encode Header.width (Layout.header ⟨t.name,t.shape⟩).raw ++
        ((if (Layout.header ⟨t.name,t.shape⟩).announcesBitmap then p.toBytes else []) ++
          allBytes es)) :=
  serialize_of_body hd (Schema.encodeBody_of_struct hb h.built he) h.announces_eq

/-- Of an accepted struct, also behind pointers, every value has a bitmap that agrees with the layout
and so with the header, and is composed of the bitmap, the mandatory fields and one payload for each
filled slot. -/
theorem composes_of_struct {d : Descriptor} {v : Value} (hd : t.descriptor = .ok d)
    (hb : t.bare = .struct name style fields) (hv : t.admits v = true) :
    ∃ (vs : List Value) (layout : Layout) (p : Presence), v = .record vs ∧
      Layout.of t = .ok layout ∧ p.Agrees layout fields vs ∧
      ((∀ n ∈ t.lengths v, n < addressSpace) → ∃ bs ps, p.Composes t layout fields vs bs ps) := by
  have hw := (Schema.descriptor_eq_ok hd).2
  have ha := hv
  rw [← Schema.admits_bare, hb] at ha
  cases v with
  | record vs =>
    obtain ⟨p,hp,hslots⟩ := Schema.agrees_of_struct hb hw ha t.name
    refine ⟨vs,_,p,rfl,layout_of hd,hp,fun hl => ?_⟩
    have hf := (Fits.widest hw hv hl).bare hb
    obtain ⟨es,bs,ps,he,hbs,hps,hbits,hall⟩ := Schema.exists_parts Options.widest_lt hf
    have hnested := Schema.encode_of_struct hb hp.built he
    have houtermost := serialize_of_struct hd hb he hp
    rw [hall] at hnested houtermost
    exact ⟨bs,ps,hbs,hps,hbits.trans hslots.symm,hnested,houtermost⟩
  | _ => cases ha

def suitcaseFields : List Field :=
  [.mandatory "tag" .text, .skipped "hint" .text (.text ""), .compatible "seal" 1 (.scalar .u16),
    .compatible "note" 2 .text]

/-- A shared suitcase with a tag, a hint that is not kept, and a seal and a note of later
releases. -/
def suitcase : Schema := .pointer .arc (.struct "Suitcase" .named suitcaseFields)

def notedSuitcase : List Value := [.text "ab", .text "left", .absent, .present (.text "hi")]

def suitcaseBytes : List UInt8 := [2, 2, 2, 97, 98, 3, 2, 104, 105]

theorem composes_of_struct_suitcase :
    ∃ (layout : Layout) (p : Presence) (bs : List (List UInt8)) (ps : List (Option (List UInt8))),
      Layout.of suitcase = .ok layout ∧ p.slots = [false, true] ∧
        p.Agrees layout suitcaseFields notedSuitcase ∧
        p.Composes suitcase layout suitcaseFields notedSuitcase bs ps ∧
        IsEncoding (suitcase,.record notedSuitcase) suitcaseBytes := by
  obtain ⟨vs,layout,p,hv,hlayout,hp,hbytes⟩ :=
    composes_of_struct (t := suitcase) (d := suitcase.shape) (v := .record notedSuitcase) (by rfl)
      (by rfl) (by decide)
  obtain rfl : notedSuitcase = vs := Value.record.inj hv
  obtain ⟨bs,ps,hall⟩ := hbytes (by decide)
  have hslots : p.slots = [false, true] := by
    have hbuilt := hp.built
    have hother : Presence.ofSlots (Field.slots suitcaseFields notedSuitcase) =
        .ok ⟨[false, true],by decide⟩ := rfl
    rw [hother] at hbuilt
    cases hbuilt
    rfl
  exact ⟨layout,p,bs,ps,hlayout,hslots,hp,hall,_,rfl,by rfl⟩

end Record
end RecordCodec
