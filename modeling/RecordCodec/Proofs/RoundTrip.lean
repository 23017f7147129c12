import RecordCodec.Proofs.Evolution
import RecordCodec.Record

/-! # Records are read back

A record's header brings a related consumer to the producer's slots: the signatures are the same,
and a bitmap is announced exactly when one is written. So the consumer reads the projection of what
the producer has written, and a type its own values up to skipped fields, whatever stands behind the
record.
-/
namespace RecordCodec

open Emission (allBytes joined framed)
open Read (Gives)

/-! ## Headers -/

theorem Header.raw_lt (h : Header) : h.raw < Bytes.LittleEndian.range Header.width := by
  have hlt := h.signature.raw_lt
  have heven := h.signature.raw_even
  have hb := Bool.toNat_le h.announcesBitmap
  change h.signature.raw + h.announcesBitmap.toNat < 0x100000000
  omega

namespace Literal

/-- The literal of an outermost type, out of that of the type inside another. -/
def outermost : List UInt8 → List UInt8
  | 0xFD :: rest => aggregateBegin :: rest
  | bytes => bytes

end Literal

theorem Descriptor.topLevelLiteral_eq (d : Descriptor) :
    d.topLevelLiteral = Literal.outermost d.literal := by
  cases d with
  | scalar s => cases s <;> rfl
  | aggregate typeName fields extensible => cases extensible <;> rfl
  | _ => rfl

/-! ## Bodies -/

namespace Schema

open RecordCodec.Field (mandatorySchemas slotSchemas mandatoryParts slotParts)

/-- Whether a type's body is a value like one inside another: no struct, whatever points to it. -/
def isPlain : Schema → Bool
  | struct .. | pointer .. | named .. | compatible .. | reference _ => false
  | _ => true

theorem encodeBody_bare (t : Schema) (v : Value) : t.bare.encodeBody v = t.encodeBody v :=
  t.apply_bare (fun t => t.encodeBody v) (fun _ _ => rfl) fun _ _ => rfl

theorem anyCompatible_componentShapes (index : Nat) (ts : List Schema) :
    Descriptor.anyCompatible (componentShapes index ts) = false := by
  induction ts generalizing index with
  | nil => rfl
  | cons t ts ih => exact ih (index + 1)

theorem anyCompatible_fieldShapes (fs : List Field) :
    Descriptor.anyCompatible (fieldShapes fs) = !(slotSchemas fs).isEmpty := by
  induction fs with
  | nil => rfl
  | cons f fs ih =>
    cases f with
    | mandatory name t => exact ih
    | compatible name version t => rfl
    | skipped name t default => exact ih

theorem encodeBody_of_isPlain {t : Schema} (h : t.isPlain = true) (v : Value) :
    t.encodeBody v = t.encode v := by
  cases t <;> first | rfl | cases h

theorem decodeBody_of_isPlain {t : Schema} (h : t.isPlain = true) (slots : Slots) :
    t.decodeBody slots = (do
      let v ← t.decode
      slots.finish
      pure v) := by
  cases t <;> first | rfl | cases h

theorem hasCompatible_of_isPlain {t : Schema} (h : t.isPlain = true) (typeName : String) :
    Layout.hasCompatible ⟨typeName,t.shape⟩ = false := by
  cases t with
  | tuple ts => exact anyCompatible_componentShapes 0 ts
  | struct | pointer | named | compatible | reference => cases h
  | _ => rfl

/-- What is related to a plain type is plain. -/
theorem isPlain_of_related {t u : Schema} (ht : t.isPlain = true) (h : t.related u = true) :
    u.bare.isPlain = true := by
  cases t with
  | unit => rw [related_unit h]; rfl
  | scalar s => rw [related_scalar h]; rfl
  | text => rw [related_text h]; rfl
  | duration => rw [related_duration h]; rfl
  | sequence t => obtain ⟨_,hu,-⟩ := related_sequence h; rw [hu]; rfl
  | set t => obtain ⟨_,hu,-⟩ := related_set h; rw [hu]; rfl
  | map k v => obtain ⟨_,_,hu,-⟩ := related_map h; rw [hu]; rfl
  | array t n => obtain ⟨_,hu,-⟩ := related_array h; rw [hu]; rfl
  | option t => obtain ⟨_,hu,-⟩ := related_option h; rw [hu]; rfl
  | tuple ts => obtain ⟨_,hu,-⟩ := related_tuple h; rw [hu]; rfl
  | enum name label alternatives => obtain ⟨_,_,_,hu,-⟩ := related_enum h; rw [hu]; rfl
  | struct | pointer | named | compatible | reference => cases ht

variable {o : Options}

theorem delivers_plain (ho : o.maxLength < addressSpace) {t u : Schema} {v : Value}
    (ht : t.isPlain = true) (h : t.related u = true) (hw : t.WellFormed) (hf : Fits o (u,v))
    (typeName : String) :
    Delivers o (u.encodeBody v)
      (Slots.start (Layout.hasCompatible ⟨typeName,u.shape⟩) >>= fun slots => t.decodeBody slots)
      (settled (t.distinct (t.project u v)) (t.project u v)) := by
  have hu := isPlain_of_related ht h
  have hc : Layout.hasCompatible ⟨typeName,u.shape⟩ = false := by
    rw [← shape_bare]
    exact hasCompatible_of_isPlain hu typeName
  rw [hc, ← encodeBody_bare, encodeBody_of_isPlain hu, encode_bare]
  change Delivers o _ (t.decodeBody {}) _
  rw [decodeBody_of_isPlain ht]
  exact (delivers ho t u v h hw hf).bind_pure rfl

/-- A related consumer reads the projection of a body, behind the bitmap if it is announced. -/
theorem delivers_body (ho : o.maxLength < addressSpace) (typeName : String) :
    ∀ (t u : Schema) (v : Value), t.related u = true → t.WellFormed → Fits o (u,v) →
      Delivers o (u.encodeBody v)
        (Slots.start (Layout.hasCompatible ⟨typeName,u.shape⟩) >>= fun slots => t.decodeBody slots)
        (settled (t.distinct (t.project u v)) (t.project u v))
  | struct _ _ fields, u, v, h, hw, hf => by
    obtain ⟨_,_,fields',hu,hr⟩ := related_struct h
    have hf' := hf.bare hu
    have hc : Layout.hasCompatible ⟨typeName,u.shape⟩ = !(slotSchemas fields').isEmpty := by
      rw [← shape_bare, hu]
      exact anyCompatible_fieldShapes fields'
    cases v with
    | record vs =>
      obtain ⟨hi,hn,hwf⟩ := hf'.wellFormed
      obtain ⟨hm,hs⟩ := parts_fit hwf hf'.admits hf'.within
      obtain ⟨hm₁,hs₁⟩ := map_fst_parts hf'.admits
      obtain ⟨p,hp,hps⟩ := ofSlots_fields hn hwf hf'.admits
      have hd (slots : Slots) := deliversFields ho fields (mandatoryParts fields' vs)
        (slotParts fields' vs) slots (by rw [hm₁, hs₁]; exact hr) hw.2.2 hm hs
      have he : u.encodeBody (.record vs) =
          joined (.ok (if p.isEmpty then [] else Emission.presence p)) (encodeFields fields' vs) := by
        rw [← encodeBody_bare, hu]
        exact encodeBody_struct hp
      have hz := isEmpty_of_slots hf'.admits hps
      rw [hc, he, encodeFields_eq hi hf'.admits, project_struct fields hu, ← hz]
      cases hb : p.isEmpty with
      | true =>
        have hl : Slots.left {} = (slotParts fields' vs).map Field.isFilled := by
          rw [← hps, List.isEmpty_iff.mp hb]
          rfl
        rw [if_pos rfl, Emission.joined_nil]
        exact (hd {} hl).map Value.record
      | false => exact (Slots.delivers_start p).append ((hd { presence := p } hps).map Value.record)
    | _ => cases hf'.admits
  | pointer _ t, u, v, h, hw, hf => delivers_body ho typeName t u v h hw hf
  | named _ t, u, v, h, hw, hf => delivers_body ho typeName t u v h hw hf
  | compatible .., _, _, h, _, _ => by cases h
  | reference _, _, _, h, _, _ => by cases h
  | unit, u, v, h, hw, hf | text, u, v, h, hw, hf | duration, u, v, h, hw, hf
  | scalar _, u, v, h, hw, hf | sequence _, u, v, h, hw, hf | set _, u, v, h, hw, hf
  | map .., u, v, h, hw, hf | array .., u, v, h, hw, hf | option _, u, v, h, hw, hf
  | tuple _, u, v, h, hw, hf | enum .., u, v, h, hw, hf => delivers_plain ho rfl h hw hf typeName

/-- A consumer of a type with compatible fields knows an aggregate. -/
theorem isAggregate_of_related (typeName owner : String) : ∀ t u : Schema, t.related u = true →
    Layout.hasCompatible ⟨owner,u.shape⟩ = true → Layout.isAggregate ⟨typeName,t.shape⟩ = true
  | struct .., _, _, _ => rfl
  | pointer _ t, u, h, hc => isAggregate_of_related typeName owner t u h hc
  | named _ t, u, h, hc => isAggregate_of_related typeName owner t u h hc
  | compatible .., _, h, _ => by cases h
  | reference _, _, h, _ => by cases h
  | unit, u, h, hc | text, u, h, hc | duration, u, h, hc | scalar _, u, h, hc
  | sequence _, u, h, hc | set _, u, h, hc | map .., u, h, hc | array .., u, h, hc
  | option _, u, h, hc | tuple _, u, h, hc | enum .., u, h, hc => by
    rw [← shape_bare, hasCompatible_of_isPlain (isPlain_of_related rfl h)] at hc
    cases hc

theorem signature_eq_of_related {t u : Schema} (h : t.related u = true) (typeName owner : String) :
    Layout.signature ⟨owner,u.shape⟩ = Layout.signature ⟨typeName,t.shape⟩ := by
  unfold Layout.signature Layout.literal
  rw [Descriptor.topLevelLiteral_eq, Descriptor.topLevelLiteral_eq, literal_eq_of_related t u h]

end Schema

namespace Record

variable {o : Options}

theorem layout_of {t : Schema} {d : Descriptor} (h : t.descriptor = .ok d) :
    Layout.of t = .ok ⟨t.name,t.shape⟩ := by
  obtain ⟨rfl,-⟩ := Schema.descriptor_eq_ok h
  unfold Layout.of
  rw [h]
  rfl

/-- What is read behind the four bytes of a header under the reader's own signature. -/
theorem gives_readHeader {α : Type} {layout : Layout} {h : Header} {next : Slots → Read α}
    {b : List UInt8} {out : Except Error α} (hs : h.signature = layout.signature)
    (ha : h.announcesBitmap = true → layout.isAggregate = true)
    (hn : Gives o (Slots.start h.announcesBitmap >>= next) b out) :
    Gives o (readHeader layout >>= next)
      (Bytes.LittleEndian.encode Header.width h.raw ++ b) out := by
  unfold readHeader
  rw [bind_assoc]
  refine (Read.gives_nat o h.raw_lt).bind_ok ?_
  rw [Header.ofRaw_raw, if_neg (not_not_intro hs)]
  cases hb : h.announcesBitmap with
  | false =>
    rw [hb] at hn
    exact hn
  | true =>
    rw [hb] at hn
    rw [if_pos rfl, if_pos (ha hb)]
    exact hn

theorem read_eq {t : Schema} {d : Descriptor} (h : t.descriptor = .ok d) :
    read t = readHeader ⟨t.name,t.shape⟩ >>= fun slots => t.decodeBody slots := by
  unfold read layout
  rw [layout_of h]
  rfl

theorem emissions_eq {t : Schema} {d : Descriptor} (h : t.descriptor = .ok d) (v : Value) :
    emissions t v =
      joined (.ok [.nat Header.width (Layout.header ⟨t.name,t.shape⟩).raw]) (t.encodeBody v) := by
  unfold emissions
  rw [layout_of h]
  rfl

/-! ## Whole records -/

/-- A related consumer reads the projection of a record. -/
theorem delivers_read (ho : o.maxLength < addressSpace) {t u : Schema} {d d' : Descriptor}
    {v : Value} (ht : t.descriptor = .ok d) (hu : u.descriptor = .ok d')
    (h : t.related u = true) (hf : Fits o (u,v)) :
    Delivers o (emissions u v) (read t)
      (settled (t.distinct (t.project u v)) (t.project u v)) := by
  obtain ⟨es,he,hg⟩ := Schema.delivers_body ho u.name t u v h (Schema.descriptor_eq_ok ht).2 hf
  rw [emissions_eq hu, read_eq ht, he]
  refine ⟨_ :: es,rfl,?_⟩
  exact gives_readHeader (Schema.signature_eq_of_related h t.name u.name)
    (Schema.isAggregate_of_related t.name u.name t u h) hg

theorem checkTrailing_eq (r : Reader) :
    checkTrailing r =
      if r.options.trailing = .reject ∧ 0 < r.remaining then
        .error (.trailingBytes r.remaining) r
      else .ok () r := by
  have hn : Read.remaining r = .ok r.remaining r := rfl
  have ho : Read.options r = .ok r.options r := rfl
  refine (EStateM.bind_of_ok _ hn).trans ((EStateM.bind_of_ok _ ho).trans ?_)
  by_cases h : r.options.trailing = .reject ∧ 0 < r.remaining
  · rw [if_pos h, if_pos (by simpa using h)]
    rfl
  · rw [if_neg h, if_neg (by simpa using h)]
    rfl

theorem deserialize_of_ok {t : Schema} {b : List UInt8} {v : Value}
    (h : Gives o (read t) b (.ok v)) : deserialize o t b = .ok v := by
  obtain ⟨s,hs,hp⟩ := h.ok (r := .ofBytes o b) rfl (List.prefix_refl b)
  have hr : s.remaining = 0 := by
    have hl : b.length = b.length + s.remaining := hp.remaining_eq
    omega
  have hc : checkTrailing s = .ok () s := by simp [checkTrailing_eq, hr]
  have hd : (read t >>= fun v => checkTrailing >>= fun _ => pure v) (.ofBytes o b) = .ok v s :=
    (EStateM.bind_of_ok _ hs).trans (EStateM.bind_of_ok _ hc)
  unfold deserialize run
  rw [hd]

theorem deserialize_of_error {t : Schema} {b : List UInt8} {e : Error}
    (h : Gives o (read t) b (.error e)) : deserialize o t b = .error e := by
  obtain ⟨s,hs⟩ := h (.ofBytes o b) rfl (List.prefix_refl b)
  have hd : (read t >>= fun v => checkTrailing >>= fun _ => pure v) (.ofBytes o b) = .error e s :=
    EStateM.bind_of_error _ hs
  unfold deserialize run
  rw [hd]

theorem serialize_eq {t : Schema} {v : Value} {es : List Emission} (h : emissions t v = .ok es) :
    serialize t v = .ok (allBytes es) := by
  unfold serialize
  rw [h]
  rfl

/-- Whatever stands behind a record, a type reads back the value that it has written, with skipped
fields reset, and passes exactly the bytes of the record. -/
theorem read_serialize (ho : o.maxLength < addressSpace) {t : Schema} {d : Descriptor} {v : Value}
    (ht : t.descriptor = .ok d) (hv : t.admits v = true)
    (hl : ∀ n ∈ t.lengths v, n ≤ o.maxLength) (hd : t.distinct (t.reset v) = true) :
    ∃ bytes, serialize t v = .ok bytes ∧
      (∀ suffix, ∃ r, read t (.ofBytes o (bytes ++ suffix)) = .ok (t.reset v) r ∧
        r.position = bytes.length ∧ r.rest = suffix) ∧
      ∀ trailing, deserialize { o with trailing } t bytes = .ok (t.reset v) := by
  have hw := (Schema.descriptor_eq_ok ht).2
  have hg (o' : Options) (hm : o'.maxLength = o.maxLength) :
      Delivers o' (emissions t v) (read t) (.ok (t.reset v)) := by
    have hf : Fits o' (t,v) := ⟨hw,hv,fun n hn => hm ▸ hl n hn⟩
    have hr := delivers_read (hm ▸ ho) ht ht (Schema.related_self hw) hf
    rwa [Schema.project_self hv, hd] at hr
  obtain ⟨es,he,hes⟩ := hg o rfl
  refine ⟨allBytes es,serialize_eq he,?_,?_⟩
  · intro suffix
    obtain ⟨r,hr,hp⟩ := hes.ok (r := .ofBytes o (allBytes es ++ suffix)) rfl
      (List.prefix_append _ suffix)
    have hb : allBytes es ++ suffix = allBytes es ++ r.rest := hp.rest_eq
    exact ⟨r,hr,hp.position_eq.trans (Nat.zero_add _),(List.append_cancel_left hb).symm⟩
  · intro trailing
    obtain ⟨es',he',hes'⟩ := hg { o with trailing } rfl
    obtain rfl : es = es' := Except.ok.inj (he.symm.trans he')
    exact deserialize_of_ok hes'

/-- A set of pairs of which the second component is not kept, a cache that is not kept either, and a
note of a later release. -/
def noted : Schema :=
  .struct "Noted" .named
    [.mandatory "flags"
      (.set (.struct "Flag" .positional
        [.mandatory "0" (.scalar .u8), .skipped "1" .text (.text "none")])),
      .skipped "cache" .text (.text ""), .compatible "note" 1 (.sequence .text)]

theorem read_serialize_noted :
    ∃ bytes, serialize noted (.record [.sequence [.record [.int 2, .text "b"],
        .record [.int 1, .text "a"]], .text "filled", .present (.sequence [.text "hi"])]) =
          .ok bytes ∧
      (∀ suffix, ∃ r, read noted (.ofBytes {} (bytes ++ suffix)) =
        .ok (.record [.sequence [.record [.int 1, .text "none"], .record [.int 2, .text "none"]],
          .text "", .present (.sequence [.text "hi"])]) r ∧
        r.position = bytes.length ∧ r.rest = suffix) ∧
      ∀ trailing, deserialize { trailing } noted bytes =
        .ok (.record [.sequence [.record [.int 1, .text "none"], .record [.int 2, .text "none"]],
          .text "", .present (.sequence [.text "hi"])]) :=
  read_serialize (o := {}) (d := noted.shape) (by decide) (by rfl) (by decide) (by decide) (by decide)

/-- Of whatever a producer has written, a related consumer reads the projection if its sets and maps
have nothing twice, and otherwise rejects it for that alone. -/
theorem deserialize_serialize_related (ho : o.maxLength < addressSpace) {consumer producer : Schema}
    {d d' : Descriptor} {v : Value} (hc : consumer.descriptor = .ok d)
    (hp : producer.descriptor = .ok d') (h : consumer.related producer = true)
    (hv : producer.admits v = true) (hl : ∀ n ∈ producer.lengths v, n ≤ o.maxLength) :
    ∃ bytes, serialize producer v = .ok bytes ∧
      deserialize o consumer bytes =
        if consumer.distinct (consumer.project producer v) then .ok (consumer.project producer v)
        else .error (.invalidData .duplicate) := by
  have hw := (Schema.descriptor_eq_ok hp).2
  obtain ⟨es,he,hg⟩ := delivers_read ho hc hp h ⟨hw,hv,hl⟩
  refine ⟨allBytes es,serialize_eq he,?_⟩
  cases hd : consumer.distinct (consumer.project producer v) with
  | true =>
    rw [hd] at hg
    rw [if_pos rfl]
    exact deserialize_of_ok hg
  | false =>
    rw [hd] at hg
    rw [if_neg Bool.false_ne_true]
    exact deserialize_of_error hg

/-- A release of a set of profiles in a box, with the fields that its profiles have beside the
first. -/
def archive (later : List Field) : Schema :=
  .struct "Archive" .named
    [.mandatory "profiles" (.pointer .box (.set (.struct "Profile" .named
      (.mandatory "id" (.scalar .u32) :: later)))), .mandatory "checksum" (.scalar .u16)]

/-- An older consumer drops the second slot, and rejects profiles that differ in it alone. -/
theorem deserialize_serialize_archive :
    let email := Field.compatible "email" 1 .text
    let phone := Field.compatible "phone" 2 (.scalar .u64)
    (∃ bytes, serialize (archive [email, phone])
        (.record [.sequence [.record [.int 7, .present (.text "a@b"), .present (.int 5)],
          .record [.int 8, .absent, .present (.int 6)]], .int 513]) = .ok bytes ∧
      deserialize {} (archive [email]) bytes =
        .ok (.record [.sequence [.record [.int 7, .present (.text "a@b")],
          .record [.int 8, .absent]], .int 513])) ∧
    ∃ bytes, serialize (archive [email, phone])
        (.record [.sequence [.record [.int 7, .absent, .present (.int 5)],
          .record [.int 7, .absent, .present (.int 6)]], .int 513]) = .ok bytes ∧
      deserialize {} (archive [email]) bytes = .error (.invalidData .duplicate) :=
  ⟨deserialize_serialize_related (o := {}) (d := (archive [.compatible "email" 1 .text]).shape)
      (by decide) (by rfl) (by rfl) (by decide) (by decide) (by decide),
    deserialize_serialize_related (o := {}) (d := (archive [.compatible "email" 1 .text]).shape)
      (by decide) (by rfl) (by rfl) (by decide) (by decide) (by decide)⟩

end Record
end RecordCodec
