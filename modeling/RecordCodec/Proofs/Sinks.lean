import RecordCodec.Proofs.RoundTrip

/-! # All ways to write a record

A record can be put behind the bytes of a buffer, behind zeroes, or into the front of a region, and
it can only be counted. All of these take the same pieces, so that they come to the same bytes: what
is counted is the length of what is written, and a region that has room for it never runs out of
room. A type without a shape is refused before a single byte is written.
-/
namespace RecordCodec

open Emission (allBytes totalSize joined)

namespace Emission

theorem allBytes_cons (e : Emission) (es : List Emission) :
    allBytes (e :: es) = e.toBytes ++ allBytes es := rfl

end Emission

namespace Sink

theorem emitAll_cons (e : Emission) (es : List Emission) :
    emitAll (e :: es) = (emit e >>= fun _ => emitAll es) := rfl

theorem emitAll_buffer (es : List Emission) (contents : List UInt8) :
    emitAll es (.buffer contents) = .ok () (.buffer (contents ++ allBytes es)) := by
  induction es generalizing contents with
  | nil =>
    rw [show allBytes [] = [] from rfl, List.append_nil]
    rfl
  | cons e es ih =>
    have he : emit e (.buffer contents) = .ok () (.buffer (contents ++ e.toBytes)) := rfl
    rw [emitAll_cons, EStateM.bind_of_ok _ he, ih, Emission.allBytes_cons, List.append_assoc]

theorem emitAll_counter (es : List Emission) (n : Nat) :
    emitAll es (.counter n) = .ok () (.counter (n + totalSize es)) := by
  induction es generalizing n with
  | nil => rfl
  | cons e es ih =>
    have he : emit e (.counter n) = .ok () (.counter (n + e.size)) := rfl
    rw [emitAll_cons, EStateM.bind_of_ok _ he, ih, totalSize, Nat.add_assoc]

theorem overwrite_append (front rest bs : List UInt8) :
    overwrite (front ++ rest) front.length bs = front ++ bs ++ rest.drop bs.length := by
  unfold overwrite
  rw [List.take_left, List.drop_append, List.drop_eq_nil_of_le (Nat.le_add_right _ _),
    List.nil_append, Nat.add_sub_cancel_left]

/-- A region takes all pieces that it has room for behind what is written already, and leaves what
is behind them. -/
theorem emitAll_region (es : List Emission) (front rest : List UInt8)
    (h : (allBytes es).length ≤ rest.length) :
    emitAll es (.region (front ++ rest) front.length) =
      .ok () (.region (front ++ allBytes es ++ rest.drop (allBytes es).length)
        (front.length + (allBytes es).length)) := by
  induction es generalizing front rest with
  | nil =>
    rw [show allBytes [] = [] from rfl, List.append_nil]
    rfl
  | cons e es ih =>
    rw [Emission.allBytes_cons, List.length_append] at h
    have hroom : front.length + e.toBytes.length ≤ (front ++ rest).length := by
      rw [List.length_append]
      omega
    have he : emit e (.region (front ++ rest) front.length) =
        .ok () (.region (front ++ e.toBytes ++ rest.drop e.toBytes.length)
          (front ++ e.toBytes).length) := by
      rw [List.length_append, ← overwrite_append]
      exact if_pos hroom
    have hleft : (allBytes es).length ≤ (rest.drop e.toBytes.length).length := by
      rw [List.length_drop]
      omega
    rw [emitAll_cons, EStateM.bind_of_ok _ he, ih _ _ hleft, Emission.allBytes_cons]
    simp only [List.append_assoc, List.drop_drop, List.length_append, Nat.add_assoc]

end Sink

namespace Schema

variable {o : Options}

/-- The body of a value that fits its type can be written. -/
theorem writes_body (ho : o.maxLength < addressSpace) :
    ∀ (t : Schema) (v : Value), Fits o (t,v) → Writes (t.encodeBody v)
  | struct _ _ fields, v, h => by
    cases v with
    | record vs =>
      obtain ⟨-,hn,hw⟩ := h.wellFormed
      obtain ⟨p,hp,-⟩ := ofSlots_fields hn hw h.admits
      have hfields := writesFields ho fields vs hw h.admits h.within
      rw [encodeBody_struct hp]
      have hopening : Writes (.ok (if p.isEmpty then [] else Emission.presence p)) := by
        split
        · exact .of_ok rfl
        · exact writes_presence p
      exact hopening.joined hfields
    | _ => cases h.admits
  | pointer _ t, v, h => writes_body ho t v ⟨h.wellFormed,h.admits,h.within⟩
  | named _ t, v, h => writes_body ho t v ⟨h.wellFormed,h.admits,h.within⟩
  | compatible .., _, h => by cases h.wellFormed
  | reference _, _, h => by cases h.wellFormed
  | unit, v, h | text, v, h | duration, v, h | scalar _, v, h | sequence _, v, h | set _, v, h
  | map .., v, h | array .., v, h | option _, v, h | tuple _, v, h | enum .., v, h => by
    rw [encodeBody_of_isPlain rfl]
    exact writes ho _ v h

end Schema

namespace Record

variable {t : Schema} {v : Value} {w : List UInt8} {e : Error} {es : List Emission}

/-- Every way to write the value comes to the bytes `w`, and what counts them comes to their
number. -/
structure IsWritten (t : Schema) (v : Value) (w : List UInt8) : Prop where
  serialize_eq : serialize t v = .ok w
  size_eq : size t v = .ok w.length
  counter_eq : ∃ es, emissions t v = .ok es ∧
    Sink.emitAll es (.counter 0) = .ok () (.counter w.length)
  append_eq : ∀ buffer, append t v buffer = (.ok w.length,buffer ++ w)
  offset_eq : ∀ offset, serializeWithOffset t v offset = .ok (List.replicate offset 0 ++ w)
  writeTo_eq : ∀ region, w.length ≤ region.length →
    writeTo t v region = (.ok w.length,w ++ region.drop w.length)
  writeTo_small : ∀ region, region.length < w.length →
    writeTo t v region = (.error (.capacity w.length region.length),region)

/-- Every way to write the value fails with `e`, and leaves buffers and regions alone. -/
structure IsRefused (t : Schema) (v : Value) (e : Error) : Prop where
  serialize_eq : serialize t v = .error e
  size_eq : size t v = .error e
  append_eq : ∀ buffer, append t v buffer = (.error e,buffer)
  offset_eq : ∀ offset, serializeWithOffset t v offset = .error e
  writeTo_eq : ∀ region, writeTo t v region = (.error e,region)

theorem size_of_ok (h : emissions t v = .ok es) (hs : totalSize es = (allBytes es).length) :
    size t v = .ok (allBytes es).length := by
  unfold size
  rw [h, ← hs]
  rfl

theorem append_of_ok (h : emissions t v = .ok es) (buffer : List UInt8) :
    append t v buffer = (.ok (allBytes es).length,buffer ++ allBytes es) := by
  unfold append outcome
  simp [h, Sink.emitAll_buffer, Sink.contents]

theorem writeTo_of_ok (h : emissions t v = .ok es) (hs : totalSize es = (allBytes es).length)
    {region : List UInt8} (hr : (allBytes es).length ≤ region.length) :
    writeTo t v region =
      (.ok (allBytes es).length,allBytes es ++ region.drop (allBytes es).length) := by
  have hemit := Sink.emitAll_region es [] region hr
  simp only [List.nil_append, List.length_nil, Nat.zero_add] at hemit
  unfold writeTo outcome
  simp [size_of_ok h hs, h, Nat.not_lt.mpr hr, hemit]

/-- Pieces with as many bytes as are counted are written alike everywhere. -/
theorem isWritten_of_emissions (h : emissions t v = .ok es)
    (hs : totalSize es = (allBytes es).length) : IsWritten t v (allBytes es) := by
  constructor
  · exact serialize_eq h
  · exact size_of_ok h hs
  · refine ⟨es,h,?_⟩
    rw [Sink.emitAll_counter, Nat.zero_add, hs]
  · exact append_of_ok h
  · intro offset
    unfold serializeWithOffset
    rw [append_of_ok h]
  · intro region hr
    exact writeTo_of_ok h hs hr
  · intro region hr
    unfold writeTo
    simp [size_of_ok h hs, h, hr]

theorem isRefused_of_emissions (h : emissions t v = .error e) : IsRefused t v e := by
  have hsize : size t v = .error e := by
    unfold size
    rw [h]
    rfl
  have happend (buffer : List UInt8) : append t v buffer = (.error e,buffer) := by
    unfold append
    rw [h]
  constructor
  · unfold serialize
    rw [h]
    rfl
  · exact hsize
  · exact happend
  · intro offset
    unfold serializeWithOffset
    rw [happend]
  · intro region
    unfold writeTo
    rw [hsize]

/-- A parcel: labels, perhaps in a box with a seal, and a note of a later release. -/
def parcel : Schema :=
  .struct "Parcel" .named
    [.mandatory "labels" (.sequence .text),
      .mandatory "box" (.option (.struct "Crate" .named
        [.mandatory "depth" (.scalar .u16), .compatible "seal" 1 (.scalar .u8)])),
      .compatible "note" 2 .text]

/-- A parcel with its label behind the note. -/
def turnedParcel : Schema :=
  .struct "Parcel" .named [.compatible "note" 2 .text, .mandatory "label" .text]

def sealedParcel : Value :=
  .record [.sequence [.text "a", .text "bc"], .present (.record [.int 5, .present (.int 7)]),
    .present (.text "n")]

def parcelBytes : List UInt8 :=
  [157, 143, 220, 94, 1, 1, 2, 1, 97, 2, 98, 99, 1, 1, 1, 5, 0, 1, 7, 2, 1, 110]

end Record
end RecordCodec
