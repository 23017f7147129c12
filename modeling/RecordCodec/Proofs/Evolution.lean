import RecordCodec.Proofs.Delivery
import RecordCodec.Proofs.Utf8
import RecordCodec.Proofs.Writing

/-! # What a consumer reads of a producer's bytes

A related consumer reads the projection of the value that the producer has written, whatever stands
behind it, and passes exactly its bytes. Payloads that the consumer does not know are stepped over
by their length.
-/
namespace RecordCodec

open Bytes (LittleEndian.range LittleEndian.residue)
open Emission (allBytes joined eachOf framed)

namespace Scalar

variable {o : Options}

theorem gives_unsigned {width : Nat} {i : Int} (h : admits.fits width i = true) :
    Read.Gives o (read.unsigned width)
      (Bytes.LittleEndian.encode width (LittleEndian.residue width i)) (.ok (.int i)) := by
  obtain ⟨hl,hu⟩ : 0 ≤ i ∧ i < (LittleEndian.range width : Nat) := of_decide_eq_true h
  have hr : (LittleEndian.residue width i : Int) = i := Bytes.LittleEndian.residue_of_lt hl hu
  have hg := (Read.gives_nat o (Bytes.LittleEndian.residue_lt width i)).map_ok
    (fun n : Nat => (n : Int)) hr
  exact hg.map Value.int

theorem gives_signed {width : Nat} {i : Int} (h : admits.fitsSigned width i = true) :
    Read.Gives o (read.signed width)
      (Bytes.LittleEndian.encode width (LittleEndian.residue width i)) (.ok (.int i)) := by
  obtain ⟨hl,hu⟩ : -(LittleEndian.range width : Nat) ≤ 2 * i ∧
    2 * i < (LittleEndian.range width : Nat) := of_decide_eq_true h
  have hr := Bytes.LittleEndian.signed_residue hl hu
  exact (Read.gives_nat o (Bytes.LittleEndian.residue_lt width i)).map_ok
    (fun n => Value.int (Bytes.LittleEndian.signed width n)) (congrArg Value.int hr)

theorem gives_float {width bits : Nat} (h : bits < LittleEndian.range width) :
    Read.Gives o (Value.float <$> Read.nat width) (Bytes.LittleEndian.encode width bits)
      (.ok (.float bits)) := (Read.gives_nat o h).map Value.float

/-- A scalar is read back. -/
theorem gives_read {s : Scalar} {v : Value} (h : s.admits v = true) :
    Read.Gives o s.read (s.encode v) (.ok v) := by
  cases v with
  | bool b =>
    cases s with
    | bool => exact (Read.gives_bool o b).map Value.bool
    | _ => cases h
  | char c =>
    cases s with
    | char => exact (Read.gives_char o c).map Value.char
    | _ => cases h
  | float bits =>
    cases s with
    | f32 => exact gives_float (of_decide_eq_true h)
    | f64 => exact gives_float (of_decide_eq_true h)
    | _ => cases h
  | int i =>
    cases s with
    | u8 | u16 | u32 | u64 | u128 => exact gives_unsigned h
    | i8 | i16 | i32 | i64 | i128 => exact gives_signed h
    | _ => cases h
  | _ => cases s <;> cases h

end Scalar

namespace Read

variable {o : Options}

theorem gives_duration {secs nanos : Int} (hs : 0 ≤ secs ∧ secs < (LittleEndian.range 8 : Nat))
    (hn : 0 ≤ nanos ∧ nanos < 1000000000) :
    Gives o duration (Scalar.u64.encode (.int secs) ++ Scalar.u32.encode (.int nanos))
      (.ok (.record [.int secs, .int nanos])) := by
  refine (gives_nat o (Bytes.LittleEndian.residue_lt 8 secs)).bind_ok ?_
  refine (gives_nat o (Bytes.LittleEndian.residue_lt 4 nanos)).bind_nil ?_
  have hr : (LittleEndian.range 4 : Nat) = 4294967296 := rfl
  have hse : (LittleEndian.residue 8 secs : Int) = secs :=
    Bytes.LittleEndian.residue_of_lt hs.1 hs.2
  have hne : (LittleEndian.residue 4 nanos : Int) = nanos :=
    Bytes.LittleEndian.residue_of_lt hn.1 (by rw [hr]; omega)
  rw [if_pos (by omega), hse, hne]
  exact Gives.pure o _

/-- Text within the limit is read back. -/
theorem gives_text (ho : o.maxLength < addressSpace) {s : String}
    (h : (Text.Utf8.encode s).length ≤ o.maxLength) :
    Gives o text (allBytes (Emission.text s)) (.ok s) := by
  have hb : allBytes (Emission.text s) =
      Bytes.Varint.encode (Text.Utf8.encode s).length ++ Text.Utf8.encode s :=
    congrArg _ (List.append_nil _)
  rw [hb]
  refine (gives_byteString (Nat.lt_of_le_of_lt h ho) h).bind_nil ?_
  rw [Text.Utf8.decode_encode]
  exact Gives.pure o s

end Read

/-! ## Slots -/

namespace Slots

open Read
open RecordCodec.Field (isFilled slotPieces)

variable {o : Options} {item : Read Value} {p : Except Error (List Emission)}

theorem delivers_start (p : Presence) :
    Delivers o (.ok (Emission.presence p)) (start true) (settled true { presence := p }) := by
  have hb : allBytes (Emission.presence p) = Bytes.Varint.encode p.size ++ p.bitBytes :=
    congrArg _ (List.append_nil _)
  exact Delivers.of_ok (hb.symm ▸ (Presence.gives_read o p).bind_nil (Gives.pure o _))

/-- A filled slot is read through its payload. -/
theorem delivers_filled (ho : o.maxLength < addressSpace) {slots : Slots}
    (hf : slots.presence.isPresent slots.next = true) {t : Schema} {v a : Value} {d : Bool}
    (hs : Writes (t.encode v)) (hl : t.payloadLength v ≤ o.maxLength)
    (h : Delivers o (t.encode v) item (settled d a)) :
    Delivers o (framed <$> t.encode v) (slots.read item)
      (settled d (some a,slots.advance 1)) := by
  obtain ⟨es,he,hg⟩ := h
  obtain ⟨es',he',hz⟩ := hs
  obtain rfl : es = es' := Except.ok.inj (he.symm.trans he')
  have hn : (allBytes es).length ≤ o.maxLength := by
    unfold Schema.payloadLength at hl
    rwa [he] at hl
  have hp : Gives o (payload slots.next item)
      (Bytes.Varint.encode (allBytes es).length ++ allBytes es) (settled d a) :=
    gives_payload (gives_length (Nat.lt_of_le_of_lt hn ho) hn) hg
  have hk : Delivers o (framed <$> t.encode v) (payload slots.next item) (settled d a) := by
    rw [he]
    refine ⟨framed es,rfl,?_⟩
    change Gives o _ (Bytes.Varint.encode (Emission.totalSize es) ++ allBytes es) _
    rwa [hz]
  rw [read_of_present hf]
  exact hk.bind_pure rfl

theorem delivers_empty (item : Read Value) {slots : Slots}
    (hf : slots.presence.isPresent slots.next = false) :
    Delivers o (.ok []) (slots.read item) (settled true (none,slots.advance 1)) := by
  rw [read_of_absent hf]
  exact Delivers.pure o _

/-- Slots that nothing is read of are stepped over. -/
theorem delivers_stepOver (ho : o.maxLength < addressSpace) {ss : List (Schema × Value)}
    (hs : ∀ s ∈ ss, SlotFits o s) :
    Delivers o (slotPieces ss) ((ss.map isFilled).forM stepOver) (settled true ()) := by
  induction ss with
  | nil => exact Delivers.pure o ()
  | cons s ss ih =>
    obtain ⟨hh,ht⟩ := List.forall_mem_cons.mp hs
    cases hh with
    | empty t => exact ih ht
    | @filled t v h hl =>
      obtain ⟨es,he,hz⟩ := t.writes ho v h
      have hn : (allBytes es).length ≤ o.maxLength := by
        unfold Schema.payloadLength at hl
        rwa [he] at hl
      have hk : Delivers o (framed <$> t.encode v) (stepOver true) (settled true ()) := by
        rw [he]
        refine ⟨framed es,rfl,?_⟩
        change Gives o _ (Bytes.Varint.encode (Emission.totalSize es) ++ allBytes es) _
        rw [hz]
        exact gives_stepOver (gives_length (Nat.lt_of_le_of_lt hn ho) hn)
      exact hk.append (f := fun _ => (ss.map isFilled).forM stepOver) (ih ht)

end Slots

theorem Fits.bare {o : Options} {u u' : Schema} {v : Value} (h : Fits o (u,v)) (hu : u.bare = u') :
    Fits o (u',v) := by
  subst hu
  refine ⟨u.wellFormed_bare.mpr h.wellFormed,?_,?_⟩
  · exact (u.admits_bare v).trans h.admits
  · exact fun n hn => h.within n (u.lengths_bare v ▸ hn)

namespace Schema

open Read (length)
open RecordCodec.Field (mandatorySchemas slotSchemas mandatoryParts slotParts mandatoryPieces
  slotPieces isFilled)

variable {o : Options}

theorem encode_of_bare {u u' : Schema} (v : Value) (hu : u.bare = u') :
    u.encode v = u'.encode v := hu ▸ (encode_bare u v).symm

/-- A collection behind its number of elements. -/
theorem delivers_counted {α : Type} (ho : o.maxLength < addressSpace) {n : Nat} {f : Nat → Read α}
    {p : Except Error (List Emission)} {out : Except Error α} (hn : n ≤ o.maxLength)
    (h : Delivers o p (f n) out) :
    Delivers o (joined (.ok [.varint n]) p) (length >>= f) out :=
  h.cons (Read.gives_length (Nat.lt_of_le_of_lt hn ho) hn)

theorem distinct_set (t : Schema) (vs : List Value) :
    (set t).distinct (.sequence (Value.arranged id vs)) =
      (vs.all t.distinct && decide (vs.map id).Nodup) := by
  change ((Value.arranged id vs).all t.distinct && decide (Value.arranged id vs).Nodup) = _
  rw [Value.all_arranged, List.map_id, decide_eq_decide.mpr (Value.arranged_perm vs).nodup_iff]

theorem distinct_map (k v : Schema) (es : List Value) :
    (map k v).distinct (.sequence (Value.arranged Value.key es)) =
      (es.all (Value.isEntry k.distinct v.distinct) && decide (es.map Value.key).Nodup) := by
  change ((Value.arranged Value.key es).all (Value.isEntry k.distinct v.distinct) &&
    decide ((Value.arranged Value.key es).map Value.key).Nodup) = _
  rw [Value.all_arranged, decide_eq_decide.mpr (Value.nodup_map_arranged Value.key es)]

theorem alternativesRelated_length (as bs : List Alternative)
    (h : alternativesRelated as bs = true) : as.length = bs.length := by
  induction as generalizing bs with
  | nil =>
    cases bs with
    | nil => rfl
    | cons b bs => cases h
  | cons a as ih =>
    obtain ⟨name,style,fields⟩ := a
    cases bs with
    | nil => cases h
    | cons b bs =>
      obtain ⟨name',style',fields'⟩ := b
      exact congrArg (· + 1) (ih bs (Bool.and_eq_true_iff.mp h).2)

mutual

/-- A related consumer reads the projection of what the producer has written. -/
theorem delivers (ho : o.maxLength < addressSpace) :
    ∀ (t u : Schema) (v : Value), t.related u = true → t.WellFormed → Fits o (u,v) →
      Delivers o (u.encode v) t.decode (settled (t.distinct (t.project u v)) (t.project u v))
  | unit, u, v, h, _, hf => by
    have hu := related_unit h
    have hf' := hf.bare hu
    rw [encode_of_bare v hu]
    cases v with
    | unit => exact Delivers.pure o Value.unit
    | _ => cases hf'.admits
  | scalar s, u, v, h, _, hf => by
    have hu := related_scalar h
    have hf' := hf.bare hu
    rw [encode_of_bare v hu]
    have hp : (scalar s).project u v = v := rfl
    have hd : (scalar s).distinct v = true := by cases v <;> rfl
    rw [hp, hd]
    exact Delivers.bytes (Scalar.gives_read hf'.admits)
  | text, u, v, h, _, hf => by
    have hu := related_text h
    have hf' := hf.bare hu
    rw [encode_of_bare v hu]
    cases v with
    | text s =>
      have hl := hf'.within _ List.mem_cons_self
      exact Delivers.of_ok ((Read.gives_text ho hl).map Value.text)
    | _ => cases hf'.admits
  | duration, u, v, h, _, hf => by
    have hu := related_duration h
    have hf' := hf.bare hu
    rw [encode_of_bare v hu]
    obtain ⟨secs,nanos,rfl,hs,hn⟩ := Value.isDuration_eq_true hf'.admits
    exact Delivers.of_ok (Read.gives_duration hs hn)
  | sequence t, u, v, h, hw, hf => by
    obtain ⟨u',hu,ht⟩ := related_sequence h
    have hf' := hf.bare hu
    rw [encode_of_bare v hu]
    cases v with
    | sequence vs =>
      obtain ⟨hn,hl⟩ := List.forall_mem_cons.mp hf'.within
      rw [project_sequence t hu, encode_sequence]
      refine delivers_counted ho hn ?_
      exact (delivers_replicate fun v hv => delivers ho t u' v ht hw
        (fits_element (t := u') hf'.wellFormed hf'.admits hl v hv)).map Value.sequence
    | _ => cases hf'.admits
  | set t, u, v, h, hw, hf => by
    obtain ⟨u',hu,ht⟩ := related_set h
    have hf' := hf.bare hu
    rw [encode_of_bare v hu]
    cases v with
    | sequence vs =>
      obtain ⟨hn,hl⟩ := List.forall_mem_cons.mp hf'.within
      rw [project_set t hu, encode_set, distinct_set]
      refine delivers_counted ho hn ?_
      exact (delivers_distinct id fun v hv => delivers ho t u' v ht hw
        (fits_element (t := u') hf'.wellFormed hf'.admits hl v hv)).map Value.sequence
    | _ => cases hf'.admits
  | map k w, u, v, h, hw, hf => by
    obtain ⟨l,x,hu,hk,hx⟩ := related_map h
    have hf' := hf.bare hu
    rw [encode_of_bare v hu]
    cases v with
    | sequence es =>
      obtain ⟨hn,hl⟩ := List.forall_mem_cons.mp hf'.within
      rw [project_map k w hu, encode_map, distinct_map]
      refine delivers_counted ho hn ?_
      refine (delivers_distinct Value.key ?_).map Value.sequence
      intro e he
      obtain ⟨a,b,rfl,ha,hb⟩ := fits_entry hf'.wellFormed.1 hf'.wellFormed.2 hf'.admits hl e he
      exact (delivers ho k l a hk hw.1 ha).append ((delivers ho w x b hx hw.2 hb).bind_pure rfl)
    | _ => cases hf'.admits
  | array t n, u, v, h, hw, hf => by
    obtain ⟨u',hu,ht⟩ := related_array h
    have hf' := hf.bare hu
    rw [encode_of_bare v hu]
    cases v with
    | sequence vs =>
      obtain ⟨hn,ha⟩ := Bool.and_eq_true_iff.mp hf'.admits
      obtain rfl := eq_of_beq hn
      rw [project_array t hu, encode_array]
      exact (delivers_replicate fun v hv => delivers ho t u' v ht hw
        (fits_element (t := u') hf'.wellFormed ha hf'.within v hv)).map Value.sequence
    | _ => cases hf'.admits
  | option t, u, v, h, hw, hf => by
    obtain ⟨u',hu,ht⟩ := related_option h
    have hf' := hf.bare hu
    rw [encode_of_bare v hu]
    cases v with
    | absent =>
      exact Delivers.bytes ((Read.gives_bool o false).bind_nil (Read.Gives.pure o _))
    | present v =>
      rw [project_present t hu, encode_present]
      have hv := delivers ho t u' v ht hw ⟨hf'.wellFormed,hf'.admits,hf'.within⟩
      exact (hv.map Value.present).cons (Read.gives_bool o true)
    | _ => cases hf'.admits
  | tuple ts, u, v, h, hw, hf => by
    obtain ⟨us,hu,ht⟩ := related_tuple h
    have hf' := hf.bare hu
    rw [encode_of_bare v hu]
    cases v with
    | record vs =>
      rw [project_tuple ts hu]
      exact (deliversComponents ho ts us vs ht hw hf'.wellFormed hf'.admits hf'.within).map
        Value.record
    | _ => cases hf'.admits
  | pointer _ t, u, v, h, hw, hf => delivers ho t u v h hw hf
  | named _ t, u, v, h, hw, hf => delivers ho t u v h hw hf
  | struct _ _ fields, u, v, h, hw, hf => by
    obtain ⟨_,_,fields',hu,hr⟩ := related_struct h
    have hf' := hf.bare hu
    rw [encode_of_bare v hu]
    cases v with
    | record vs =>
      obtain ⟨hi,hn,hwf⟩ := hf'.wellFormed
      obtain ⟨hm,hs⟩ := parts_fit hwf hf'.admits hf'.within
      obtain ⟨hm₁,hs₁⟩ := map_fst_parts hf'.admits
      obtain ⟨p,hp,hps⟩ := ofSlots_fields hn hwf hf'.admits
      have hfs := deliversFields ho fields (mandatoryParts fields' vs) (slotParts fields' vs)
        { presence := p } (by rw [hm₁, hs₁]; exact hr) hw.2.2 hm hs hps
      rw [project_struct fields hu, encode_struct hp, encodeFields_eq hi hf'.admits]
      exact (Slots.delivers_start p).append (hfs.map Value.record)
    | _ => cases hf'.admits
  | enum _ label alternatives, u, v, h, hw, hf => by
    obtain ⟨_,_,alternatives',hu,hr⟩ := related_enum h
    have hf' := hf.bare hu
    rw [encode_of_bare v hu]
    cases v with
    | variant index vs =>
      obtain ⟨hn,hwf⟩ := hf'.wellFormed
      have hi := (writesAlternative ho alternatives' index vs hwf hf'.admits hf'.within).1
      have hl := alternativesRelated_length alternatives alternatives' hr
      have hd := Read.gives_discriminant o hi (Nat.le_trans hn (by decide))
      have hk := deliversAlternative ho alternatives alternatives' index vs
        (Read.fault (.discriminant index label alternatives.length)) hr hw.2 hwf hf'.admits hf'.within
      rw [project_enum alternatives hu, encode_enum (discriminant_eq_ok hi hn)]
      change Delivers o _ (Read.discriminant alternatives.length >>= _) _
      rw [hl]
      exact (hl ▸ hk.map (Value.variant index)).cons hd
    | _ => cases hf'.admits
  | compatible _ _, _, _, h, _, _ => by cases h
  | reference _, _, _, h, _, _ => by cases h

theorem deliversComponents (ho : o.maxLength < addressSpace) :
    ∀ (ts us : List Schema) (vs : List Value), componentsRelated ts us = true →
      AllWellFormed ts → AllWellFormed us → componentsAdmit us vs = true →
      (∀ n ∈ componentLengths us vs, n ≤ o.maxLength) →
      Delivers o (encodeComponents us vs) (decodeComponents ts)
        (settled (componentsDistinct ts (projectComponents ts us vs)) (projectComponents ts us vs))
  | [], [], [], _, _, _, _, _ => Delivers.pure o []
  | [], [], _ :: _, _, _, _, ha, _ => by cases ha
  | [], _ :: _, _, h, _, _, _, _ => by cases h
  | _ :: _, [], _, h, _, _, _, _ => by cases h
  | _ :: _, _ :: _, [], _, _, _, ha, _ => by cases ha
  | t :: ts, u :: us, v :: vs, h, hw, hu, ha, hl => by
    obtain ⟨ht,hts⟩ := Bool.and_eq_true_iff.mp h
    obtain ⟨hv,hvs⟩ := Bool.and_eq_true_iff.mp ha
    obtain ⟨hlv,hlvs⟩ := List.forall_mem_append.mp hl
    have hd := delivers ho t u v ht hw.1 ⟨hu.1,hv,hlv⟩
    exact hd.append ((deliversComponents ho ts us vs hts hw.2 hu.2 hvs hlvs).bind_pure rfl)

/-- The slots that are left of the reader's are those that are left of the producer's. -/
theorem deliversFields (ho : o.maxLength < addressSpace) :
    ∀ (fs : List Field) (ms ss : List (Schema × Value)) (slots : Slots),
      fieldsRelated fs (ms.map Prod.fst) (ss.map Prod.fst) = true → FieldsWellFormed fs →
      (∀ m ∈ ms, Fits o m) → (∀ s ∈ ss, SlotFits o s) → slots.left = ss.map isFilled →
      Delivers o (joined (mandatoryPieces ms) (slotPieces ss)) (decodeFields fs slots)
        (settled (fieldsDistinct fs (projectFields fs ms ss)) (projectFields fs ms ss))
  | [], [], ss, slots, _, _, _, hs, hl => by
    have hf : slots.finish = (ss.map isFilled).forM Slots.stepOver :=
      congrArg (fun left : List Bool => left.forM Slots.stepOver) hl
    have hd := Slots.delivers_stepOver ho hs
    rw [← hf] at hd
    rw [mandatoryPieces, Emission.joined_nil]
    exact hd.bind_pure rfl
  | [], _ :: _, _, _, h, _, _, _, _ => by cases h
  | .mandatory _ t :: fs, m :: ms, ss, slots, h, hw, hm, hs, hl => by
    obtain ⟨ht,hr⟩ := Bool.and_eq_true_iff.mp h
    obtain ⟨hm₁,hm₂⟩ := List.forall_mem_cons.mp hm
    have hd := delivers ho t m.1 m.2 ht hw.1 hm₁
    rw [mandatoryPieces, Emission.joined_assoc]
    exact hd.append ((deliversFields ho fs ms ss slots hr hw.2 hm₂ hs hl).bind_pure rfl)
  | .mandatory .. :: _, [], _, _, h, _, _, _, _ => by cases h
  | .compatible _ _ t :: fs, [], s :: ss, slots, h, hw, hm, hs, hl => by
    obtain ⟨ht,hr⟩ := Bool.and_eq_true_iff.mp h
    obtain ⟨hs₁,hs₂⟩ := List.forall_mem_cons.mp hs
    obtain ⟨hp,hk⟩ := Slots.left_cons hl
    have hd := deliversFields ho fs [] ss (slots.advance 1) hr hw.2 hm hs₂ hk
    have hb (x : Option Value) := hd.bind_pure (f := fun vs => pure (Value.ofOption x :: vs)) rfl
    rw [mandatoryPieces, Emission.joined_nil] at hb ⊢
    cases hs₁ with
    | empty t' =>
      have he := (Slots.delivers_empty (o := o) t.decode hp).append
        (f := fun x => decodeFields fs x.2 >>= fun vs => pure (Value.ofOption x.1 :: vs)) (hb none)
      rwa [Emission.joined_nil] at he
    | @filled u v hv hlv =>
      have hf := Slots.delivers_filled ho hp (u.writes ho v hv) hlv (delivers ho t u v ht hw.1 hv)
      exact hf.append
        (f := fun x => decodeFields fs x.2 >>= fun vs => pure (Value.ofOption x.1 :: vs)) (hb _)
  | .compatible _ _ t :: fs, [], [], slots, h, hw, hm, hs, hl => by
    obtain ⟨hp,hk⟩ := Slots.left_nil hl
    have hd := deliversFields ho fs [] [] (slots.advance 1) h hw.2 hm hs hk
    have hb := hd.bind_pure (f := fun vs => pure (Value.ofOption none :: vs)) rfl
    have he := (Slots.delivers_empty (o := o) t.decode hp).append
      (f := fun x => decodeFields fs x.2 >>= fun vs => pure (Value.ofOption x.1 :: vs)) hb
    rwa [Emission.joined_nil] at he
  | .compatible .. :: _, _ :: _, _, _, h, _, _, _, _ => by cases h
  | .skipped _ _ default :: fs, ms, ss, slots, h, hw, hm, hs, hl =>
    (deliversFields ho fs ms ss slots h hw hm hs hl).bind_pure rfl

theorem deliversPayload (ho : o.maxLength < addressSpace) :
    ∀ (fs : List Field) (ms : List (Schema × Value)),
      fieldsRelated fs (ms.map Prod.fst) [] = true → slotSchemas fs = [] → FieldsWellFormed fs →
      (∀ m ∈ ms, Fits o m) →
      Delivers o (mandatoryPieces ms) (decodePayload fs)
        (settled (fieldsDistinct fs (projectFields fs ms [])) (projectFields fs ms []))
  | [], [], _, _, _, _ => Delivers.pure o []
  | [], _ :: _, h, _, _, _ => by cases h
  | .mandatory _ t :: fs, m :: ms, h, hn, hw, hm => by
    obtain ⟨ht,hr⟩ := Bool.and_eq_true_iff.mp h
    obtain ⟨hm₁,hm₂⟩ := List.forall_mem_cons.mp hm
    have hd := delivers ho t m.1 m.2 ht hw.1 hm₁
    exact hd.append ((deliversPayload ho fs ms hr hn hw.2 hm₂).bind_pure rfl)
  | .mandatory .. :: _, [], h, _, _, _ => by cases h
  | .compatible .. :: _, _, _, hn, _, _ => by cases hn
  | .skipped _ _ default :: fs, ms, h, hn, hw, hm =>
    (deliversPayload ho fs ms h hn hw hm).bind_pure rfl

theorem deliversAlternative (ho : o.maxLength < addressSpace) :
    ∀ (as bs : List Alternative) (index : Nat) (vs : List Value) (missing : Read (List Value)),
      alternativesRelated as bs = true → AlternativesWellFormed as → AlternativesWellFormed bs →
      alternativeAdmits bs index vs = true →
      (∀ n ∈ alternativeLengths bs index vs, n ≤ o.maxLength) →
      Delivers o (encodeAlternative bs index vs) (decodeAlternative as index missing)
        (settled (alternativeDistinct as index (projectAlternative as bs index vs))
          (projectAlternative as bs index vs))
  | [], [], _, _, _, _, _, _, ha, _ => by cases ha
  | [], .mk .. :: _, _, _, _, h, _, _, _, _ => by cases h
  | .mk .. :: _, [], _, _, _, h, _, _, _, _ => by cases h
  | .mk _ _ fields :: as, .mk _ _ fields' :: bs, 0, vs, _, h, hw, hu, ha, hl => by
    have hr := (Bool.and_eq_true_iff.mp h).1
    have hi := Field.inOrder_of_no_slots hu.1
    have hn := slotParts_of_no_slots hu.1 ha
    have hm := (parts_fit hu.2.1 ha hl).1
    rw [hu.1, ← (map_fst_parts ha).1] at hr
    change Delivers o (encodeFields fields' vs) (decodePayload fields)
      (settled (fieldsDistinct fields (projectFields fields (mandatoryParts fields' vs)
        (slotParts fields' vs))) (projectFields fields (mandatoryParts fields' vs)
          (slotParts fields' vs)))
    rw [encodeFields_eq hi ha, hn, slotPieces, Emission.nil_joined]
    exact deliversPayload ho fields _ hr hw.1 hw.2.1 hm
  | .mk .. :: as, .mk .. :: bs, index + 1, vs, missing, h, hw, hu, ha, hl =>
    deliversAlternative ho as bs index vs missing (Bool.and_eq_true_iff.mp h).2 hw.2.2 hu.2.2 ha hl

end
end Schema
end RecordCodec
