import RecordCodec.Proofs.Numbers

/-! # Presence bitmaps and slots

A bitmap is read back as it was written. The payload of a filled slot is read back by whatever reads
it back alone, and stepped over by its length; what is read of a slot and what is stepped over of it
are the same bytes.
-/
namespace RecordCodec

open Bytes

namespace Presence

theorem ofBits_lt (bs : List Bool) : ofBits bs < 2 ^ bs.length := by
  induction bs with
  | nil => exact Nat.one_pos
  | cons b bs ih =>
    have hb : b.toNat ≤ 1 := Bool.toNat_le b
    rw [ofBits, List.length_cons, Nat.pow_succ]
    omega

@[simp] theorem toBits_ofBits (bs : List Bool) : toBits bs.length (ofBits bs) = bs := by
  induction bs with
  | nil => rfl
  | cons b bs ih =>
    have hb : b.toNat ≤ 1 := Bool.toNat_le b
    have hd : (b.toNat + 2 * ofBits bs) / 2 = ofBits bs := by omega
    have hm : (b.toNat + 2 * ofBits bs) % 2 = b.toNat := by omega
    rw [List.length_cons, ofBits, toBits, hd, hm, ih]
    cases b <;> rfl

/-- The bytes of a bitmap have room for its bits. -/
theorem two_pow_le_range (bits : Nat) : 2 ^ bits ≤ LittleEndian.range (bytesFor bits) := by
  have h8 : (256 : Nat) = 2 ^ 8 := rfl
  rw [LittleEndian.range_eq, h8, ← Nat.pow_mul]
  refine Nat.pow_le_pow_right (by omega) ?_
  unfold bytesFor
  omega

theorem eq_of_slots {p q : Presence} (h : p.slots = q.slots) : p = q := by
  obtain ⟨s,hs⟩ := p
  obtain ⟨t,ht⟩ := q
  dsimp only at h
  subst h
  rfl

theorem push_of_lt {p : Presence} {b : Bool} (h : p.slots.length < maxSlots) :
    ∃ q, p.push b = .ok q ∧ q.slots = p.slots ++ [b] := by
  unfold push
  rw [dif_pos h]
  exact ⟨_,rfl,rfl⟩

theorem foldlM_push {p : Presence} {bs : List Bool} (h : p.slots.length + bs.length ≤ maxSlots) :
    ∃ q, bs.foldlM (fun p b => p.push b) p = .ok q ∧ q.slots = p.slots ++ bs := by
  induction bs generalizing p with
  | nil => exact ⟨p,rfl,(List.append_nil _).symm⟩
  | cons b bs ih =>
    rw [List.length_cons] at h
    obtain ⟨q,hq,hs⟩ := push_of_lt (p := p) (b := b) (by omega)
    obtain ⟨t,ht,hts⟩ := ih (p := q) (by rw [hs, List.length_append, List.length_singleton]; omega)
    refine ⟨t,?_,?_⟩
    · rw [List.foldlM_cons, hq]
      exact ht
    · rw [hts, hs, List.append_assoc, List.singleton_append]

/-- So many slots as fit make a bitmap. -/
theorem ofSlots_eq_ok {bs : List Bool} (h : bs.length ≤ maxSlots) :
    ∃ p, ofSlots bs = .ok p ∧ p.slots = bs :=
  foldlM_push (p := empty) (Nat.le_trans (Nat.le_of_eq (Nat.zero_add _)) h)

theorem size_lt (p : Presence) : p.size < addressSpace :=
  Nat.lt_of_le_of_lt p.length_le (by decide)

theorem gives_read (o : Options) (p : Presence) :
    Read.Gives o read (Varint.encode p.size ++ p.bitBytes) (.ok p) := by
  refine (Read.gives_varint o p.size_lt).bind_ok ?_
  have hp : p.size ≤ maxSlots := p.length_le
  rw [dif_pos hp]
  have hr : ofBits p.slots < LittleEndian.range (bytesFor p.size) :=
    Nat.lt_of_lt_of_le (ofBits_lt p.slots) (two_pow_le_range p.size)
  refine (Read.gives_nat o hr).bind_nil ?_
  have hz : ofBits p.slots >>> p.size = 0 := by
    rw [Nat.shiftRight_eq_div_pow]
    exact Nat.div_eq_of_lt (ofBits_lt p.slots)
  rw [if_pos hz]
  have he : (⟨toBits p.size (ofBits p.slots),by rw [length_toBits]; exact p.length_le⟩ : Presence)
      = p := eq_of_slots (toBits_ofBits p.slots)
  rw [he]
  exact Read.Gives.pure o p

theorem local_read : Read.Local read := by
  refine Read.local_varint.bind fun count => ?_
  split
  · exact (Read.local_nat _).bind fun bits => (Read.Local.pure _).ite (.fault _)
  · exact .fault _

end Presence

namespace Slots

open Read

variable {α : Type} {item : Read α} {o : Options} {b c : List UInt8} {slot : Nat}

theorem local_start (hasBitmap : Bool) : Local (start hasBitmap) := by
  cases hasBitmap with
  | false => exact .pure _
  | true => exact Presence.local_read.bind fun p => .pure _

/-- A payload comes to what its contents come to. -/
theorem gives_payload {out : Except Error α} (hl : Gives o Read.length b (.ok c.length))
    (h : Gives o item c out) : Gives o (payload slot item) (b ++ c) out := by
  intro r ho hb
  obtain ⟨s,hs,hp⟩ := hl.ok ho ((List.prefix_append b c).trans hb)
  have hc : c <+: s.rest := by
    rw [hp.rest_eq] at hb
    exact (List.prefix_append_right_inj b).mp hb
  have hle : ¬ s.remaining < c.length := Nat.not_lt.mpr hc.length_le
  have hk := h s (hp.options_eq.trans ho) hc
  have hr : Read.remaining s = .ok s.remaining s := rfl
  unfold payload
  rw [EStateM.bind_of_ok _ hs, EStateM.bind_of_ok _ hr, if_neg hle]
  cases out with
  | ok a =>
    obtain ⟨t,ht,hq⟩ := hk
    have hu : Read.remaining t = .ok t.remaining t := rfl
    have hn : s.remaining - t.remaining = c.length := by
      have := hq.remaining_eq
      omega
    refine ⟨t,?_,hp.trans hq⟩
    refine (EStateM.bind_of_ok _ ht).trans ((EStateM.bind_of_ok _ hu).trans ?_)
    exact congrFun (if_pos hn) t
  | error e =>
    obtain ⟨t,ht⟩ := hk
    exact ⟨t,EStateM.bind_of_error _ ht⟩

/-- What a payload that is read consists of: a length and so many bytes of contents. -/
theorem payload_eq_ok (h : Local item) {r t : Reader} {a : α} (hr : payload slot item r = .ok a t) :
    ∃ b c s, r.Passes b s ∧ Read.length r = .ok c.length s ∧ s.Passes c t ∧ item s = .ok a t := by
  unfold payload at hr
  obtain ⟨n,s,hs,hr⟩ := EStateM.bind_eq_ok.mp hr
  obtain ⟨m,s',hm,hr⟩ := EStateM.bind_eq_ok.mp hr
  obtain ⟨rfl,rfl⟩ := Read.remaining_eq_ok.mp hm
  obtain ⟨b,hb⟩ := local_length.passes hs
  split at hr
  · cases hr
  obtain ⟨a',u,hu,hr⟩ := EStateM.bind_eq_ok.mp hr
  obtain ⟨k,u',hk,hr⟩ := EStateM.bind_eq_ok.mp hr
  obtain ⟨rfl,rfl⟩ := Read.remaining_eq_ok.mp hk
  obtain ⟨c,hc⟩ := h.passes hu
  by_cases hn : s.remaining - u.remaining = n
  · obtain ⟨rfl,rfl⟩ := EStateM.pure_eq_ok.mp ((congrFun (if_pos hn) u).symm.trans hr)
    have hl : n = c.length := by
      have := hc.remaining_eq
      omega
    exact ⟨b,c,s,hb,hl ▸ hs,hc,hu⟩
  · cases (congrFun (if_neg hn) u).symm.trans hr

theorem local_payload (h : Local item) : Local (payload slot item) := by
  intro r a t ht
  obtain ⟨b,c,s,hb,hl,hc,ha⟩ := payload_eq_ok h ht
  obtain ⟨b',hb',hg⟩ := local_length r _ s hl
  obtain ⟨c',hc',hi⟩ := h s a t ha
  have hlen : c.length = c'.length := by
    have := hc.position_eq
    have := hc'.position_eq
    omega
  rw [hb'.options_eq] at hi
  exact ⟨b' ++ c',hb'.trans hc',gives_payload (hlen ▸ hg) hi⟩

theorem local_slot (s : Slots) (h : Local item) : Local (s.read item) := by
  unfold Slots.read
  split
  · exact (local_payload h).bind fun a => .pure _
  · exact .pure _

theorem gives_stepOver (hl : Gives o Read.length b (.ok c.length)) :
    Gives o (stepOver true) (b ++ c) (.ok ()) :=
  hl.bind_ok ((gives_take o c).bind_nil (Gives.pure o ()))

/-- A payload that is read is stepped over by its length. -/
theorem stepOver_of_payload (h : Local item) {r t : Reader} {a : α}
    (hr : payload slot item r = .ok a t) : stepOver true r = .ok () t := by
  obtain ⟨b,c,s,hb,hl,hc,-⟩ := payload_eq_ok h hr
  exact (EStateM.bind_of_ok _ hl).trans (EStateM.bind_of_ok _ (take_eq_ok.mpr ⟨hc,rfl⟩))

theorem forM_stepOver_cons (present : Bool) (bs : List Bool) :
    (present :: bs).forM stepOver = (stepOver present >>= fun _ => bs.forM stepOver) := rfl

/-- The slot that is read next is the first of those that are left. -/
theorem left_cons {s : Slots} {present : Bool} {bs : List Bool} (h : s.left = present :: bs) :
    s.presence.isPresent s.next = present ∧ (s.advance 1).left = bs := by
  have hlt : s.next < s.presence.slots.length := by
    apply Nat.lt_of_not_le
    intro hle
    have hn : s.left = [] := List.drop_eq_nil_of_le hle
    rw [hn] at h
    cases h
  unfold left at h
  rw [List.drop_eq_getElem_cons hlt] at h
  obtain ⟨hp,hb⟩ := List.cons.inj h
  refine ⟨?_,hb⟩
  unfold Presence.isPresent
  rw [List.getD_eq_getElem?_getD, List.getElem?_eq_getElem hlt]
  exact hp

/-- Behind the last slot none is filled. -/
theorem left_nil {s : Slots} (h : s.left = []) :
    s.presence.isPresent s.next = false ∧ (s.advance 1).left = [] := by
  have hle : s.presence.slots.length ≤ s.next := List.drop_eq_nil_iff.mp h
  refine ⟨?_,List.drop_eq_nil_of_le (Nat.le_succ_of_le hle)⟩
  unfold Presence.isPresent
  rw [List.getD_eq_getElem?_getD, List.getElem?_eq_none hle]
  rfl

theorem read_of_present {s : Slots} (h : s.presence.isPresent s.next = true) :
    s.read item = payload s.next item >>= fun a => pure (some a,s.advance 1) := if_pos h

theorem read_of_absent {s : Slots} (h : s.presence.isPresent s.next = false) :
    s.read item = pure (none,s.advance 1) := by
  unfold Slots.read
  rw [h]
  rfl

/-- Reading a slot and then stepping over the others is stepping over them all. -/
theorem finish_of_read {s s' : Slots} (h : Local item) {r t u : Reader} {a : Option α}
    (hr : s.read item r = .ok (a,s') t) (hf : s'.finish t = .ok () u) : s.finish r = .ok () u := by
  have hs (hp : s.presence.isPresent s.next = false) : s' = s.advance 1 ∧ t = r := by
    rw [read_of_absent hp] at hr
    obtain ⟨he,rfl⟩ := EStateM.pure_eq_ok.mp hr
    exact ⟨(congrArg Prod.snd he).symm,rfl⟩
  unfold finish at hf ⊢
  cases hl : s.left with
  | nil =>
    obtain ⟨hp,hk⟩ := left_nil hl
    obtain ⟨rfl,rfl⟩ := hs hp
    rwa [hk] at hf
  | cons present bs =>
    obtain ⟨hp,hk⟩ := left_cons hl
    cases present with
    | false =>
      obtain ⟨rfl,rfl⟩ := hs hp
      rwa [hk] at hf
    | true =>
      rw [read_of_present hp] at hr
      obtain ⟨x,v,hv,hr⟩ := EStateM.bind_eq_ok.mp hr
      obtain ⟨he,rfl⟩ := EStateM.pure_eq_ok.mp hr
      obtain rfl : s.advance 1 = s' := congrArg Prod.snd he
      rw [forM_stepOver_cons, EStateM.bind_of_ok _ (stepOver_of_payload h hv), ← hk]
      exact hf

end Slots
end RecordCodec
