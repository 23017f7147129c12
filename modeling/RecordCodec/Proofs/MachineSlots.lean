import RecordCodec.Machine.Slots
import RecordCodec.Proofs.Machine
import RecordCodec.Proofs.Slots

/-! # Presence bitmaps and slots on a machine

What a machine does with the word of a presence bitmap is what is done with the bitmap. Reading does
not raise what is left, so the difference that a payload has taken is not below zero.
-/
namespace RecordCodec

namespace Machine

variable {α : Type}

/-! ## The word of a bitmap -/

def Word.of (p : Presence) : Word := ⟨Presence.ofBits p.slots,p.size⟩

@[simp] theorem Word.bits_of (p : Presence) : (Word.of p).bits = Presence.ofBits p.slots := rfl

@[simp] theorem Word.length_of (p : Presence) : (Word.of p).length = p.size := rfl

theorem testBit_ofBits (bs : List Bool) (i : Nat) :
    (Presence.ofBits bs).testBit i = bs.getD i false := by
  induction bs generalizing i with
  | nil => simp [Presence.ofBits]
  | cons b bs ih =>
    have hb : b.toNat ≤ 1 := Bool.toNat_le b
    cases i with
    | zero =>
      have hm : (b.toNat + 2 * Presence.ofBits bs) % 2 = b.toNat := by omega
      rw [Presence.ofBits, Nat.testBit_zero, hm]
      cases b <;> rfl
    | succ i =>
      have hd : (b.toNat + 2 * Presence.ofBits bs) / 2 = Presence.ofBits bs := by omega
      rw [Presence.ofBits, Nat.testBit_add_one, hd, ih]
      rfl

/-- A new slot is behind those before, so its bit is added to theirs. -/
theorem ofBits_append (bs : List Bool) (b : Bool) :
    Presence.ofBits (bs ++ [b]) = b.toNat * 2 ^ bs.length + Presence.ofBits bs := by
  induction bs with
  | nil => simp [Presence.ofBits]
  | cons c bs ih =>
    rw [List.cons_append, Presence.ofBits, Presence.ofBits, ih, List.length_cons, Nat.pow_succ,
      ← Nat.mul_assoc]
    omega

theorem ofBits_toBits {count n : Nat} (h : n < 2 ^ count) :
    Presence.ofBits (Presence.toBits count n) = n := by
  induction count generalizing n with
  | zero => exact (Nat.lt_one_iff.mp h).symm
  | succ count ih =>
    rw [Presence.toBits, Presence.ofBits, ih (by omega)]
    have hn := Nat.mod_add_div n 2
    rcases Nat.mod_two_eq_zero_or_one n with hm | hm <;>
    · rw [hm] at hn ⊢
      exact hn

/-- Zeros behind the bytes of a number do not change it. -/
theorem decode_append_zeros (bytes : List UInt8) (n : Nat) :
    Bytes.LittleEndian.decode (bytes ++ List.replicate n 0) = Bytes.LittleEndian.decode bytes := by
  induction bytes with
  | nil =>
    induction n with
    | zero => rfl
    | succ n ih =>
      change 0 + 256 * Bytes.LittleEndian.decode ([] ++ List.replicate n 0) = 0
      rw [ih]
      rfl
  | cons b bytes ih =>
    rw [List.cons_append, Bytes.LittleEndian.decode, ih, Bytes.LittleEndian.decode]

theorem does_isPresent (p : Presence) (slot : Nat) :
    Does ((Word.of p).isPresent slot) (pure (p.isPresent slot)) := by
  intro r
  have hp : p.size ≤ wordBits := p.length_le
  have hslot : p.isPresent slot = (Presence.ofBits p.slots).testBit slot :=
    (testBit_ofBits p.slots slot).symm
  unfold Word.isPresent
  rw [Word.length_of, Word.bits_of]
  by_cases hs : slot < p.size
  · have hbit : (Presence.ofBits p.slots >>> slot &&& 1 == 1) = p.isPresent slot := by
      rw [hslot, Nat.testBit, Nat.and_comm 1, Nat.and_one_is_mod]
      rcases Nat.mod_two_eq_zero_or_one (Presence.ofBits p.slots >>> slot) with h | h <;>
        rw [h] <;> rfl
    rw [if_pos hs]
    refine (EStateM.bind_of_ok _ (shiftRight_of_lt (Nat.lt_of_lt_of_le hs hp) _ r.cursor)).trans ?_
    rw [hbit]
    rfl
  · have hout : p.isPresent slot = false := by
      unfold Presence.isPresent
      rw [List.getD_eq_getElem?_getD, List.getElem?_eq_none (Nat.le_of_not_lt hs)]
      rfl
    rw [if_neg hs, hout]
    rfl

/-- The word of a bitmap with one more slot. -/
theorem Word.of_push {p q : Presence} {present : Bool} (h : p.push present = .ok q) :
    Word.of q = ⟨present.toNat * 2 ^ p.size + Presence.ofBits p.slots,p.size + 1⟩ := by
  unfold Presence.push at h
  split at h
  · cases h
    unfold Word.of Presence.size
    rw [ofBits_append, List.length_append, List.length_singleton]
  · cases h

/-- A slot is pushed as the library pushes it, and refused behind the last place of a word. -/
theorem does_push (p : Presence) (present : Bool) :
    Does ((Word.of p).push present) (MonadExcept.ofExcept (Word.of <$> p.push present)) := by
  intro r
  unfold Word.push
  rw [Word.length_of, Word.bits_of]
  by_cases hs : p.size < maxSlots
  · obtain ⟨q,hq,-⟩ := Presence.push_of_lt (p := p) (b := present) hs
    have hw := Word.of_push hq
    rw [if_pos hs, hq]
    change _ = EStateM.Result.ok (Word.of q) r.cursor
    cases present with
    | false =>
      rw [Bool.toNat_false, Nat.zero_mul, Nat.zero_add] at hw
      rw [hw]
      rfl
    | true =>
      have hlow : Presence.ofBits p.slots < 2 ^ p.size := Presence.ofBits_lt p.slots
      have hfit : 1 <<< p.size < 2 ^ wordBits := by
        rw [Nat.one_shiftLeft]
        exact Nat.pow_lt_pow_right (by omega) hs
      rw [Bool.toNat_true, ← Nat.shiftLeft_eq, Nat.shiftLeft_add_eq_or_of_lt hlow, Nat.or_comm,
        ← Nat.mod_eq_of_lt hfit] at hw
      rw [hw]
      exact EStateM.bind_of_ok _ (shiftLeft_of_lt hs 1 r.cursor)
  · have hq : p.push present = .error (.invalidData .slotOverflow) := dif_neg hs
    rw [if_neg hs, hq]
    rfl

theorem bytesFor_le {count : Nat} (h : count ≤ maxSlots) :
    Presence.bytesFor count ≤ Presence.bytesFor wordBits := by
  unfold Presence.bytesFor wordBits
  unfold maxSlots at h
  omega

theorem does_readBits {count : Nat} (h : count ≤ maxSlots) :
    Does (Word.readBits count) (Read.nat (Presence.bytesFor count)) := by
  intro r
  have hword : Presence.bytesFor count
      ≤ (List.replicate (Presence.bytesFor wordBits) (0 : UInt8)).length := by
    rw [List.length_replicate]
    exact bytesFor_le h
  refine (EStateM.bind_of_ok _ (part_of_le _ (Nat.zero_le _) hword r.cursor)).trans ?_
  refine (does_take _).bind_of (fun b r s hb => ?_) r
  have hfront : (((List.replicate (Presence.bytesFor wordBits) (0 : UInt8)).drop 0).take
      (Presence.bytesFor count - 0)).length = b.length := by
    rw [(Read.take_eq_ok.mp hb).2, List.length_take, List.drop_zero]
    exact Nat.min_eq_left hword
  intro t
  refine (EStateM.bind_of_ok _ (copy_of_length hfront t.cursor)).trans ?_
  rw [List.drop_replicate, decode_append_zeros]
  rfl

theorem does_ofBits {bits count : Nat} (h : count ≤ maxSlots)
    (hb : bits < Bytes.LittleEndian.range (Presence.bytesFor count)) :
    Does (Word.ofBits bits count) (if bits >>> count = 0 then pure ⟨bits,count⟩
      else Read.fault .strayBit) := by
  unfold Word.ofBits
  by_cases hc : count < maxSlots
  · rw [if_pos hc]
    intro r
    refine (EStateM.bind_of_ok _ (shiftRight_of_lt hc bits r.cursor)).trans ?_
    exact Does.ite (.pure _) (.fault _) r
  · -- the bytes of a full word end with its last slot
    obtain rfl : count = maxSlots := by omega
    have hz : bits >>> maxSlots = 0 := by
      rw [Nat.shiftRight_eq_div_pow]
      exact Nat.div_eq_of_lt hb
    rw [if_neg hc, if_pos hz]
    exact .pure _

theorem Word.of_toBits {bits count : Nat} (h : bits < 2 ^ count)
    (hl : (Presence.toBits count bits).length ≤ maxSlots) :
    Word.of ⟨Presence.toBits count bits,hl⟩ = ⟨bits,count⟩ :=
  congrArg₂ Word.mk (ofBits_toBits h) (Presence.length_toBits count bits)

theorem does_readWord : Does Word.read (Word.of <$> Presence.read) := by
  unfold Presence.read
  rw [map_bind]
  refine does_varint.bind fun count => ?_
  by_cases hc : count ≤ maxSlots
  · rw [if_pos hc, dif_pos hc, map_bind]
    refine (does_readBits hc).bind_of fun bits r s hb => ?_
    have ho := does_ofBits hc (Read.returns_nat _ _ _ _ hb)
    by_cases hz : bits >>> count = 0
    · have hlt : bits < 2 ^ count := by
        rw [Nat.shiftRight_eq_div_pow] at hz
        exact (Nat.div_eq_zero_iff_lt (Nat.two_pow_pos count)).mp hz
      rw [if_pos hz] at ho ⊢
      rwa [map_pure, Word.of_toBits hlt]
    · rw [if_neg hz] at ho ⊢
      exact ho
  · rw [if_neg hc, dif_neg hc]
    exact .fault _

/-! ## The slots of an aggregate -/

def Slots.of (s : RecordCodec.Slots) : Slots := ⟨Word.of s.presence,s.next⟩

theorem does_start (hasBitmap : Bool) :
    Does (Slots.start hasBitmap) (Slots.of <$> RecordCodec.Slots.start hasBitmap) := by
  cases hasBitmap with
  | false => exact .pure _
  | true =>
    unfold RecordCodec.Slots.start
    rw [if_pos rfl, map_bind]
    exact does_readWord.bind_map fun p => .pure _

theorem does_stepOver (p : Presence) (slot : Nat) :
    Does (Slots.stepOver (Word.of p) slot) (RecordCodec.Slots.stepOver (p.isPresent slot)) := by
  intro r
  refine (EStateM.bind_of_ok _ (does_isPresent p slot r)).trans ?_
  cases p.isPresent slot with
  | true => exact (does_length.bind fun n => (does_take n).bind fun _ => .pure ()) r
  | false => rfl

theorem does_finishFrom {s : RecordCodec.Slots} {most : Nat} (h : s.left.length = most) :
    Does (Slots.finishFrom (Word.of s.presence) s.next most)
      (s.left.forM RecordCodec.Slots.stepOver) := by
  induction most generalizing s with
  | zero =>
    rw [List.length_eq_zero_iff.mp h]
    exact .pure ()
  | succ most ih =>
    obtain ⟨present,bs,hl⟩ := List.exists_cons_of_length_eq_add_one h
    obtain ⟨hp,hk⟩ := RecordCodec.Slots.left_cons hl
    rw [hl, RecordCodec.Slots.forM_stepOver_cons, ← hp]
    refine (does_stepOver s.presence s.next).bind fun _ => ?_
    rw [← hk]
    refine ih (s := s.advance 1) ?_
    rw [hk]
    rw [hl, List.length_cons] at h
    omega

theorem does_finish (s : RecordCodec.Slots) : Does (Slots.of s).finish s.finish :=
  does_finishFrom List.length_drop

end Machine
end RecordCodec
