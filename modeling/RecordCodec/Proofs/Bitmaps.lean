import RecordCodec.Proofs.Composition
import RecordCodec.Proofs.MachineSlots
import RecordCodec.Proofs.VariableLength

/-! # Presence bitmaps, bit by bit

A bitmap is what is pushed, slot by slot, and no word that holds one has a bit behind its last slot.
Its bytes are as many as are counted and are read back. Bytes are accepted exactly if they tell at
most 64 slots, hold a bit for each of them, and have no other bit set.
-/
namespace RecordCodec

open Bytes

/-! ## The bits of bytes -/

namespace Bytes

/-- A bit of a byte string, from the lowest one of the first byte on. -/
def bit (bs : List UInt8) (i : Nat) : Bool := (bs.getD (i / 8) 0).toNat.testBit (i % 8)

theorem LittleEndian.testBit_decode (bs : List UInt8) (i : Nat) :
    (decode bs).testBit i = bit bs i := by
  induction bs generalizing i with
  | nil => simp [decode, bit]
  | cons b bs ih =>
    have hb : b.toNat < 2 ^ 8 := b.toNat_lt
    have hsplit := Nat.testBit_two_pow_mul_add (decode bs) hb i
    rw [decode, Nat.add_comm]
    refine hsplit.trans ?_
    unfold bit
    by_cases hi : i < 8
    · rw [if_pos hi, Nat.div_eq_of_lt hi, Nat.mod_eq_of_lt hi, List.getD_cons_zero]
    · obtain ⟨j,rfl⟩ := Nat.exists_eq_add_of_le' (Nat.le_of_not_lt hi)
      rw [if_neg hi, Nat.add_sub_cancel, ih, Nat.add_div_right j (by omega), Nat.add_mod_right,
        List.getD_cons_succ]
      rfl

theorem LittleEndian.take_encode {count width : Nat} (h : count ≤ width) (n : Nat) :
    (encode width n).take count = encode count n := by
  induction width generalizing count n with
  | zero =>
    obtain rfl := Nat.le_zero.mp h
    rfl
  | succ width ih =>
    cases count with
    | zero => rfl
    | succ count => simp [encode, ih (Nat.le_of_succ_le_succ h)]

end Bytes

/-! ## Slots -/

namespace Presence

open Read (Gives)

variable {p : Presence} {r s : Reader}

theorem isPresent_eq (p : Presence) (i : Nat) : p.isPresent i = (ofBits p.slots).testBit i :=
  (Machine.testBit_ofBits p.slots i).symm

theorem isPresent_of_le {i : Nat} (h : p.size ≤ i) : p.isPresent i = false := by
  unfold isPresent
  rw [List.getD_eq_getElem?_getD, List.getElem?_eq_none h]
  rfl

theorem exists_ofSlots {slots : List Bool} (h : slots.length ≤ maxSlots) :
    ∃ q, ofSlots slots = .ok q ∧ q.size = slots.length ∧
      (∀ (i : Nat) (hi : i < slots.length), q.isPresent i = slots[i]) ∧
      ∀ i, slots.length ≤ i → q.isPresent i = false := by
  obtain ⟨q,hq,rfl⟩ := ofSlots_eq_ok h
  refine ⟨q,hq,rfl,?_,fun i => isPresent_of_le⟩
  intro i hi
  unfold isPresent
  simp [List.getD_eq_getElem?_getD, hi]

theorem pushTimes_of_full (h : p.size = maxSlots) (present : Bool) (n : Nat) :
    p.pushTimes present (n + 1) = (.error (.invalidData .slotOverflow),p) := by
  have hfull : ¬ p.slots.length < maxSlots := Nat.not_lt.mpr (Nat.le_of_eq h.symm)
  have hpush : p.push present = .error (.invalidData .slotOverflow) := dif_neg hfull
  rw [pushTimes, hpush]

/-! ## Bytes -/

theorem length_toBytes (p : Presence) : p.toBytes.length = p.encodedLength := by
  unfold toBytes bitBytes encodedLength
  rw [List.length_append, Varint.length_encode p.size_lt, LittleEndian.length_encode]

/-- The slots taken from bytes are their bits, if there are none behind the last slot. -/
theorem isPresent_toBits {n : Nat} {body : List UInt8} (h : LittleEndian.decode body < 2 ^ n)
    (hle : (toBits n (LittleEndian.decode body)).length ≤ maxSlots) (i : Nat) :
    isPresent ⟨toBits n (LittleEndian.decode body),hle⟩ i = bit body i := by
  rw [isPresent_eq, Machine.ofBits_toBits h, LittleEndian.testBit_decode]

theorem exists_of_bits {n : Nat} {body : List UInt8} (hn : n ≤ maxSlots)
    (h : ∀ i, n ≤ i → bit body i = false) :
    ∃ q : Presence, q.size = n ∧ ∀ i, q.isPresent i = bit body i := by
  have hlt : LittleEndian.decode body < 2 ^ n := by
    apply Nat.lt_pow_two_of_testBit
    intro i hi
    rw [LittleEndian.testBit_decode, h i hi]
  have hlength : (toBits n (LittleEndian.decode body)).length = n := length_toBits n _
  have hle : (toBits n (LittleEndian.decode body)).length ≤ maxSlots := hlength.symm ▸ hn
  exact ⟨⟨toBits n (LittleEndian.decode body),hle⟩,hlength,isPresent_toBits hlt hle⟩

theorem read_eq_ok :
    read r = .ok p s ↔ ∃ t body, Read.varint r = .ok p.size t ∧ t.Passes body s ∧
      body.length = bytesFor p.size ∧ ∀ i, p.isPresent i = bit body i := by
  constructor
  · intro h
    obtain ⟨n,t,ht,h⟩ := EStateM.bind_eq_ok.mp h
    by_cases hn : n ≤ maxSlots
    · rw [dif_pos hn] at h
      obtain ⟨bits,u,hu,h⟩ := EStateM.bind_eq_ok.mp h
      obtain ⟨body,v,hv,hbits⟩ := EStateM.bind_eq_ok.mp hu
      obtain ⟨rfl,rfl⟩ := EStateM.pure_eq_ok.mp hbits
      obtain ⟨hpass,hlength⟩ := Read.take_eq_ok.mp hv
      by_cases hz : LittleEndian.decode body >>> n = 0
      · rw [if_pos hz] at h
        obtain ⟨rfl,rfl⟩ := EStateM.pure_eq_ok.mp h
        have hsize : (toBits n (LittleEndian.decode body)).length = n := length_toBits n _
        have hlt : LittleEndian.decode body < 2 ^ n := by
          rw [Nat.shiftRight_eq_div_pow] at hz
          exact (Nat.div_eq_zero_iff_lt (Nat.two_pow_pos n)).mp hz
        refine ⟨t,body,?_,hpass,?_,isPresent_toBits hlt _⟩
        · unfold size
          rw [hsize, ht]
        · unfold size
          rw [hsize, hlength]
      · rw [if_neg hz] at h
        cases h
    · rw [dif_neg hn] at h
      cases h
  · -- the count may take more bytes than it needs, so this is no case of `gives_read`
    rintro ⟨t,body,ht,hpass,hlength,hbits⟩
    have hdecode : LittleEndian.decode body = ofBits p.slots := by
      apply Nat.eq_of_testBit_eq
      intro i
      rw [LittleEndian.testBit_decode, ← hbits, isPresent_eq]
    have hnat : Read.nat (bytesFor p.size) t = .ok (ofBits p.slots) s := by
      rw [← hdecode]
      exact EStateM.bind_of_ok _ (Read.take_eq_ok.mpr ⟨hpass,hlength⟩)
    have hz : ofBits p.slots >>> p.size = 0 :=
      Nat.shiftRight_eq_zero (ofBits p.slots) p.size (ofBits_lt p.slots)
    refine (EStateM.bind_of_ok _ ht).trans ?_
    rw [dif_pos (show p.size ≤ maxSlots from p.length_le)]
    refine (EStateM.bind_of_ok _ hnat).trans ?_
    rw [if_pos hz]
    exact EStateM.pure_eq_ok.mpr ⟨eq_of_slots (toBits_ofBits p.slots),rfl⟩

/-- Bytes are accepted exactly if they tell so many slots as there may be and hold a bit for each,
and no other of their bits is set. -/
theorem exists_read_iff :
    (∃ p s, read r = .ok p s) ↔ ∃ n t body, Read.varint r = .ok n t ∧ n ≤ maxSlots ∧
      body <+: t.rest ∧ body.length = bytesFor n ∧ ∀ i, n ≤ i → bit body i = false := by
  constructor
  · rintro ⟨p,s,h⟩
    obtain ⟨t,body,ht,hpass,hlength,hbits⟩ := read_eq_ok.mp h
    refine ⟨p.size,t,body,ht,p.length_le,hpass.isPrefix,hlength,?_⟩
    intro i hi
    rw [← hbits i, isPresent_of_le hi]
  · rintro ⟨n,t,body,ht,hn,hopen,hlength,hclear⟩
    obtain ⟨p,rfl,hbits⟩ := exists_of_bits hn hclear
    obtain ⟨s,hs⟩ := Reader.exists_passes hopen
    exact ⟨p,s,read_eq_ok.mpr ⟨t,body,ht,hs,hlength,hbits⟩⟩

end Presence

/-! ## Words -/

namespace Machine

variable {w : Word}

namespace Word

/-- The words that a machine comes to: that of a new bitmap, those with one more slot, and those
that are read. -/
inductive Reached : Word → Prop
  | new : Reached {}
  | push {w w' : Word} {present : Bool} {r : Reader} {c : Cursor} (h : Reached w)
    (hp : w.push present r.cursor = .ok w' c) : Reached w'
  | read {w : Word} {r : Reader} {c : Cursor} (h : Word.read r.cursor = .ok w c) : Reached w

def write (w : Word) : Run (List UInt8) := do
  let count ← writeVarint (UInt64.ofNat w.length)
  let word := LittleEndian.encode (Presence.bytesFor wordBits) w.bits
  let bits ← part word 0 (Presence.bytesFor w.length)
  pure (count ++ bits)

def ofSlots (slots : List Bool) : Run Word :=
  slots.foldlM (fun w present => w.push present) {}

theorem write_of (p : Presence) (c : Cursor) : (Word.of p).write c = .ok p.toBytes c := by
  have hcount : (UInt64.ofNat p.size).toNat = p.size := by
    rw [UInt64.toNat_ofNat']
    exact Nat.mod_eq_of_lt p.size_lt
  have hle : Presence.bytesFor p.size ≤ Presence.bytesFor wordBits := bytesFor_le p.length_le
  have hfront : Presence.bytesFor p.size ≤
      (LittleEndian.encode (Presence.bytesFor wordBits) (Presence.ofBits p.slots)).length := by
    rwa [LittleEndian.length_encode]
  refine (EStateM.bind_of_ok _ (writeVarint_eq _ c)).trans ?_
  refine (EStateM.bind_of_ok _ (part_of_le _ (Nat.zero_le _) hfront c)).trans ?_
  rw [List.drop_zero, Nat.sub_zero, LittleEndian.take_encode hle, length_of, hcount]
  rfl

theorem push_eq_ok {p : Presence} {present : Bool} {r : Reader} {w : Word} {c : Cursor}
    (h : (Word.of p).push present r.cursor = .ok w c) :
    ∃ q, p.push present = .ok q ∧ w = Word.of q := by
  rw [does_push p present r] at h
  cases hq : p.push present with
  | ok q =>
    rw [hq] at h
    cases h
    exact ⟨q,rfl,rfl⟩
  | error e =>
    rw [hq] at h
    cases h

theorem read_eq_ok {r : Reader} {w : Word} {c : Cursor} (h : Word.read r.cursor = .ok w c) :
    ∃ q s, Presence.read r = .ok q s ∧ w = Word.of q := by
  cases hq : Presence.read r with
  | ok q s =>
    rw [does_readWord.of_ok hq] at h
    cases h
    exact ⟨q,s,rfl,rfl⟩
  | error e s =>
    rw [does_readWord.of_error hq] at h
    cases h

theorem Reached.exists_presence (h : w.Reached) : ∃ p, w = Word.of p := by
  induction h with
  | new => exact ⟨.empty,rfl⟩
  | push _ hp ih =>
    obtain ⟨p,rfl⟩ := ih
    obtain ⟨q,-,hq⟩ := push_eq_ok hp
    exact ⟨q,hq⟩
  | read hr =>
    obtain ⟨q,_,-,hq⟩ := read_eq_ok hr
    exact ⟨q,hq⟩

theorem testBit_of_le (p : Presence) {i : Nat} (h : p.size ≤ i) :
    (Word.of p).bits.testBit i = false := by
  rw [bits_of, ← Presence.isPresent_eq]
  exact Presence.isPresent_of_le h

theorem foldlM_push (slots : List Bool) (p : Presence) :
    Does (slots.foldlM (fun w present => w.push present) (Word.of p))
      (MonadExcept.ofExcept (Word.of <$> slots.foldlM (fun p present => p.push present) p)) := by
  induction slots generalizing p with
  | nil => exact .pure _
  | cons present slots ih =>
    intro r
    have hpush := does_push p present r
    rw [List.foldlM_cons, List.foldlM_cons]
    cases hq : p.push present with
    | ok q =>
      rw [hq] at hpush
      exact (EStateM.bind_of_ok _ hpush).trans (ih q r)
    | error e =>
      rw [hq] at hpush
      exact EStateM.bind_of_error _ hpush

end Word

/-- What a machine does with the word of a bitmap is what is done with the bitmap. -/
structure Word.Represents (w : Word) (p : Presence) : Prop where
  length_eq : w.length = p.size
  isPresent_eq : ∀ slot, Does (w.isPresent slot) (pure (p.isPresent slot))
  push_eq : ∀ present, Does (w.push present) (MonadExcept.ofExcept (Word.of <$> p.push present))
  write_eq : Does w.write (pure (Emission.allBytes (Emission.presence p)))

theorem Word.represents (p : Presence) : (Word.of p).Represents p where
  length_eq := rfl
  isPresent_eq := does_isPresent p
  push_eq := does_push p
  write_eq := by
    intro r
    rw [Emission.allBytes_presence]
    exact Word.write_of p r.cursor

end Machine

open Machine (Does Word)

/-- Every word that a machine comes to has at most 64 slots and no bit behind them, and represents a
bitmap. A bitmap holds what is pushed, and stays as it is when it is full. Its bytes are as many as
are counted, and are read back whatever follows. Bytes are accepted exactly if they tell at most 64
slots, hold a bit for each of them and have no other bit set, and then they are the bitmap's. -/
theorem Presence.bitmap_represents (p : Presence) (slots : List Bool) (r : Reader) :
    (∀ w : Word, w.Reached → w.length ≤ maxSlots ∧
      (∀ i, w.length ≤ i → w.bits.testBit i = false) ∧ ∃ q, w = Word.of q) ∧
    (Word.of p).Represents p ∧
    (slots.length ≤ maxSlots → ∃ q, ofSlots slots = .ok q ∧
      Word.ofSlots slots r.cursor = .ok (Word.of q) r.cursor ∧ q.size = slots.length ∧
      (∀ (i : Nat) (hi : i < slots.length), q.isPresent i = slots[i]) ∧
      ∀ i, slots.length ≤ i → q.isPresent i = false) ∧
    (p.size = maxSlots → ∀ present n,
      p.pushTimes present (n + 1) = (.error (.invalidData .slotOverflow),p)) ∧
    (Emission.allBytes (Emission.presence p)).length = p.encodedLength ∧
    (∀ o, Read.Gives o read (Emission.allBytes (Emission.presence p)) (.ok p)) ∧
    ((∃ q s, read r = .ok q s) ↔ ∃ n t body, Read.varint r = .ok n t ∧ n ≤ maxSlots ∧
      body <+: t.rest ∧ body.length = bytesFor n ∧ ∀ i, n ≤ i → bit body i = false) ∧
    (∀ q s, read r = .ok q s ↔ ∃ t body, Read.varint r = .ok q.size t ∧ t.Passes body s ∧
      body.length = bytesFor q.size ∧ ∀ i, q.isPresent i = bit body i) ∧
    Does Word.read (Word.of <$> read) := by
  have hbytes := Emission.allBytes_presence p
  refine ⟨?_,Word.represents p,?_,pushTimes_of_full,?_,?_,exists_read_iff,fun q s => read_eq_ok,
    Machine.does_readWord⟩
  · intro w hw
    obtain ⟨q,rfl⟩ := hw.exists_presence
    exact ⟨q.length_le,fun i => Word.testBit_of_le q,q,rfl⟩
  · intro h
    obtain ⟨q,hq,hsize,hin,hout⟩ := exists_ofSlots h
    have hword := Word.foldlM_push slots .empty r
    rw [show slots.foldlM (fun p present => p.push present) empty = .ok q from hq] at hword
    exact ⟨q,hq,hword,hsize,hin,hout⟩
  · rw [hbytes]
    exact p.length_toBytes
  · intro o
    rw [hbytes]
    exact gives_read o p

theorem Presence.bitmap_represents_three :
    (∃ w : Word, w.Reached ∧ w.length = 3 ∧ w.bits = 5 ∧ ∃ q, w = Word.of q) ∧
    (∃ q, Presence.ofSlots [true, false, true] = .ok q ∧ q.size = 3 ∧ q.isPresent 1 = false ∧
      q.isPresent 2 = true ∧ q.isPresent 3 = false) ∧
    ∃ full : Presence, full.size = maxSlots ∧
      full.pushTimes true 2 = (.error (.invalidData .slotOverflow),full) := by
  have hread : Word.read (Reader.ofBytes {} [3, 5, 0xEE]).cursor =
      .ok ⟨5,3⟩ ⟨[3, 5, 0xEE],2,{}⟩ := rfl
  let full : Presence := ⟨List.replicate maxSlots true,by decide⟩
  have hfull : full.size = maxSlots := rfl
  obtain ⟨hreached,-,hpushed,hpush,-⟩ :=
    Presence.bitmap_represents full [true, false, true] (.ofBytes {} [3, 5, 0xEE])
  obtain ⟨-,-,q,hq⟩ := hreached ⟨5,3⟩ (.read hread)
  obtain ⟨p,hp,-,hsize,hin,hout⟩ := hpushed (by decide)
  refine ⟨⟨⟨5,3⟩,.read hread,rfl,rfl,q,hq⟩,⟨p,hp,hsize,?_,?_,?_⟩,full,hfull,hpush hfull true 1⟩
  · exact hin 1 (by decide)
  · exact hin 2 (by decide)
  · exact hout 3 (Nat.le_refl 3)

end RecordCodec
