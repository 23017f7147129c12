import Mathlib.Algebra.BigOperators.Fin
import RecordCodec.Proofs.Machine

/-! # Variable-length numbers, byte by byte

A machine writes a word group by group into a buffer of ten bytes, of which none is ever missing,
and counts its bytes from the leading zeros of the word. What reads a number accepts exactly the
bytes of the format, also those that are longer than they need to be, and comes to the sum of their
groups. Every other input either ends too early or asks for more than 64 bits.
-/
namespace RecordCodec

open Bytes

/-! ## The bytes of a number -/

namespace Bytes.Varint

/-- The sum of the groups, the first of which is the lowest. -/
def value (bs : List UInt8) : Nat := ∑ i : Fin bs.length, bs[i].toNat % 128 * 128 ^ i.val

theorem value_cons (b : UInt8) (bs : List UInt8) :
    value (b :: bs) = b.toNat % 128 + value bs * 128 := by
  have hhead : b.toNat % 128 * 128 ^ (0 : Fin (b :: bs).length).val = b.toNat % 128 :=
    Nat.mul_one _
  unfold value
  rw [Finset.sum_mul]
  refine (Fin.sum_univ_succ _).trans (congrArg₂ (· + ·) hhead (Finset.sum_congr rfl ?_))
  intro i _
  simp only [Fin.val_succ, Nat.pow_succ, Nat.mul_assoc]
  rfl

theorem value_singleton (b : UInt8) : value [b] = b.toNat % 128 := value_cons b []

/-- All bytes have their top bit set, so that the number does not end with any of them. -/
def Continued (bs : List UInt8) : Prop := ∀ b ∈ bs, 128 ≤ b.toNat

theorem continued_cons {b : UInt8} {bs : List UInt8} :
    Continued (b :: bs) ↔ 128 ≤ b.toNat ∧ Continued bs := List.forall_mem_cons

/-- The bytes of a number that at most `more` bytes continue. Behind so many the last one has room
for a single bit. -/
structure IsForm (more : Nat) (front : List UInt8) (last : UInt8) : Prop where
  continued : Continued front
  ends : last.toNat < 128
  length_le : front.length ≤ more
  room : front.length = more → last.toNat ≤ 1

/-- Bytes that continue as far as they can, and another one without room for its bits. -/
structure IsOverlong (more : Nat) (front : List UInt8) (last : UInt8) : Prop where
  continued : Continued front
  length_eq : front.length = more
  overflows : 1 < last.toNat

variable {more : Nat} {front : List UInt8} {b last : UInt8}

theorem IsForm.cons (hb : 128 ≤ b.toNat) (h : IsForm more front last) :
    IsForm (more + 1) (b :: front) last where
  continued := continued_cons.mpr ⟨hb,h.continued⟩
  ends := h.ends
  length_le := Nat.succ_le_succ h.length_le
  room := fun hl => h.room (Nat.succ.inj hl)

theorem IsForm.of_cons (h : IsForm (more + 1) (b :: front) last) : IsForm more front last where
  continued := (continued_cons.mp h.continued).2
  ends := h.ends
  length_le := Nat.le_of_succ_le_succ h.length_le
  room := fun hl => h.room (congrArg (· + 1) hl)

theorem IsForm.exists_more (h : IsForm more (b :: front) last) : ∃ n, more = n + 1 := by
  have hl : front.length + 1 ≤ more := h.length_le
  exact ⟨more - 1,by omega⟩

theorem IsOverlong.cons (hb : 128 ≤ b.toNat) (h : IsOverlong more front last) :
    IsOverlong (more + 1) (b :: front) last where
  continued := continued_cons.mpr ⟨hb,h.continued⟩
  length_eq := congrArg (· + 1) h.length_eq
  overflows := h.overflows

theorem IsOverlong.of_cons (h : IsOverlong (more + 1) (b :: front) last) :
    IsOverlong more front last where
  continued := (continued_cons.mp h.continued).2
  length_eq := Nat.succ.inj h.length_eq
  overflows := h.overflows

/-- Bytes open with those of a number, or they end before it does, or they ask for too much. -/
theorem form_or (more : Nat) (bs : List UInt8) :
    (∃ front last, front ++ [last] <+: bs ∧ IsForm more front last) ∨
    (bs.length ≤ more ∧ Continued bs) ∨
    ∃ front last, front ++ [last] <+: bs ∧ IsOverlong more front last := by
  induction more generalizing bs with
  | zero =>
    cases bs with
    | nil => exact .inr (.inl ⟨Nat.le_refl 0,List.forall_mem_nil _⟩)
    | cons b bs =>
      have hopen : [] ++ [b] <+: b :: bs := ⟨bs,rfl⟩
      by_cases hb : b.toNat ≤ 1
      · exact .inl ⟨[],b,hopen,List.forall_mem_nil _,by omega,Nat.le_refl 0,fun _ => hb⟩
      · exact .inr (.inr ⟨[],b,hopen,List.forall_mem_nil _,rfl,Nat.lt_of_not_le hb⟩)
  | succ more ih =>
    cases bs with
    | nil => exact .inr (.inl ⟨Nat.zero_le _,List.forall_mem_nil _⟩)
    | cons b bs =>
      by_cases hb : b.toNat < 128
      · refine .inl ⟨[],b,⟨bs,rfl⟩,List.forall_mem_nil _,hb,Nat.zero_le _,?_⟩
        intro hl
        cases hl
      · have hc : 128 ≤ b.toNat := Nat.le_of_not_lt hb
        obtain ⟨front,last,hp,hf⟩ | ⟨hl,hcs⟩ | ⟨front,last,hp,ho⟩ := ih bs
        · exact .inl ⟨b :: front,last,List.cons_prefix_cons.mpr ⟨rfl,hp⟩,hf.cons hc⟩
        · exact .inr (.inl ⟨Nat.succ_le_succ hl,continued_cons.mpr ⟨hc,hcs⟩⟩)
        · exact .inr (.inr ⟨b :: front,last,List.cons_prefix_cons.mpr ⟨rfl,hp⟩,ho.cons hc⟩)

end Bytes.Varint

/-! ## Reading -/

namespace Read

open Varint (Continued IsForm IsOverlong value)

variable {o : Options} {weight low more : Nat} {front : List UInt8} {b last : UInt8}
  {r s : Reader}

/-- A continued byte leaves the groups behind it to be read. -/
theorem varintGroups_continued (hb : 128 ≤ b.toNat) (h : r.Passes [b] s) :
    varintGroups weight low (more + 1) r =
      varintGroups (weight * 128) (low + b.toNat % 128 * weight) more s := by
  have hr : byte r = .ok b.toNat s := (gives_byte r.options b).of_passes rfl h
  refine (EStateM.bind_of_ok _ hr).trans ?_
  rw [if_neg (Nat.not_lt.mpr hb)]

theorem Gives.continued {bs : List UInt8} {out : Except Error Nat} (hb : 128 ≤ b.toNat)
    (h : Gives o (varintGroups (weight * 128) (low + b.toNat % 128 * weight) more) bs out) :
    Gives o (varintGroups weight low (more + 1)) (b :: bs) out := by
  refine (gives_byte o b).bind_ok ?_
  dsimp only
  rwa [if_neg (Nat.not_lt.mpr hb)]

theorem gives_form (h : IsForm more front last) :
    Gives o (varintGroups weight low more) (front ++ [last])
      (.ok (low + value (front ++ [last]) * weight)) := by
  induction front generalizing more weight low with
  | nil =>
    have hmod : last.toNat % 128 = last.toNat := Nat.mod_eq_of_lt h.ends
    rw [List.nil_append, Varint.value_singleton, hmod]
    cases more with
    | zero =>
      refine (gives_byte o last).bind_nil ?_
      rw [if_neg (Nat.not_lt.mpr (h.room rfl))]
      exact Gives.pure o _
    | succ more =>
      refine (gives_byte o last).bind_nil ?_
      dsimp only
      rw [if_pos h.ends, hmod]
      exact Gives.pure o _
  | cons b front ih =>
    obtain ⟨more,rfl⟩ := h.exists_more
    have hb : 128 ≤ b.toNat := (Varint.continued_cons.mp h.continued).1
    have hi : Gives o (varintGroups weight low (more + 1)) (b :: (front ++ [last]))
        (.ok (low + b.toNat % 128 * weight + value (front ++ [last]) * (weight * 128))) :=
      (ih h.of_cons).continued hb
    have hsum : low + b.toNat % 128 * weight + value (front ++ [last]) * (weight * 128) =
        low + value (b :: (front ++ [last])) * weight := by
      rw [Varint.value_cons, Nat.add_mul, Nat.add_assoc, Nat.mul_comm weight 128, Nat.mul_assoc]
    rwa [hsum] at hi

theorem gives_overlong (h : IsOverlong more front last) :
    Gives o (varintGroups weight low more) (front ++ [last]) (.error (.invalidData .varint)) := by
  induction front generalizing more weight low with
  | nil =>
    obtain rfl : 0 = more := h.length_eq
    refine (gives_byte o last).bind_nil ?_
    rw [if_pos h.overflows]
    exact Gives.fault o [] .varint
  | cons b front ih =>
    obtain rfl : front.length + 1 = more := h.length_eq
    have hb : 128 ≤ b.toNat := (Varint.continued_cons.mp h.continued).1
    exact (ih h.of_cons).continued hb

theorem byte_of_nil (h : r.rest = []) : byte r = .error (.truncated 1 0) r := by
  have ht : take 1 r = .error (.truncated 1 0) r := by
    unfold take Reader.remaining
    simp [h]
  exact EStateM.bind_of_error _ ht

theorem varintGroups_cut (hl : r.rest.length ≤ more) (hc : Continued r.rest) :
    ∃ s, varintGroups weight low more r = .error (.truncated 1 0) s := by
  induction more generalizing weight low r with
  | zero =>
    have hnil := List.eq_nil_of_length_eq_zero (Nat.le_zero.mp hl)
    exact ⟨r,EStateM.bind_of_error _ (byte_of_nil hnil)⟩
  | succ more ih =>
    cases hrest : r.rest with
    | nil => exact ⟨r,EStateM.bind_of_error _ (byte_of_nil hrest)⟩
    | cons b bs =>
      obtain ⟨s,hs⟩ := Reader.exists_passes (r := r) (b := [b]) ⟨bs,hrest.symm⟩
      have hbehind : bs = s.rest := List.tail_eq_of_cons_eq (hrest.symm.trans hs.rest_eq)
      rw [hrest, hbehind] at hl hc
      obtain ⟨hb,hcs⟩ := Varint.continued_cons.mp hc
      rw [varintGroups_continued hb hs]
      exact ih (Nat.le_of_succ_le_succ hl) hcs

theorem gives_varint_form (h : IsForm (Varint.maxBytes - 1) front last) :
    Gives o varint (front ++ [last]) (.ok (value (front ++ [last]))) := by
  have hg : Gives o (varintGroups 1 0 (Varint.maxBytes - 1)) (front ++ [last])
      (.ok (0 + value (front ++ [last]) * 1)) := gives_form h
  rwa [Nat.zero_add, Nat.mul_one] at hg

/-- The three kinds of input, and what reading them comes to. -/
theorem varint_cases (r : Reader) :
    (∃ front last s, IsForm (Varint.maxBytes - 1) front last ∧ r.Passes (front ++ [last]) s ∧
      varint r = .ok (value (front ++ [last])) s) ∨
    ((r.rest.length < Varint.maxBytes ∧ Continued r.rest) ∧
      ∃ s, varint r = .error (.truncated 1 0) s) ∨
    ∃ s, varint r = .error (.invalidData .varint) s := by
  obtain ⟨front,last,hp,hf⟩ | ⟨hl,hc⟩ | ⟨front,last,hp,ho⟩ :=
    Varint.form_or (Varint.maxBytes - 1) r.rest
  · obtain ⟨s,hs⟩ := Reader.exists_passes hp
    exact .inl ⟨front,last,s,hf,hs,(gives_varint_form hf).of_passes rfl hs⟩
  · exact .inr (.inl ⟨⟨Nat.lt_of_le_of_lt hl (by decide),hc⟩,varintGroups_cut hl hc⟩)
  · exact .inr (.inr (gives_overlong ho r rfl hp))

theorem varint_eq_ok {x : Nat} :
    varint r = .ok x s ↔ ∃ front last, IsForm (Varint.maxBytes - 1) front last ∧
      r.Passes (front ++ [last]) s ∧ x = value (front ++ [last]) := by
  constructor
  · intro hx
    obtain ⟨front,last,t,hf,hp,ht⟩ | ⟨-,t,ht⟩ | ⟨t,ht⟩ := varint_cases r
    · obtain ⟨rfl,rfl⟩ : x = value (front ++ [last]) ∧ s = t := by simpa using hx.symm.trans ht
      exact ⟨front,last,hf,hp,rfl⟩
    · cases hx.symm.trans ht
    · cases hx.symm.trans ht
  · rintro ⟨front,last,hf,hp,rfl⟩
    exact (gives_varint_form hf).of_passes rfl hp

theorem varint_eq_truncated :
    (∃ s, varint r = .error (.truncated 1 0) s) ↔
      r.rest.length < Varint.maxBytes ∧ Continued r.rest := by
  constructor
  · rintro ⟨s,hs⟩
    obtain ⟨front,last,t,-,-,ht⟩ | ⟨hcut,-⟩ | ⟨t,ht⟩ := varint_cases r
    · cases hs.symm.trans ht
    · exact hcut
    · cases hs.symm.trans ht
  · rintro ⟨hl,hc⟩
    exact varintGroups_cut (Nat.le_pred_of_lt hl) hc

theorem varint_error {e : Error} (h : varint r = .error e s) :
    e = .truncated 1 0 ∨ e = .invalidData .varint := by
  obtain ⟨front,last,t,-,-,ht⟩ | ⟨-,t,ht⟩ | ⟨t,ht⟩ := varint_cases r
  · cases h.symm.trans ht
  · cases h.symm.trans ht
    exact .inl rfl
  · cases h.symm.trans ht
    exact .inr rfl

end Read

/-! ## What is read fits a word -/

namespace Bytes.Varint

theorem value_lt {more : Nat} {front : List UInt8} {last : UInt8} (h : IsForm more front last) :
    value (front ++ [last]) < 2 * 128 ^ more := by
  induction front generalizing more with
  | nil =>
    have hmod : last.toNat % 128 = last.toNat := Nat.mod_eq_of_lt h.ends
    rw [List.nil_append, value_singleton, hmod]
    cases more with
    | zero => exact Nat.lt_succ_of_le (h.room rfl)
    | succ more =>
      have hpos : 0 < 128 ^ more := Nat.pow_pos (by omega)
      have hends := h.ends
      rw [Nat.pow_succ]
      omega
  | cons b front ih =>
    obtain ⟨more,rfl⟩ := h.exists_more
    have hi := ih h.of_cons
    rw [List.cons_append, value_cons, Nat.pow_succ]
    omega

end Bytes.Varint

/-! ## Writing -/

namespace Machine

/-- A buffer with a byte stored at one of its places. -/
def store (buffer : List UInt8) (place : Nat) (byte : UInt8) : Run (List UInt8) :=
  if place < buffer.length then pure (buffer.set place byte) else stop .part

/-- Stores the groups of a word from a place of a buffer on, and tells how many bytes of the buffer
are used then. -/
def storeGroups (word : UInt64) (place : Nat) (buffer : List UInt8) : Run (Nat × List UInt8) :=
  if 0x80 ≤ word.toNat then do
    let buffer ← store buffer place (word.toUInt8 ||| 0x80)
    storeGroups (word >>> 7) (place + 1) buffer
  else do
    let buffer ← store buffer place word.toUInt8
    pure (place + 1, buffer)
termination_by word.toNat
decreasing_by
  simp only [UInt64.toNat_shiftRight, UInt64.reduceToNat, Nat.reduceMod, Nat.shiftRight_eq_div_pow]
  omega

/-- The bytes of a word, which are stored in a buffer and copied from its front. -/
def writeVarint (word : UInt64) : Run (List UInt8) := do
  let (used, buffer) ← storeGroups word 0 (List.replicate Varint.maxBytes 0)
  part buffer 0 used

/-- The number of bytes of a word, from the zeros that lead it. -/
def varintSize (word : UInt64) : Run Nat := do
  let bits ← subtract wordBits (word ||| 1).toBitVec.clz.toNat
  pure ((bits + 6) / 7)

theorem toNat_shiftRight_seven (word : UInt64) : (word >>> 7).toNat = word.toNat / 128 := by
  simp [UInt64.toNat_shiftRight, Nat.shiftRight_eq_div_pow]

/-- The lowest byte of a word with its top bit set is a group that is continued. -/
theorem toUInt8_or_0x80 (word : UInt64) :
    word.toUInt8 ||| 0x80 = UInt8.ofNat (word.toNat % 128 + 128) := by
  have hlow : (word.toNat % 256 ||| 2 ^ 7) % 2 ^ 7 = word.toNat % 128 := by
    rw [Nat.or_mod_two_pow, Nat.mod_self, Nat.or_zero]
    omega
  have hhigh : (word.toNat % 256 ||| 2 ^ 7) / 2 ^ 7 = 1 := by
    rw [Nat.or_div_two_pow]
    have hbit : word.toNat % 256 / 2 ^ 7 = 0 ∨ word.toNat % 256 / 2 ^ 7 = 1 := by omega
    rcases hbit with h | h
    · rw [h]
      rfl
    · rw [h]
      rfl
  have hsum := Nat.div_add_mod (word.toNat % 256 ||| 2 ^ 7) (2 ^ 7)
  rw [hlow, hhigh] at hsum
  apply UInt8.toNat_inj.mp
  rw [UInt8.toNat_or, UInt64.toNat_toUInt8, UInt8.toNat_ofNat']
  change word.toNat % 256 ||| 2 ^ 7 = _
  omega

theorem store_append (done free : List UInt8) (old byte : UInt8) (c : Cursor) :
    store (done ++ old :: free) done.length byte c = .ok (done ++ byte :: free) c := by
  have hplace : done.length < (done ++ old :: free).length := by
    simp
  unfold store
  rw [if_pos hplace, List.set_append_right _ _ (Nat.le_refl _), Nat.sub_self]
  rfl

theorem storeGroups_last {word : UInt64} (h : word.toNat < 128) (more : Nat)
    (done : List UInt8) (old : UInt8) (free : List UInt8) (c : Cursor) :
    storeGroups word done.length (done ++ old :: free) c =
      .ok (done.length + (Varint.groups more word.toNat).length,
        done ++ Varint.groups more word.toNat ++
          (old :: free).drop (Varint.groups more word.toNat).length) c := by
  have hgroups : Varint.groups more word.toNat = [word.toUInt8] := by
    cases more with
    | zero => rfl
    | succ more => exact if_pos h
  unfold storeGroups
  rw [if_neg (by omega), hgroups, List.append_assoc]
  exact EStateM.bind_of_ok _ (store_append done free old _ c)

/-- The groups of a word are stored behind what is done, and take the places of as many bytes. -/
theorem storeGroups_eq {more : Nat} {word : UInt64} (hw : word.toNat < 128 ^ (more + 1))
    (done : List UInt8) {free : List UInt8} (hf : more < free.length) (c : Cursor) :
    storeGroups word done.length (done ++ free) c =
      .ok (done.length + (Varint.groups more word.toNat).length,
        done ++ Varint.groups more word.toNat ++
          free.drop (Varint.groups more word.toNat).length) c := by
  induction more generalizing word done free with
  | zero =>
    obtain ⟨old,free,rfl⟩ := List.exists_cons_of_length_pos hf
    exact storeGroups_last hw 0 done old free c
  | succ more ih =>
    obtain ⟨old,free,rfl⟩ := List.exists_cons_of_length_pos (Nat.zero_lt_of_lt hf)
    by_cases hlast : word.toNat < 128
    · exact storeGroups_last hlast (more + 1) done old free c
    · -- the byte that is stored joins what is done, so that the next place is again its length
      have hshift := toNat_shiftRight_seven word
      have hfit : (word >>> 7).toNat < 128 ^ (more + 1) := by
        rw [hshift]
        rw [Nat.pow_succ] at hw
        exact Nat.div_lt_of_lt_mul (by rwa [Nat.mul_comm])
      have hgroups : Varint.groups (more + 1) word.toNat =
          (word.toUInt8 ||| 0x80) :: Varint.groups more (word >>> 7).toNat := by
        rw [toUInt8_or_0x80, hshift]
        exact if_neg hlast
      have hi := ih hfit (done ++ [word.toUInt8 ||| 0x80]) (Nat.lt_of_succ_lt_succ hf)
      simp only [List.length_append, List.length_singleton, List.append_assoc,
        List.singleton_append] at hi
      unfold storeGroups
      rw [if_pos (by omega), hgroups]
      refine (EStateM.bind_of_ok _ (store_append done free old _ c)).trans ?_
      simp only [List.length_cons, List.drop_succ_cons, List.append_assoc, List.cons_append]
      rw [hi, Nat.add_assoc, Nat.add_comm 1, List.cons_append]

theorem lt_groups (word : UInt64) : word.toNat < 128 ^ Varint.maxBytes :=
  Nat.lt_of_lt_of_le word.toNat_lt (by decide)

/-- No place of the buffer is missing, and its front is the bytes of the word. -/
theorem writeVarint_eq (word : UInt64) (c : Cursor) :
    writeVarint word c = .ok (Varint.encode word.toNat) c := by
  have hroom : Varint.maxBytes - 1 < (List.replicate Varint.maxBytes (0 : UInt8)).length := by
    decide
  have hstore := storeGroups_eq (lt_groups word) [] hroom c
  rw [List.nil_append, List.nil_append, List.length_nil, Nat.zero_add] at hstore
  refine (EStateM.bind_of_ok _ hstore).trans ?_
  refine (part_of_le _ (Nat.zero_le _) (by simp) c).trans ?_
  rw [List.drop_zero, Nat.sub_zero, List.take_left]
  rfl

/-- The bits of a word are those that its leading zeros leave. -/
theorem sub_clz (word : UInt64) (h : word ≠ 0) :
    wordBits - word.toBitVec.clz.toNat = Nat.log2 word.toNat + 1 := by
  have hbits : word.toBitVec ≠ 0#64 := by
    intro hz
    exact h (UInt64.toBitVec_inj.mp hz)
  have hn : word.toNat ≠ 0 := by
    intro hz
    exact h (UInt64.toNat_inj.mp hz)
  have hlt : word.toBitVec.clz.toNat < 64 := BitVec.clz_lt_iff_ne_zero.mpr hbits
  have hlow := BitVec.two_pow_sub_clz_le_toNat_of_ne_zero (by decide) hbits
  have hhigh := BitVec.toNat_lt_two_pow_sub_clz (x := word.toBitVec)
  have hlog : Nat.log2 word.toNat = 63 - word.toBitVec.clz.toNat := by
    refine (Nat.log2_eq_iff hn).mpr ⟨hlow,?_⟩
    have he : 63 - word.toBitVec.clz.toNat + 1 = 64 - word.toBitVec.clz.toNat := by omega
    rwa [he]
  rw [hlog]
  unfold wordBits
  omega

theorem varintSize_eq (word : UInt64) (c : Cursor) :
    varintSize word c = .ok (Varint.size word.toNat) c := by
  have hne : word ||| 1 ≠ 0 := by
    intro hz
    have hn : word.toNat ||| 1 = 0 := congrArg UInt64.toNat hz
    have hle : 1 ≤ word.toNat ||| 1 := Nat.right_le_or
    omega
  have hle : (word ||| 1).toBitVec.clz.toNat ≤ wordBits := BitVec.clz_le
  refine (EStateM.bind_of_ok _ (subtract_of_le hle c)).trans ?_
  rw [sub_clz _ hne, UInt64.toNat_or]
  rfl

end Machine

namespace Bytes.Varint

theorem size_le (word : UInt64) : size word.toNat ≤ maxBytes := by
  have hword : word.toNat < 2 ^ 64 := word.toNat_lt
  have hlog : Nat.log2 word.toNat < 64 := by
    by_cases hz : word.toNat = 0
    · rw [hz]
      decide
    · exact (Nat.log2_lt hz).mpr hword
  unfold size maxBytes
  rw [log2_or_one]
  omega

end Bytes.Varint

namespace Read

/-- Every word is written in at most ten bytes, as many as are counted, and read back whatever
follows. What is read comes from exactly the bytes of the format: it is the sum of their groups,
which fits a word and is what a machine of 64 bits computes. Bytes that end too early are told apart
from those that ask for more. -/
theorem varint_reads_forms (word : UInt64) (r : Reader) :
    ((∀ c, Machine.writeVarint word c = .ok (Varint.encode word.toNat) c) ∧
      (∀ c, Machine.varintSize word c = .ok (Varint.encode word.toNat).length c) ∧
      (Varint.encode word.toNat).length = Varint.size word.toNat ∧
      (Varint.encode word.toNat).length ≤ Varint.maxBytes ∧
      ∀ o, Gives o varint (Varint.encode word.toNat) (.ok word.toNat)) ∧
    (∀ x s, varint r = .ok x s ↔
      ∃ front last, Varint.IsForm (Varint.maxBytes - 1) front last ∧
        r.Passes (front ++ [last]) s ∧ x = Varint.value (front ++ [last])) ∧
    ((∃ s, varint r = .error (.truncated 1 0) s) ↔
      r.rest.length < Varint.maxBytes ∧ Varint.Continued r.rest) ∧
    (∀ e s, varint r = .error e s → e = .truncated 1 0 ∨ e = .invalidData .varint) ∧
    (∀ x s, varint r = .ok x s → x < addressSpace) ∧
    Machine.varint r.cursor = Machine.told (varint r) := by
  have hlength : (Varint.encode word.toNat).length = Varint.size word.toNat :=
    Varint.length_encode word.toNat_lt
  refine ⟨⟨Machine.writeVarint_eq word,?_,hlength,?_,fun o => gives_varint o word.toNat_lt⟩,
    fun x s => varint_eq_ok,varint_eq_truncated,fun e s => varint_error,?_,Machine.does_varint r⟩
  · intro c
    rw [hlength]
    exact Machine.varintSize_eq word c
  · rw [hlength]
    exact Varint.size_le word
  · intro x s hx
    obtain ⟨front,last,hf,-,rfl⟩ := varint_eq_ok.mp hx
    exact Nat.lt_of_lt_of_le (Varint.value_lt hf) (by decide)

/-- Ten bytes, of which the last holds the one bit that it has room for. -/
theorem varint_reads_forms_longer :
    ∃ s, varint (.ofBytes {} (List.replicate 9 0x80 ++ [1, 7])) = .ok (2 ^ 63) s ∧ s.rest = [7] ∧
      2 ^ 63 < addressSpace := by
  have hcontinued : Varint.Continued (List.replicate 9 0x80) := by
    intro b hb
    rw [List.eq_of_mem_replicate hb]
    decide
  have hform : Varint.IsForm (Varint.maxBytes - 1) (List.replicate 9 0x80) 1 :=
    ⟨hcontinued,by decide,Nat.le_refl 9,fun _ => Nat.le_refl 1⟩
  have hvalue : Varint.value (List.replicate 9 0x80 ++ [1]) = 2 ^ 63 := by decide
  obtain ⟨s,hs⟩ := Reader.exists_passes (r := .ofBytes {} (List.replicate 9 0x80 ++ [1, 7]))
    (b := List.replicate 9 0x80 ++ [1]) ⟨[7],rfl⟩
  obtain ⟨-,hok,-,-,hlt,-⟩ :=
    varint_reads_forms 0 (.ofBytes {} (List.replicate 9 0x80 ++ [1, 7]))
  have hr := (hok (2 ^ 63) s).mpr ⟨_,_,hform,hs,hvalue.symm⟩
  have hrest : (List.replicate 9 0x80 ++ [1]) ++ [7] = (List.replicate 9 0x80 ++ [1]) ++ s.rest :=
    hs.rest_eq
  exact ⟨s,hr,(List.append_cancel_left hrest).symm,hlt _ s hr⟩

end Read
end RecordCodec
