import Mathlib.Algebra.Group.Nat.Defs
import RecordCodec.Descriptor
import RecordCodec.Emission
import RecordCodec.Proofs.Reading

/-! # Numbers are read back as they were written

Numbers of a fixed width, variable-length numbers and discriminants: what is written under the
bounds of the format is read back, and the counted size of a variable-length number is the number of
its bytes.
-/
namespace RecordCodec

namespace Bytes

theorem LittleEndian.range_eq (width : Nat) : range width = 256 ^ width := by
  induction width with
  | zero => rfl
  | succ width ih => rw [range, ih, Nat.pow_succ, Nat.mul_comm]

theorem LittleEndian.range_pos (width : Nat) : 0 < range width := by
  rw [range_eq]
  exact Nat.pow_pos (by omega)

theorem LittleEndian.residue_lt (width : Nat) (i : Int) : residue width i < range width := by
  have hr := range_pos width
  have hm := Int.emod_lt_of_pos i (b := (range width : Nat)) (by omega)
  unfold residue
  omega

theorem LittleEndian.signed_residue {width : Nat} {i : Int} (hl : -(range width : Nat) ≤ 2 * i)
    (hu : 2 * i < (range width : Nat)) : signed width (residue width i) = i := by
  have hr := range_pos width
  unfold signed residue
  by_cases hi : 0 ≤ i
  · have hm : i % (range width : Nat) = i := Int.emod_eq_of_lt hi (by omega)
    rw [hm, if_pos (by omega)]
    omega
  · have hm : i % (range width : Nat) = i + (range width : Nat) := by
      rw [← Int.add_emod_right, Int.emod_eq_of_lt (by omega) (by omega)]
    rw [hm, if_neg (by omega)]
    omega

theorem LittleEndian.residue_of_lt {width : Nat} {i : Int} (hl : 0 ≤ i)
    (hu : i < (range width : Nat)) : (residue width i : Int) = i := by
  unfold residue
  rw [Int.emod_eq_of_lt hl hu]
  omega

namespace Varint

/-- The highest bit of a number is not below its lowest. -/
theorem log2_or_one (n : Nat) : Nat.log2 (n ||| 1) = Nat.log2 n := by
  have hd : (n ||| 1) / 2 = n / 2 := by
    rw [Nat.or_div_two]
    exact Nat.or_zero _
  have hle : n ≤ n ||| 1 := Nat.left_le_or
  rw [Nat.log2_def (n ||| 1), Nat.log2_def n, hd]
  by_cases hn : 2 ≤ n
  · rw [if_pos hn, if_pos (by omega)]
  · have ho : n = 0 ∨ n = 1 := by omega
    rcases ho with rfl | rfl <;> rfl

theorem log2_div_128 {n : Nat} (h : 128 ≤ n) : Nat.log2 n = Nat.log2 (n / 128) + 7 := by
  have hn : n ≠ 0 := by omega
  have hm : n / 128 ≠ 0 := by omega
  have hk := (Nat.log2_eq_iff hm).mp rfl
  refine (Nat.log2_eq_iff hn).mpr ?_
  rw [Nat.pow_add, Nat.pow_add, Nat.pow_add] at *
  omega

theorem log2_le_six {n : Nat} (h : n < 128) : Nat.log2 n ≤ 6 := by
  by_cases hn : n = 0
  · rw [hn, Nat.log2_zero]
    omega
  · have hlt : Nat.log2 n < 7 := (Nat.log2_lt hn).mpr (by omega)
    omega

theorem length_groups {more n : Nat} (h : n < 128 ^ (more + 1)) :
    (groups more n).length = size n := by
  unfold size
  rw [log2_or_one]
  induction more generalizing n with
  | zero =>
    have hs := log2_le_six h
    simp only [groups, List.length_singleton]
    omega
  | succ more ih =>
    unfold groups
    by_cases hn : n < 128
    · rw [if_pos hn]
      have hs := log2_le_six hn
      simp only [List.length_singleton]
      omega
    · have hd : n / 128 < 128 ^ (more + 1) := by
        rw [Nat.pow_succ] at h
        exact Nat.div_lt_of_lt_mul (by rwa [Nat.mul_comm])
      have hl := log2_div_128 (n := n) (by omega)
      rw [if_neg hn, List.length_cons, ih hd, hl]
      omega

/-- The counted size is the number of bytes. -/
theorem length_encode {n : Nat} (h : n < addressSpace) : (encode n).length = size n :=
  length_groups (Nat.lt_trans h (by decide))

end Varint
end Bytes

namespace Read

open Bytes

theorem gives_nat (o : Options) {width n : Nat} (h : n < LittleEndian.range width) :
    Gives o (nat width) (LittleEndian.encode width n) (.ok n) := by
  have ht := (gives_take o (LittleEndian.encode width n)).map LittleEndian.decode
  rw [LittleEndian.length_encode] at ht
  have hd : LittleEndian.decode <$> (Except.ok (ε := Error) (LittleEndian.encode width n)) = .ok n :=
    congrArg Except.ok (LittleEndian.decode_encode h)
  rwa [hd] at ht

theorem local_nat (width : Nat) : Local (nat width) := (local_take width).map _

theorem nat_passes {width n : Nat} {r s : Reader} (h : nat width r = .ok n s) :
    ∃ b, r.Passes b s ∧ b.length = width := by
  obtain ⟨b,t,ht,hp⟩ := EStateM.bind_eq_ok.mp h
  obtain ⟨-,rfl⟩ := EStateM.pure_eq_ok.mp hp
  exact ⟨b,take_eq_ok.mp ht⟩

theorem gives_byte (o : Options) (b : UInt8) : Gives o byte [b] (.ok b.toNat) :=
  (gives_take o [b]).map LittleEndian.decode

theorem local_byte : Local byte := local_nat 1

/-- The groups of a number, each at its weight, add up to it. -/
theorem gives_varintGroups (o : Options) {more n : Nat} (weight low : Nat)
    (h : n < 2 * 128 ^ more) :
    Gives o (varintGroups weight low more) (Varint.groups more n) (.ok (low + n * weight)) := by
  induction more generalizing weight low n with
  | zero =>
    have hn : (UInt8.ofNat n).toNat = n := by
      rw [UInt8.toNat_ofNat']
      omega
    refine (gives_byte o _).bind_ok (c := []) ?_
    rw [hn, if_neg (by omega)]
    exact Gives.pure o _
  | succ more ih =>
    unfold varintGroups Varint.groups
    by_cases hn : n < 128
    · have hb : (UInt8.ofNat n).toNat = n := by
        rw [UInt8.toNat_ofNat']
        omega
      rw [if_pos hn]
      refine (gives_byte o _).bind_ok (c := []) ?_
      dsimp only
      rw [hb, if_pos hn, Nat.mod_eq_of_lt hn]
      exact Gives.pure o _
    · have hb : (UInt8.ofNat (n % 128 + 128)).toNat = n % 128 + 128 := by
        rw [UInt8.toNat_ofNat']
        omega
      rw [if_neg hn]
      refine (gives_byte o _).bind_ok ?_
      dsimp only
      rw [hb, if_neg (by omega)]
      have hi := ih (weight * 128) (low + (n % 128 + 128) % 128 * weight) (n := n / 128)
        (by rw [Nat.pow_succ] at h; omega)
      have he : low + (n % 128 + 128) % 128 * weight + n / 128 * (weight * 128)
          = low + n * weight := by
        have hd := Nat.div_add_mod n 128
        have hm : (n % 128 + 128) % 128 = n % 128 := by omega
        conv => rhs; rw [← hd]
        rw [hm, Nat.add_mul, Nat.mul_comm weight 128, ← Nat.mul_assoc, Nat.mul_comm (n / 128) 128]
        omega
      rwa [he] at hi

theorem gives_varint (o : Options) {n : Nat} (h : n < addressSpace) :
    Gives o varint (Varint.encode n) (.ok n) := by
  have hn : n < 2 * 128 ^ (Varint.maxBytes - 1) := Nat.lt_of_lt_of_le h (by decide)
  have hg := gives_varintGroups o 1 0 hn
  rwa [Nat.zero_add, Nat.mul_one] at hg

theorem local_varintGroups (weight low more : Nat) : Local (varintGroups weight low more) := by
  induction more generalizing weight low with
  | zero => exact local_byte.bind fun b => (Local.fault _).ite (.pure _)
  | succ more ih => exact local_byte.bind fun b => (Local.pure _).ite (ih _ _)

theorem local_varint : Local varint := local_varintGroups 1 0 _

/-- A length within the limit is read back. -/
theorem gives_length {o : Options} {n : Nat} (h : n < addressSpace) (hl : n ≤ o.maxLength) :
    Gives o length (Varint.encode n) (.ok n) := by
  refine (gives_varint o h).bind_nil ((gives_options o).bind_nil ?_)
  rw [if_pos hl]
  exact Gives.pure o n

theorem local_length : Local length :=
  local_varint.bind fun n => local_options.bind fun _ => (Local.pure n).ite (.fault _)

theorem gives_bool (o : Options) (b : Bool) :
    Gives o bool (LittleEndian.encode 1 b.toNat) (.ok b) := by
  cases b <;> exact (gives_byte o _).bind_nil (Gives.pure o _)

theorem local_bool : Local bool := by
  refine local_byte.bind fun b => ?_
  split
  · exact .pure _
  · exact .pure _
  · exact .fault _

theorem gives_char (o : Options) (c : Char) :
    Gives o char (LittleEndian.encode 4 c.toNat) (.ok c) := by
  have hc : c.toNat.isValidChar := c.valid
  have hlt : c.toNat < LittleEndian.range 4 := Nat.lt_of_lt_of_le c.val.toNat_lt (by decide)
  refine (gives_nat o hlt).bind_nil ?_
  rw [dif_pos hc]
  have he : Char.ofNatAux c.toNat hc = c := by
    apply Char.ext
    exact UInt32.toNat_inj.mp rfl
  rw [he]
  exact Gives.pure o c

/-- The width of a discriminant holds every index. -/
theorem lt_discriminant_range {index alternatives : Nat} (h : index < alternatives)
    (hn : alternatives ≤ 0x100000000) :
    index < LittleEndian.range (discriminantWidth alternatives) := by
  unfold discriminantWidth
  split
  · exact Nat.lt_of_lt_of_le h ‹_›
  · split
    · exact Nat.lt_of_lt_of_le h ‹_›
    · exact Nat.lt_of_lt_of_le h hn

theorem gives_discriminant (o : Options) {index alternatives : Nat} (h : index < alternatives)
    (hn : alternatives ≤ 0x100000000) :
    Gives o (discriminant alternatives)
      (LittleEndian.encode (discriminantWidth alternatives) index) (.ok index) :=
  gives_nat o (lt_discriminant_range h hn)

theorem local_discriminant (alternatives : Nat) : Local (discriminant alternatives) := local_nat _

theorem gives_byteString {o : Options} {b : List UInt8} (h : b.length < addressSpace)
    (hl : b.length ≤ o.maxLength) :
    Gives o byteString (Varint.encode b.length ++ b) (.ok b) :=
  (gives_length h hl).bind_ok (gives_take o b)

end Read
end RecordCodec
