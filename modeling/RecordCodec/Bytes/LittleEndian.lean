/-! # Little-endian numbers

A number of a fixed width as bytes, the least significant first. A signed number is written as its
residue modulo the range of the width.
-/
namespace RecordCodec.Bytes

def LittleEndian.encode : (width n : Nat) → List UInt8
  | 0, _ => []
  | width + 1, n => UInt8.ofNat (n % 256) :: encode width (n / 256)

def LittleEndian.decode : List UInt8 → Nat
  | [] => 0
  | b :: bs => b.toNat + 256 * decode bs

def LittleEndian.range : (width : Nat) → Nat
  | 0 => 1
  | width + 1 => 256 * range width

/-- The residue that stands for a signed number of `width` bytes. -/
def LittleEndian.residue (width : Nat) (i : Int) : Nat := (i % (range width : Nat)).toNat

/-- The signed number of `width` bytes with residue `n`: the upper half stands for the negative
numbers. -/
def LittleEndian.signed (width n : Nat) : Int :=
  if 2 * n < range width then n else (n : Int) - (range width : Nat)

@[simp] theorem LittleEndian.length_encode (width n : Nat) : (encode width n).length = width := by
  induction width generalizing n with
  | zero => rfl
  | succ width ih => simp [encode, ih]

theorem LittleEndian.decode_encode {width n : Nat} (h : n < range width) :
    decode (encode width n) = n := by
  induction width generalizing n with
  | zero =>
    have hn : n = 0 := Nat.lt_one_iff.1 h
    simp [encode, decode, hn]
  | succ width ih =>
    have hn : n / 256 < range width := by
      unfold range at h
      omega
    simp only [encode, decode, ih hn, UInt8.toNat_ofNat']
    omega

end RecordCodec.Bytes
