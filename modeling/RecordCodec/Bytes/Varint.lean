/-! # Variable-length numbers

A number of 64 bits as groups of seven bits, the lowest group first. Every byte but the last has its
top bit set. Ten groups are enough for 64 bits, and the tenth has room for a single bit.
-/
namespace RecordCodec.Bytes.Varint

def maxBytes : Nat := 10

/-- At most `more` groups that are continued, then the last one. -/
def groups : (more n : Nat) → List UInt8
  | 0, n => [UInt8.ofNat n]
  | more + 1, n =>
    if n < 128 then [UInt8.ofNat n] else UInt8.ofNat (n % 128 + 128) :: groups more (n / 128)

def encode (n : Nat) : List UInt8 := groups (maxBytes - 1) n

def size (n : Nat) : Nat := (Nat.log2 (n ||| 1) + 1 + 6) / 7

end RecordCodec.Bytes.Varint
