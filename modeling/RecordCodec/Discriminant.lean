/-! # Discriminants

An alternative is written as its number, in one, two or four bytes according to how many there are.
-/
namespace RecordCodec

/-- The bytes of a discriminant among so many alternatives. -/
def discriminantWidth (alternatives : Nat) : Nat :=
  if alternatives ≤ 256 then 1 else if alternatives ≤ 65536 then 2 else 4

end RecordCodec
