/-! # Hexadecimal text

Lower-case digits, padded on the left with zeros to a given width.
-/
namespace RecordCodec.Text.Hex

def digits (width n : Nat) : String :=
  let ds := Nat.toDigits 16 n
  String.ofList (List.replicate (width - ds.length) '0' ++ ds)

/-- The digits of `n` behind the mark `0x`, at least `width` of them. -/
def marked (width n : Nat) : String := "0x" ++ digits width n

def ofBytes (bytes : List UInt8) : String := String.join (bytes.map fun b => digits 2 b.toNat)

def digit? (c : Char) : Option Nat :=
  if c.isDigit then some (c.toNat - '0'.toNat)
  else if 'a' ≤ c ∧ c ≤ 'f' then some (c.toNat - 'a'.toNat + 10)
  else if 'A' ≤ c ∧ c ≤ 'F' then some (c.toNat - 'A'.toNat + 10)
  else none

def toNat? (cs : List Char) : Option Nat :=
  cs.foldlM (fun n c => (n * 16 + ·) <$> digit? c) 0

def toBytes? : List Char → Option (List UInt8)
  | [] => some []
  | [_] => none
  | a :: b :: cs => do
    let n ← toNat? [a, b]
    let bytes ← toBytes? cs
    pure (UInt8.ofNat n :: bytes)

end RecordCodec.Text.Hex
