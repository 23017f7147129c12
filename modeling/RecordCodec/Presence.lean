import RecordCodec.Reader

/-! # Presence bitmaps

Which of an aggregate's slots are filled. A bitmap is written as the number of its slots and one bit
for each, the first in the lowest bit of the first byte; the bits that are left over are clear.
-/
namespace RecordCodec

/-- For every slot, whether it is filled. -/
structure Presence where
  slots : List Bool := []
  length_le : slots.length ≤ maxSlots := by decide

namespace Presence

def empty : Presence := {}

def size (p : Presence) : Nat := p.slots.length

def isEmpty (p : Presence) : Bool := p.slots.isEmpty

/-- Whether a slot is filled; one that is not there is not. -/
def isPresent (p : Presence) (slot : Nat) : Bool := p.slots.getD slot false

def push (p : Presence) (present : Bool) : Except Error Presence :=
  if h : p.slots.length < maxSlots then
    .ok ⟨p.slots ++ [present], by rw [List.length_append]; exact h⟩
  else .error (.invalidData .slotOverflow)

/-- Pushes the same slot a number of times, up to the first that finds no room, and tells the bitmap
afterwards. -/
def pushTimes (p : Presence) (present : Bool) : Nat → Except Error Unit × Presence
  | 0 => (.ok (), p)
  | n + 1 =>
    match p.push present with
    | .ok p => pushTimes p present n
    | .error e => (.error e, p)

def ofSlots (slots : List Bool) : Except Error Presence :=
  slots.foldlM (fun p present => p.push present) empty

def bytesFor (bits : Nat) : Nat := (bits + 7) / 8

/-- The number whose binary digits are given, the lowest first. -/
def ofBits : List Bool → Nat
  | [] => 0
  | b :: bs => b.toNat + 2 * ofBits bs

def toBits : (count n : Nat) → List Bool
  | 0, _ => []
  | count + 1, n => (n % 2 == 1) :: toBits count (n / 2)

def bitBytes (p : Presence) : List UInt8 :=
  Bytes.LittleEndian.encode (bytesFor p.size) (ofBits p.slots)

def encodedLength (p : Presence) : Nat := Bytes.Varint.size p.size + bytesFor p.size

theorem length_toBits (count n : Nat) : (toBits count n).length = count := by
  induction count generalizing n with
  | zero => rfl
  | succ count ih => simp [toBits, ih]

def read : Read Presence := do
  let count ← Read.varint
  if h : count ≤ maxSlots then
    let bits ← Read.nat (bytesFor count)
    if bits >>> count = 0 then pure ⟨toBits count bits, by simpa [length_toBits] using h⟩
    else Read.fault .strayBit
  else Read.fault (.slotCount count)

end Presence

/-- The slots of an aggregate that is being read: which are filled, and how many are behind the
reader. -/
structure Slots where
  presence : Presence := .empty
  next : Nat := 0

namespace Slots

def start (hasBitmap : Bool) : Read Slots :=
  if hasBitmap then do pure { presence := ← Presence.read } else pure {}

/-- Reads the payload of a slot, which must fill its declared length. -/
def payload {α : Type} (slot : Nat) (item : Read α) : Read α := do
  let declared ← Read.length
  let available ← Read.remaining
  if available < declared then throw (.truncated declared available)
  let a ← item
  let consumed := available - (← Read.remaining)
  if consumed = declared then pure a else Read.fault (.payload slot declared consumed)

def advance (s : Slots) (count : Nat) : Slots := { s with next := s.next + count }

def read {α : Type} (s : Slots) (item : Read α) : Read (Option α × Slots) := do
  if s.presence.isPresent s.next then
    let a ← payload s.next item
    pure (some a, s.advance 1)
  else pure (none, s.advance 1)

def stepOver (present : Bool) : Read Unit := do
  if present then
    let _ ← Read.take (← Read.length)

def left (s : Slots) : List Bool := s.presence.slots.drop s.next

def finish (s : Slots) : Read Unit := s.left.forM stepOver

/-- How many slots a reader comes to that steps over some: all, or those up to the first that
fails. -/
def reached : List Bool → Reader → Nat
  | [], _ => 0
  | present :: slots, r =>
    match stepOver present r with
    | .ok () r => reached slots r + 1
    | .error .. => 1

def finished (s : Slots) (r : Reader) : Slots := s.advance (reached s.left r)

end Slots
end RecordCodec
