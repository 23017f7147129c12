import RecordCodec.Machine

/-! # Slots on a machine

A machine holds a presence bitmap in a word. A slot is tested, and a new one set, by shifts of less
than the word's width; what a payload has taken is the difference of what is left before and behind
it.
-/
namespace RecordCodec

namespace Machine

variable {α : Type}

/-- A presence bitmap in a word: the bits of the slots, the first one the lowest, and their
number. -/
structure Word where
  bits : Nat := 0
  length : Nat := 0

namespace Word

def isPresent (w : Word) (slot : Nat) : Run Bool := do
  if slot < w.length then
    let shifted ← shiftRight w.bits slot
    pure (shifted &&& 1 == 1)
  else pure false

def push (w : Word) (present : Bool) : Run Word := do
  if w.length < maxSlots then
    if present then
      let bit ← shiftLeft 1 w.length
      pure ⟨w.bits ||| bit, w.length + 1⟩
    else pure ⟨w.bits, w.length + 1⟩
  else fault .slotOverflow

def readBits (count : Nat) : Run Nat := do
  let word := List.replicate (Presence.bytesFor wordBits) 0
  let front ← part word 0 (Presence.bytesFor count)
  let bytes ← copy front (← take (Presence.bytesFor count))
  pure (Bytes.LittleEndian.decode (bytes ++ word.drop (Presence.bytesFor count)))

/-- The bitmap of so many slots with some bits, none of which may be behind the last slot. A word
full of slots has none there, and a shift behind them would be one by its width. -/
def ofBits (bits count : Nat) : Run Word := do
  if count < maxSlots then
    let stray ← shiftRight bits count
    if stray = 0 then pure ⟨bits, count⟩ else fault .strayBit
  else pure ⟨bits, count⟩

def read : Run Word := do
  let count ← varint
  if count ≤ maxSlots then ofBits (← readBits count) count else fault (.slotCount count)

end Word

/-- The slots of an aggregate that is being read: which are filled, and how many are behind the
cursor. -/
structure Slots where
  word : Word := {}
  next : Nat := 0

namespace Slots

def start (hasBitmap : Bool) : Run Slots :=
  if hasBitmap then do pure { word := ← Word.read } else pure {}

def payload (slot : Nat) (item : Run α) : Run α := do
  let declared ← length
  let available ← remaining
  if available < declared then fail (.truncated declared available)
  else
    let a ← item
    let consumed ← subtract available (← remaining)
    if consumed = declared then pure a else fault (.payload slot declared consumed)

def read (s : Slots) (item : Run α) : Run (Option α × Slots) := do
  if ← s.word.isPresent s.next then
    let a ← payload s.next item
    pure (some a, { s with next := s.next + 1 })
  else pure (none, { s with next := s.next + 1 })

def stepOver (w : Word) (slot : Nat) : Run Unit := do
  if ← w.isPresent slot then
    let _ ← take (← length)

def finishFrom (w : Word) (slot : Nat) : (most : Nat) → Run Unit
  | 0 => pure ()
  | most + 1 => do
    stepOver w slot
    finishFrom w (slot + 1) most

def finish (s : Slots) : Run Unit := finishFrom s.word s.next (s.word.length - s.next)

end Slots

end Machine
end RecordCodec
