import RecordCodec.Bytes.Varint
import RecordCodec.Discriminant
import RecordCodec.Error
import RecordCodec.Options
import RecordCodec.Text.Utf8

/-! # Reading bytes

A reader stands at a position of a byte string. Every operation either succeeds and moves it on, or
fails and leaves it behind the bytes that it had consumed by then. Only `Read.take` and `Read.seek`
move a reader, and neither moves it past the end.
-/
namespace RecordCodec

open Bytes (LittleEndian.decode)

/-- A position in a byte string, with the options of the operation. -/
structure Reader where
  bytes : List UInt8
  position : Nat
  rest : List UInt8
  options : Options
  position_le : position ≤ bytes.length
  rest_eq : rest = bytes.drop position

namespace Reader

def ofBytes (options : Options) (bytes : List UInt8) : Reader where
  bytes
  position := 0
  rest := bytes
  options
  position_le := Nat.zero_le _
  rest_eq := rfl

def remaining (r : Reader) : Nat := r.rest.length

theorem remaining_eq (r : Reader) : r.remaining = r.bytes.length - r.position := by
  simp [remaining, r.rest_eq]

def moveTo (r : Reader) (position : Nat) (h : position ≤ r.bytes.length) : Reader where
  bytes := r.bytes
  position
  rest := r.bytes.drop position
  options := r.options
  position_le := h
  rest_eq := rfl

def advance (r : Reader) (taken : Nat) (h : taken ≤ r.rest.length) : Reader where
  bytes := r.bytes
  position := r.position + taken
  rest := r.rest.drop taken
  options := r.options
  position_le := by
    have hrest := r.remaining_eq
    have hposition := r.position_le
    unfold remaining at hrest
    omega
  rest_eq := by rw [r.rest_eq, List.drop_drop]

end Reader

abbrev Read := EStateM Error Reader

namespace Read

def outcome {α : Type} (operation : Read α) (r : Reader) : Except Error α × Reader :=
  match operation r with
  | .ok a r => (.ok a, r)
  | .error e r => (.error e, r)

def fault {α : Type} (f : Fault) : Read α := throw (.invalidData f)

def take (n : Nat) : Read (List UInt8) := fun r =>
  if h : n ≤ r.rest.length then .ok (r.rest.take n) (r.advance n h)
  else .error (.truncated n r.remaining) r

def seek (position : Nat) : Read Unit := fun r =>
  if h : position ≤ r.bytes.length then .ok () (r.moveTo position h)
  else .error (.truncated (position - min r.position position) r.remaining) r

def remaining : Read Nat := Reader.remaining <$> get

def options : Read Options := Reader.options <$> get

def position : Read Nat := Reader.position <$> get

def nat (width : Nat) : Read Nat := LittleEndian.decode <$> take width

def byte : Read Nat := nat 1

/-- The groups of a variable-length number from the one of a given weight on, of which at most
`more + 1` are left; `low` is the number so far. -/
def varintGroups (weight low : Nat) : (more : Nat) → Read Nat
  | 0 => do
    let b ← byte
    if b > 1 then fault .varint else pure (low + b * weight)
  | more + 1 => do
    let b ← byte
    let low := low + b % 128 * weight
    if b < 128 then pure low else varintGroups (weight * 128) low more

def varint : Read Nat := varintGroups 1 0 (Bytes.Varint.maxBytes - 1)

def length : Read Nat := do
  let n ← varint
  let limit := (← options).maxLength
  if n ≤ limit then pure n else fault (.length n limit)

def bool : Read Bool := do
  match ← byte with
  | 0 => pure false
  | 1 => pure true
  | b => fault (.boolean b)

def char : Read Char := do
  let code ← nat 4
  if h : code.isValidChar then pure (Char.ofNatAux code h) else fault (.scalarValue code)

/-- The number of an alternative among so many; it may be none of theirs. -/
def discriminant (alternatives : Nat) : Read Nat := nat (discriminantWidth alternatives)

def byteString : Read (List UInt8) := do take (← length)

def text : Read String := do
  match Text.Utf8.decode (← byteString) with
  | .ok s => pure s
  | .error f => fault (.text f.message)

def replicate {α : Type} (n : Nat) (item : Read α) : Read (List α) :=
  match n with
  | 0 => pure []
  | n + 1 => do
    let a ← item
    let as ← replicate n item
    pure (a :: as)

def times (n : Nat) (item : Read Unit) : Read Unit :=
  match n with
  | 0 => pure ()
  | n + 1 => do
    item
    times n item

end Read
end RecordCodec
