import RecordCodec.Body.Decode
import RecordCodec.Descriptor

/-! # A machine that reads

A machine reads from a bare cursor, whose position may be anything. Its operations can stop: at a
difference below zero, at a part of a slice that is not there, at bytes that are copied into room of
another length, at a shift by the width of a word, at a product past the address space, at a
position that goes back or past the end, and at room for more elements than the address space holds.
-/
namespace RecordCodec
namespace Machine

inductive Panic where
  | difference
  | part
  | copy
  | shift
  | product
  | position
  | capacity
deriving DecidableEq, Repr

/-- How an operation ends early: with an error that it returns, or because the machine stops. -/
inductive Halt where
  | error (e : Error)
  | panic (p : Panic)

structure Cursor where
  bytes : List UInt8
  position : Nat
  options : Options

abbrev Run := EStateM Halt Cursor

variable {α β : Type}

/-! ## Operations that can stop -/

def stop (p : Panic) : Run α := throw (.panic p)

def subtract (m n : Nat) : Run Nat := if n ≤ m then pure (m - n) else stop .difference

def part (as : List α) (first behind : Nat) : Run (List α) :=
  if first ≤ behind ∧ behind ≤ as.length then pure ((as.take behind).drop first) else stop .part

def copy (room bytes : List UInt8) : Run (List UInt8) :=
  if room.length = bytes.length then pure bytes else stop .copy

def wordBits : Nat := 64

def shiftLeft (n count : Nat) : Run Nat :=
  if count < wordBits then pure ((n <<< count) % (1 <<< wordBits)) else stop .shift

def shiftRight (n count : Nat) : Run Nat :=
  if count < wordBits then pure (n >>> count) else stop .shift

def represent (n : Nat) : Run Nat := if n < addressSpace then pure n else stop .product

def moveTo (position : Nat) : Run Unit := do
  let c ← get
  if c.position ≤ position ∧ position ≤ c.bytes.length then set { c with position }
  else stop .position

def fail (e : Error) : Run α := throw (.error e)

def fault (f : Fault) : Run α := fail (.invalidData f)

/-! ## Room for elements -/

/-- The bytes that a collection of a type asks for at once, if room is made for some elements. -/
abbrev Memory := (collection : Schema) → (elements : Nat) → Nat

/-- The most bytes that are given at once. -/
def mostRoom : Nat := addressSpace / 2 - 1

def reserve (memory : Memory) (collection : Schema) (elements : Nat) : Run Unit :=
  if memory collection elements ≤ mostRoom then pure () else stop .capacity

def preallocation (length : Nat) : Run Nat := do pure ((← get).options.preallocation length)

/-! ## Reading -/

def remaining : Run Nat := do
  let c ← get
  subtract c.bytes.length c.position

def take (n : Nat) : Run (List UInt8) := do
  let available ← remaining
  if available < n then fail (.truncated n available)
  else
    let c ← get
    let taken ← part c.bytes c.position (c.position + n)
    moveTo (c.position + n)
    pure taken

def nat (width : Nat) : Run Nat := do
  let bytes ← copy (List.replicate width 0) (← take width)
  pure (Bytes.LittleEndian.decode bytes)

/-- The groups of a variable-length number from the one at `index` on, at most `most` of them. -/
def varintGroups (value index : Nat) : (most : Nat) → Run Nat
  | 0 => fault .varint
  | most + 1 => do
    let byte ← nat 1
    if index = Bytes.Varint.maxBytes - 1 ∧ byte > 1 then fault .varint
    else
      let group ← shiftLeft (byte &&& 0x7F) (7 * index)
      let value := value ||| group
      if byte &&& 0x80 = 0 then pure value else varintGroups value (index + 1) most

def varint : Run Nat := varintGroups 0 0 Bytes.Varint.maxBytes

def length : Run Nat := do
  let n ← varint
  let limit := (← get).options.maxLength
  if n ≤ limit then pure n else fault (.length n limit)

def bool : Run Bool := do
  match ← nat 1 with
  | 0 => pure false
  | 1 => pure true
  | b => fault (.boolean b)

def char : Run Char := do
  let code ← nat 4
  if h : code.isValidChar then pure (Char.ofNatAux code h) else fault (.scalarValue code)

def discriminant (alternatives : Nat) : Run Nat := nat (discriminantWidth alternatives)

def byteString : Run (List UInt8) := do take (← length)

def text : Run String := do
  match Text.Utf8.decode (← byteString) with
  | .ok s => pure s
  | .error f => fault (.text f.message)

def duration : Run Value := do
  let secs ← nat 8
  let nanos ← nat 4
  if nanos < 1000000000 then pure (.record [.int secs, .int nanos])
  else fault (.nanoseconds nanos)

def scalar (s : Scalar) : Run Value :=
  match s with
  | .bool => .bool <$> bool
  | .char => .char <$> char
  | .u8 | .u16 | .u32 | .u64 | .u128 => (fun n => .int (n : Int)) <$> nat s.width
  | .i8 | .i16 | .i32 | .i64 | .i128 =>
    (fun n => .int (Bytes.LittleEndian.signed s.width n)) <$> nat s.width
  | .f32 | .f64 => .float <$> nat s.width

def replicate (item : Run α) : (n : Nat) → Run (List α)
  | 0 => pure []
  | n + 1 => do
    let a ← item
    let as ← replicate item n
    pure (a :: as)

def times (item : Run Unit) : (n : Nat) → Run Unit
  | 0 => pure ()
  | n + 1 => do
    item
    times item n

def distinct (view : Value → Value) (item : Run Value) :
    (n : Nat) → (collected : List Value) → Run (List Value)
  | 0, collected => pure collected
  | n + 1, collected => do
    let v ← item
    match Value.insert? view v collected with
    | some collected => distinct view item n collected
    | none => fault .duplicate

end Machine

def Reader.cursor (r : Reader) : Machine.Cursor := ⟨r.bytes, r.position, r.options⟩

end RecordCodec
