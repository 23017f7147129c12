import RecordCodec.Machine.Decode
import RecordCodec.Record.Batch

/-! # Records on a machine

A machine reads the records of bytes that may be anything. What it tells is the outcome of the
operation, or why it stopped.
-/
namespace RecordCodec
namespace Machine

def readHeader (layout : Layout) : Run Slots := do
  let header := Header.ofRaw (← nat Header.width)
  if header.signature ≠ layout.signature then
    fail (.schemaMismatch layout.signature header.signature)
  else if header.announcesBitmap then
    if layout.isAggregate then pure { word := ← Word.read }
    else fault (.announcement layout.typeName)
  else pure {}

def layout (t : Schema) : Run Layout :=
  match Layout.of t with
  | .ok l => pure l
  | .error e => fail e

def readOpening (t : Schema) : Run Slots := do readHeader (← layout t)

def checkTrailing : Run Unit := do
  let count ← remaining
  let c ← get
  if c.options.trailing == .reject && count > 0 then fail (.trailingBytes count)

def onBytes {α : Type} (bytes : List UInt8) (m : Run α) : Run (α × Nat) := fun c =>
  match m ⟨bytes, 0, c.options⟩ with
  | .ok a d => .ok (a, d.position) c
  | .error h _ => .error h c

section
variable (memory : Memory)

def record (t : Schema) : Run Value := do decodeBody memory t (← readOpening t)

def readOver (ownership : Ownership) (t : Schema) (old : Value) (c : Cursor) : Placed Value :=
  match readOpening t c with
  | .ok slots c => overwriteBodyAs memory ownership t t old slots c
  | .error h c => ⟨old, .error h c⟩

def recordAt (t : Schema) (offset : Nat) : Run (Value × Nat) := do
  let c ← get
  if c.bytes.length < offset then fail (.truncated offset c.bytes.length)
  else
    let rest ← part c.bytes offset c.bytes.length
    let (v, passed) ← onBytes rest (record memory t)
    pure (v, offset + passed)

def readEach : List Schema → Run (List Value)
  | [] => pure []
  | t :: ts => do
    let v ← record memory t
    let vs ← readEach ts
    pure (v :: vs)

def readAll (t : Schema) : (most : Nat) → Run (List Value)
  | 0 => pure []
  | most + 1 => do
    if (← remaining) = 0 then pure []
    else
      let v ← record memory t
      let vs ← readAll t most
      pure (v :: vs)

def unpack : Batch → Run (List Value)
  | .each ts => readEach memory ts
  | .all t => do readAll memory t (← remaining)

/-! ## Records of bytes -/

def run {α : Type} (options : Options) (bytes : List UInt8) (m : Run α) : Except Halt α :=
  match m ⟨bytes, 0, options⟩ with
  | .ok a _ => .ok a
  | .error h _ => .error h

def deserialize (options : Options) (t : Schema) (bytes : List UInt8) : Except Halt Value :=
  run options bytes do
    let v ← record memory t
    checkTrailing
    pure v

/-- Reads the record at an offset, and tells its value and the offset afterwards, which is the same
if there is no record. -/
def next (options : Options) (t : Schema) (bytes : List UInt8) (offset : Nat) :
    Except Halt Value × Nat :=
  match run options bytes (recordAt memory t offset) with
  | .ok (v, behind) => (.ok v, behind)
  | .error h => (.error h, offset)

def deserializeInto (options : Options) (ownership : Ownership) (t : Schema) (bytes : List UInt8)
    (old : Value) : Except Halt Unit × Value :=
  let after := (readOver memory ownership t old ⟨bytes, 0, options⟩).andThen checkTrailing
  match after.outcome with
  | .ok () _ => (.ok (), after.place)
  | .error h _ => (.error h, after.place)

def deserializeAll (options : Options) (b : Batch) (bytes : List UInt8) :
    Except Halt (List Value) :=
  run options bytes do
    let vs ← unpack memory b
    checkTrailing
    pure vs

end
end Machine
end RecordCodec
