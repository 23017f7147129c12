import RecordCodec.Record

/-! # Records in a row

Records carry their own ends, so that many of them stand behind each other without anything between.
A batch says under which schemas they are written: one schema for each record, or one for all.
-/
namespace RecordCodec

inductive Batch where
  | each (schemas : List Schema)
  | all (schema : Schema)

namespace Batch

def assign : Batch → List Value → List (Schema × Value)
  | each ts, vs => ts.zip vs
  | all t, vs => vs.map (t, ·)

/-- Writes records behind the bytes of a buffer, up to the first that cannot be written, and tells
what the buffer holds. -/
def appendAll : List (Schema × Value) → List UInt8 → Except Error Unit × List UInt8
  | [], buffer => (.ok (), buffer)
  | (t, v) :: rest, buffer =>
    match Record.append t v buffer with
    | (.ok _, buffer) => appendAll rest buffer
    | (.error e, buffer) => (.error e, buffer)

def append (b : Batch) (vs : List Value) (buffer : List UInt8) : Except Error Unit × List UInt8 :=
  appendAll (b.assign vs) buffer

def serialize (b : Batch) (vs : List Value) : Except Error (List UInt8) :=
  match b.append vs [] with
  | (.ok (), buffer) => .ok buffer
  | (.error e, _) => .error e

def readEach : List Schema → Read (List Value)
  | [] => pure []
  | t :: ts => do
    let v ← Record.read t
    let vs ← readEach ts
    pure (v :: vs)

def readAll (t : Schema) : (most : Nat) → Read (List Value)
  | 0 => pure []
  | most + 1 => do
    if (← Read.remaining) = 0 then pure []
    else
      let v ← Record.read t
      let vs ← readAll t most
      pure (v :: vs)

/-- Reads records in a row. A record has at least one byte, so there are no more records than
bytes. -/
def read : Batch → Read (List Value)
  | each ts => readEach ts
  | all t => do readAll t (← Read.remaining)

def deserialize (options : Options) (b : Batch) (bytes : List UInt8) : Except Error (List Value) :=
  Record.run options bytes do
    let vs ← b.read
    Record.checkTrailing
    pure vs

end Batch
end RecordCodec
