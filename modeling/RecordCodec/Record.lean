import RecordCodec.Body.Encode
import RecordCodec.Body.Overwrite
import RecordCodec.Layout

/-! # Records

A record is a header and the body of a value. The header holds the signature of the schema under
which the value was written; a reader with another signature rejects the record, so that a body is
only read under a schema whose mandatory parts agree.
-/
namespace RecordCodec
namespace Record

def emissions (t : Schema) (v : Value) : Except Error (List Emission) := do
  let layout ← Layout.of t
  pure (.nat Header.width layout.header.raw :: (← t.encodeBody v))

def serialize (t : Schema) (v : Value) : Except Error (List UInt8) :=
  Emission.allBytes <$> emissions t v

def size (t : Schema) (v : Value) : Except Error Nat := Emission.totalSize <$> emissions t v

def outcome (write : EStateM Error Sink Unit) (sink : Sink) : Except Error Unit × Sink :=
  match write sink with
  | .ok () after => (.ok (), after)
  | .error e after => (.error e, after)

def append (t : Schema) (v : Value) (buffer : List UInt8) : Except Error Nat × List UInt8 :=
  match emissions t v with
  | .error e => (.error e, buffer)
  | .ok es =>
    match outcome (Sink.emitAll es) (.buffer buffer) with
    | (.ok (), sink) => (.ok (sink.contents.length - buffer.length), sink.contents)
    | (.error e, _) => (.error e, buffer)

def serializeWithOffset (t : Schema) (v : Value) (offset : Nat) : Except Error (List UInt8) :=
  match append t v (List.replicate offset 0) with
  | (.ok _, buffer) => .ok buffer
  | (.error e, _) => .error e

/-- Writes a record into the front of a region, which must have room for all of it, and tells how
many bytes it has and what the region holds. -/
def writeTo (t : Schema) (v : Value) (region : List UInt8) : Except Error Nat × List UInt8 :=
  match size t v, emissions t v with
  | .ok required, .ok es =>
    if region.length < required then (.error (.capacity required region.length), region)
    else
      match outcome (Sink.emitAll es) (.region region 0) with
      | (.ok (), .region contents written) => (.ok written, contents)
      | (.ok (), sink) => (.ok required, sink.contents)
      | (.error e, sink) => (.error e, sink.contents)
  | .error e, _ | _, .error e => (.error e, region)

/-- Reads the header of a record and, if it announces one, the presence bitmap. -/
def readHeader (layout : Layout) : Read Slots := do
  let header := Header.ofRaw (← Read.nat Header.width)
  if header.signature ≠ layout.signature then
    throw (.schemaMismatch layout.signature header.signature)
  if header.announcesBitmap then
    if layout.isAggregate then pure { presence := ← Presence.read }
    else Read.fault (.announcement layout.typeName)
  else pure {}

def layout (t : Schema) : Read Layout :=
  match Layout.of t with
  | .ok l => pure l
  | .error e => throw e

def read (t : Schema) : Read Value := do
  let slots ← readHeader (← layout t)
  t.decodeBody slots

/-- Fails on bytes that are left, unless the options ignore them. -/
def checkTrailing : Read Unit := do
  let count ← Read.remaining
  if (← Read.options).trailing == .reject && count > 0 then throw (.trailingBytes count)

def run {α : Type} (options : Options) (bytes : List UInt8) (operation : Read α) : Except Error α :=
  match operation (.ofBytes options bytes) with
  | .ok a _ => .ok a
  | .error e _ => .error e

def deserialize (options : Options) (t : Schema) (bytes : List UInt8) : Except Error Value :=
  run options bytes do
    let v ← read t
    checkTrailing
    pure v

def deserializeInto (options : Options) (ownership : Ownership) (t : Schema) (bytes : List UInt8)
    (old : Value) : Except Error Unit × Value :=
  match (do readHeader (← layout t)) (.ofBytes options bytes) with
  | .error e _ => (.error e, old)
  | .ok slots r =>
    let after := (t.overwriteBody ownership old slots r).andThen checkTrailing
    match after.outcome with
    | .ok () _ => (.ok (), after.place)
    | .error e _ => (.error e, after.place)

def deserializeAt (options : Options) (t : Schema) (bytes : List UInt8) (offset : Nat) :
    Except Error (Value × Nat) :=
  if bytes.length < offset then .error (.truncated offset bytes.length)
  else
    match read t (.ofBytes options (bytes.drop offset)) with
    | .ok v r => .ok (v, offset + r.position)
    | .error e _ => .error e

/-- Reads the record at an offset, and tells its value and the offset afterwards: the one behind the
record, or the same where there is none. -/
def next (options : Options) (t : Schema) (bytes : List UInt8) (offset : Nat) :
    Except Error Value × Nat :=
  match deserializeAt options t bytes offset with
  | .ok (v, behind) => (.ok v, behind)
  | .error e => (.error e, offset)

end Record
end RecordCodec
