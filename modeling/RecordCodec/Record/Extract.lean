import RecordCodec.Body.Skip
import RecordCodec.Record

/-! # Single fields of records

Locates some fields of a record without reading the others. A mandatory field behind fields of fixed
widths alone is found by its offset; behind others the reader steps over them one by one. Compatible
fields are found behind the mandatory ones by the lengths of their payloads.
-/
namespace RecordCodec

/-- Where a selected field was found: its place among the fields, and its bytes unless its slot is
empty. -/
structure Span where
  index : Nat
  bytes : Option (List UInt8)
deriving DecidableEq, Repr

structure PartialRecord where
  layout : Layout
  spans : List Span
  options : Options

namespace Extract

def wanted (layout : Layout) (selectors : List Selector) : Except Error (List Nat) :=
  selectors.mapM fun s =>
    match layout.field? s with
    | some f => .ok f.index
    | none => .error (.unknownField s.text)

def consumed (operation : Read Unit) : Read (List UInt8) := do
  let rest := (← get).rest
  let start ← Read.position
  operation
  let stop ← Read.position
  pure (rest.take (stop - start))

/-- The position `offset` bytes behind another. Positions are numbers of 64 bits: a sum past the
last of them wraps around. -/
def address (start offset : Nat) : Nat := (start + offset) % addressSpace

/-- Locates the wanted fields among the mandatory ones, for a body that begins at `start`. Fields
behind `last` are left, unless the reader is to pass them all. -/
def mandatory (wanted : List Nat) (start : Nat) (last : Option Nat) (passAll : Bool) :
    List FieldLayout → Read (List Span)
  | [] => pure []
  | f :: fs =>
    let isWanted := wanted.contains f.index
    let later := mandatory wanted start last passAll fs
    let pass : Read (List Span) := do
      let bytes ← consumed f.descriptor.skip
      let spans ← later
      pure (if isWanted then ⟨f.index, some bytes⟩ :: spans else spans)
    if !passAll && last.all (· < f.index) then pure []
    else
      match f.offset with
      | some offset =>
        -- located lazily: the next field that is passed is found by its offset
        if !isWanted && f.descriptor.fixedWidth.isSome then later
        else do
          Read.seek (address start offset)
          pass
      | none => pass

/-- Where the mandatory fields end, if they take the same number of bytes in every record: behind
the last one's offset and width. -/
def mandatoryWidth (layout : Layout) : Option Nat := do
  let last ← layout.mandatoryFields.getLast?
  pure ((← last.offset) + (← last.descriptor.fixedWidth))

/-- Passes the payloads of the filled slots, the first of `fields` having the first of `slots`, and
locates the wanted ones. -/
def filled (wanted : List Nat) :
    (slots : List Bool) → (fields : List FieldLayout) → Read (List Span)
  | [], _ => pure []
  | false :: slots, fields => filled wanted slots fields.tail
  | true :: slots, fields => do
    let bytes ← Read.take (← Read.length)
    let spans ← filled wanted slots fields.tail
    match fields.head? with
    | some f => pure (if wanted.contains f.index then ⟨f.index, some bytes⟩ :: spans else spans)
    | none => pure spans

/-- Locates the wanted fields among the compatible ones: first those with filled slots, then the
others. -/
def compatible (layout : Layout) (wanted : List Nat) (start : Nat) (slots : List Bool) :
    Read (List Span) := do
  if let some width := mandatoryWidth layout then Read.seek (address start width)
  let found ← filled wanted slots layout.compatibleFields
  let missing := layout.compatibleFields.filter fun f =>
    wanted.contains f.index && !found.any (·.index == f.index)
  pure (found ++ missing.map fun f => ⟨f.index, none⟩)

def spans (layout : Layout) (wanted : List Nat) : Read (List Span) := do
  let slots ← Record.readHeader layout
  let start ← Read.position
  let last :=
    ((layout.mandatoryFields.filter fun f => wanted.contains f.index).map (·.index)).getLast?
  let wantsCompatible := layout.compatibleFields.any fun f => wanted.contains f.index
  let located ← mandatory wanted start last wantsCompatible layout.mandatoryFields
  if wantsCompatible then
    pure (located ++ (← compatible layout wanted start slots.presence.slots))
  else pure located

end Extract

def Record.extract (options : Options) (t : Schema) (bytes : List UInt8)
    (selectors : List Selector) : Except Error PartialRecord := do
  let layout ← Layout.of t
  let wanted ← Extract.wanted layout selectors
  let spans ← Record.run options bytes (Extract.spans layout wanted)
  pure ⟨layout, spans, options⟩

namespace PartialRecord

def span (p : PartialRecord) (s : Selector) :
    Except Error (FieldLayout × Option (List UInt8)) :=
  match p.layout.field? s with
  | none => .error (.unknownField s.text)
  | some f =>
    match p.spans.find? (·.index == f.index) with
    | some span => .ok (f, span.bytes)
    | none => .error (.unknownField (s.text ++ " (not selected)"))

def isPresent (p : PartialRecord) (s : Selector) : Except Error Bool :=
  (·.2.isSome) <$> p.span s

def raw (p : PartialRecord) (s : Selector) : Except Error (Option (List UInt8)) :=
  (·.2) <$> p.span s

def readAll {α : Type} (p : PartialRecord) (s : Selector) (bytes : List UInt8) (item : Read α) :
    Except Error α :=
  Record.run p.options bytes do
    let a ← item
    let left ← Read.remaining
    if left = 0 then pure a else Read.fault (.undecoded s.text left)

def bytesIf (p : PartialRecord) (s : Selector) (asked : FieldLayout → Except Error Bool) :
    Except Error (List UInt8) := do
  let (f, bytes) ← p.span s
  if !(← asked f) then throw (.fieldShapeMismatch s.text)
  match bytes with
  | some bytes => pure bytes
  | none => throw (.fieldAbsent s.text)

/-- The value of a selected field, under a schema with the same literal as the field's. -/
def get (p : PartialRecord) (s : Selector) (t : Schema) : Except Error Value := do
  let bytes ← p.bytesIf s fun f => do pure ((← t.descriptor).literal == f.literal)
  p.readAll s bytes t.decode

def getBytes (p : PartialRecord) (s : Selector) : Except Error (List UInt8) := do
  let bytes ← p.bytesIf s fun f =>
    match f.descriptor with
    | .sequence (.scalar .u8) => pure true
    | _ => pure false
  p.readAll s bytes Read.byteString

def getText (p : PartialRecord) (s : Selector) : Except Error String := do
  let bytes ← p.bytesIf s fun f =>
    match f.descriptor with
    | .text => pure true
    | _ => pure false
  let contents ← p.readAll s bytes Read.byteString
  match Text.Utf8.decode contents with
  | .ok text => pure text
  | .error f => throw (.invalidData (.fieldText s.text f.message))

end PartialRecord

def Record.getField (options : Options) (t field : Schema) (bytes : List UInt8) (s : Selector) :
    Except Error Value := do
  let p ← Record.extract options t bytes [s]
  p.get s field

end RecordCodec
