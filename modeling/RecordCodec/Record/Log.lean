import RecordCodec.Record.Batch
import RecordCodec.Record.Extract

/-! # What operations report

Operations report to a log what an operator may want to know: a record written under another
signature, a region that is too small, the fields that were located, a layout that was planned. The
entries are told from what went in and what came out.
-/
namespace RecordCodec

inductive LogLevel where
  | debug
  | trace
deriving DecidableEq, Repr

def LogLevel.name : LogLevel → String
  | debug => "DEBUG"
  | trace => "TRACE"

inductive LogKind where
  | event
  /-- The start of an operation that further entries belong to. -/
  | span
deriving DecidableEq, Repr

def LogKind.name : LogKind → String
  | event => "event"
  | span => "span"

structure LogEntry where
  kind : LogKind
  level : LogLevel
  text : String
  fields : List (String × String)
deriving DecidableEq, Repr

namespace Log

def signatureMismatch (typeName : String) (expected found : Signature) : LogEntry :=
  ⟨.event, .debug, "signature mismatch",
    [("type_name", typeName), ("expected", expected.text), ("found", found.text)]⟩

def regionTooSmall (typeName : String) (required available : Nat) : LogEntry :=
  ⟨.event, .debug, "output region too small",
    [("type_name", typeName), ("required", toString required), ("capacity", toString available)]⟩

def extraction (typeName : String) (selected : Nat) : LogEntry :=
  ⟨.span, .trace, "deserialize_partial",
    [("type_name", typeName), ("selected", toString selected)]⟩

def located (extracted : Nat) : LogEntry :=
  ⟨.event, .trace, "located selected fields", [("extracted", toString extracted)]⟩

def planned (l : Layout) : LogEntry :=
  let fixedSize :=
    match l.fixedSize with
    | some n => s!"Some({n})"
    | none => "None"
  ⟨.event, .debug, "planned layout",
    [("type_name", l.typeName), ("signature", l.signature.text),
      ("mandatory", toString l.mandatoryFields.length),
      ("compatible", toString l.compatibleFields.length), ("fixed_size", fixedSize)]⟩

def ofRead {α : Type} (t : Schema) : Except Error α → List LogEntry
  | .error (.schemaMismatch expected found) => [signatureMismatch t.name expected found]
  | _ => []

/-- What the reading of records reports, each under its schema, up to the first that fails. -/
def ofReadEach : List Schema → Reader → List LogEntry
  | [], _ => []
  | t :: ts, r =>
    match Record.read t r with
    | .ok _ r => ofReadEach ts r
    | .error e _ => ofRead (α := Unit) t (.error e)

def ofReadBatch (options : Options) (b : Batch) (bytes : List UInt8) : List LogEntry :=
  match b with
  | .each ts => ofReadEach ts (.ofBytes options bytes)
  | .all t => ofRead t (b.deserialize options bytes)

def ofWriteTo {α : Type} (t : Schema) : Except Error α → List LogEntry
  | .error (.capacity required available) => [regionTooSmall t.name required available]
  | _ => []

def ofExtract (t : Schema) (selectors : List Selector) (outcome : Except Error PartialRecord) :
    List LogEntry :=
  extraction t.name selectors.length ::
    match outcome with
    | .ok p => [located p.spans.length]
    | .error e => ofRead (α := Unit) t (.error e)

def ofLayout : Except Error Layout → List LogEntry
  | .ok l => [planned l]
  | .error _ => []

end Log
end RecordCodec
