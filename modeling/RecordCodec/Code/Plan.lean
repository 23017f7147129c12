import RecordCodec.Code.ItemParser

/-! # What generated code does

The plans of the three pieces of code that are generated for an item: its description, its writing
and its reading. A plan says which fields each method names, in which order; how that is spelled is
left to the rendering. A struct's fields are described, written and read in the order of their
declaration, but for those that are marked to be skipped, which get their default when a value is
made.
-/
namespace RecordCodec.Code

inductive Member where
  | word (word : String)
  | position (index : Nat)
deriving DecidableEq, Repr

structure CodecField where
  member : Member
  name : String
  /-- The name under which an alternative's pattern binds the field. -/
  binding : String
  type : List Token
  isSkipped : Bool
deriving Repr

namespace Skip

def attributeName : String := "wirepack"

def argumentPath : (most : Nat) → Parse (List String)
  | 0 => pure []
  | most + 1 => do
    match ← Parse.peek with
    | some (.word w) =>
      let _ ← Parse.advance
      if (← Parse.optionalOperator "::").isEmpty then pure [w]
      else if ← Parse.next (fun t => match t with | .word _ => true | _ => false) then
        pure (w :: (← argumentPath most))
      else Parse.expected ["ident"]
    | none => Parse.expected ["nested attribute"]
    | some _ => throw (.argumentKind (if ← Parse.nextLiteral then "literal" else "token"))

/-- Takes the arguments of the attribute, each of which must be the mark to skip; tells whether
there is one. -/
def arguments : (most : Nat) → Parse Bool
  | 0 => pure false
  | most + 1 => do
    if ← Parse.atEnd then pure false
    else
      let root ← Parse.optionalOperator "::"
      let path ← argumentPath (← Parse.enough)
      if !root.isEmpty || path != ["skip"] then throw .unknownArgument
      if !(← Parse.atEnd) then
        let _ ← Parse.operator ","
      let _ ← arguments most
      pure true

def marks (a : Attribute) : Except SyntaxError Bool :=
  if a.isNamed attributeName then
    match a.tail with
    | .none => .error (.missingArguments attributeName)
    | .value _ => .error (.valueForArguments attributeName)
    | .arguments _ tokens => Parse.takeAll (arguments (tokens.length + 1)) tokens
  else .ok false

end Skip

/-- The fields of a struct or an alternative as generated code sees them, from place `index` on. -/
def CodecField.ofItems (index : Nat) : List FieldItem → Except SyntaxError (List CodecField)
  | [] => .ok []
  | f :: fs => do
    let marked ← f.attributes.mapM Skip.marks
    let member :=
      match f.word with
      | some w => Member.word w
      | none => .position index
    let name :=
      match f.word with
      | some w => plainName w
      | none => toString index
    let rest ← ofItems (index + 1) fs
    pure (⟨member, name, s!"__field_{index}", f.type, marked.any id⟩ :: rest)

def CodecField.held (fields : List CodecField) : List CodecField := fields.filter (!·.isSkipped)

structure Construction where
  style : Style
  fields : List CodecField
deriving Repr

inductive DescriptionPlan where
  | aggregate (fields : List CodecField)
  | variant (alternatives : List (String × List CodecField))
deriving Repr

/-- What a method that writes a struct does: it marks the slots of some fields in the presence
bitmap, and writes some fields. -/
structure StructWriting where
  marked : List CodecField
  written : List CodecField
deriving Repr

structure AlternativeWriting where
  word : String
  pattern : Construction
  discriminant : Nat
  count : Nat
  written : List CodecField
deriving Repr

inductive WritingPlan where
  /-- The methods for a struct inside another value, and for an outermost one. -/
  | struct (nested outermost : StructWriting)
  | enum (alternatives : List AlternativeWriting)
deriving Repr

structure AlternativeReading where
  word : String
  discriminant : Nat
  construction : Construction
deriving Repr

inductive ReadingPlan where
  /-- The fields that are made into a value, and those that are read over an old value. -/
  | struct (construction : Construction) (overwritten : List CodecField)
  | enum (label : String) (count : Nat) (alternatives : List AlternativeReading)
deriving Repr

def alternativeFields (index : Nat) :
    List AlternativeItem → Except SyntaxError (List (Nat × AlternativeItem × List CodecField))
  | [] => .ok []
  | a :: as => do
    let fields ← CodecField.ofItems 0 a.fields.fields
    let rest ← alternativeFields (index + 1) as
    pure ((index, a, fields) :: rest)

namespace Item

def describing (item : Item) : Except SyntaxError DescriptionPlan :=
  match item.body with
  | .struct fields => do
    pure (.aggregate (CodecField.held (← CodecField.ofItems 0 fields.fields)))
  | .enum alternatives => do
    let found ← alternativeFields 0 alternatives
    pure (.variant (found.map fun (_, a, fields) => (plainName a.word, CodecField.held fields)))
  | .union => .error (.union "Shape" "")

def writing (item : Item) : Except SyntaxError WritingPlan :=
  match item.body with
  | .struct fields => do
    let held := CodecField.held (← CodecField.ofItems 0 fields.fields)
    pure (.struct ⟨held, held⟩ ⟨held, held⟩)
  | .enum alternatives => do
    let found ← alternativeFields 0 alternatives
    pure (.enum (found.map fun (index, a, fields) =>
      ⟨a.word, ⟨a.fields.style, fields⟩, index, alternatives.length, CodecField.held fields⟩))
  | .union => .error (.union "Encode" " due to memory safety concerns")

def reading (item : Item) : Except SyntaxError ReadingPlan :=
  match item.body with
  | .struct fields => do
    let all ← CodecField.ofItems 0 fields.fields
    pure (.struct ⟨fields.style, all⟩ (CodecField.held all))
  | .enum alternatives => do
    let found ← alternativeFields 0 alternatives
    pure (.enum item.word alternatives.length (found.map fun (index, a, fields) =>
      ⟨a.word, index, ⟨a.fields.style, fields⟩⟩))
  | .union => .error (.union "Decode" " due to memory safety concerns")

end Item
end RecordCodec.Code
