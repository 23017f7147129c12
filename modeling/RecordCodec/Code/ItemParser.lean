import RecordCodec.Code.TypeParser

/-! # Items from tokens

Reads the item that tokens are: its attributes, its visibility, its generic parameters and their
conditions, and its fields.
-/
namespace RecordCodec.Code

namespace Parse

def attributes : Parse (List Attribute) := attributesWith anyExpression

def visibility : Parse Unit := do
  let keyword ← optionalWord "pub"
  if !keyword.isEmpty then
    match (← peek).bind (·.contents? .parentheses) with
    | some (.word "in" :: inner) =>
      let _ ← advance
      within .parentheses inner do
        let _ ← optionalOperator "::"
        if (← modulePath (← enough)).isEmpty then
          let _ ← identifier
    | some [.word w] => if ["crate", "self", "super"].contains w then let _ ← advance
    | _ => pure ()

/-- Whether the type of a field without a name is written down in its place. -/
def bodyFollows : Parse Bool := do
  match ← tokens with
  | t :: u :: _ => pure (t.isWord "struct" || (t.isWord "union" && isGroup .braces u))
  | ts => pure (ts.any (·.isWord "struct"))

/-- Takes a field with a name, where fields nest at most `depth` deep. A field whose name is a blank
may have the fields of its type in its place. -/
def namedField : (depth : Nat) → Parse FieldItem
  | 0 => expected ["identifier"]
  | depth + 1 => do
    let attributes ← attributes
    visibility
    let isBlank ← nextWord "_"
    let word ← if isBlank then do let _ ← advance; pure "_" else identifier
    let _ ← operator ":"
    if isBlank && (← bodyFollows) then
      let keyword ← advance
      let contents ← group .braces
      let _ ← within .braces contents (commaSeparated (namedField depth))
      pure ⟨attributes, some word, keyword ++ [Token.group .braces contents]⟩
    else pure ⟨attributes, some word, ← anyType⟩

def positionalField : Parse FieldItem := do
  let attributes ← attributes
  visibility
  pure ⟨attributes, none, ← anyType⟩

def namedFields : Parse FieldItems := do
  let contents ← group .braces
  let fields ← within .braces contents do commaSeparated (namedField (← enough))
  pure ⟨.named, fields⟩

def positionalFields : Parse FieldItems := do
  let contents ← group .parentheses
  let fields ← within .parentheses contents (commaSeparated positionalField)
  pure ⟨.positional, fields⟩

def alternative : Parse AlternativeItem := do
  let _ ← attributes
  visibility
  let word ← identifier
  let fields ←
    if ← next (isGroup .braces) then namedFields
    else if ← next (isGroup .parentheses) then positionalFields
    else pure ⟨.unit, []⟩
  if !(← optionalOperator "=").isEmpty then
    let _ ← anyExpression
  pure ⟨word, fields⟩

def generics : Parse (List GenericParameter) := do
  if (← optionalOperator "<").isEmpty then pure []
  else
    let found ← listed anyParameter angleEnds (← enough)
    let _ ← operator ">"
    pure (found.map fun (p, comma) => { p with hasComma := comma })

def conditionEnds : Parse Bool := do
  pure ((← atEnd) || (← next (isGroup .braces)) || (← nextOperator ",") || (← nextOperator ";") ||
    ((← nextOperator ":") && !(← nextOperator "::")) || (← nextOperator "="))

def lifetimeConditionEnds : Parse Bool := do pure ((← conditionEnds) || (← nextOperator ":"))

def condition : Parse (List Token) := do
  let isLifetimeCondition ← do
    match ← tokens with
    | .lifetime _ :: t :: _ => pure (t.behind? ":").isSome
    | _ => pure false
  if isLifetimeCondition then
    let name ← lifetime
    let colon ← operator ":"
    pure (name ++ colon ++ (← summed lifetime lifetimeConditionEnds (← enough)))
  else
    let binder ← anyBinder
    let subject ← anyType
    let colon ← operator ":"
    pure (binder ++ subject ++ colon ++ (← bounds conditionEnds))

/-- Whether generic parameters are next, and not a path that begins with a type in angle
brackets. -/
def parametersFollow : Parse Bool := do
  match Token.characters (← tokens) with
  | .operator "<" :: t :: rest =>
    let endsName : Bool :=
      match rest with
      | .operator ":" :: .operator ":" :: _ => false
      | .operator s :: _ => [">", ",", ":", "="].contains s
      | _ => false
    let isMark : Bool :=
      match t with
      | .operator s => s == ">" || s == "#"
      | t => t.isWord "const"
    pure (isMark || ((isLifetime t || isIdentifier t) && endsName))
  | _ => pure false

/-- Takes conditions with commas between them, and tells whether a comma ends them; at most `most`
of them. -/
def conditionsUpTo : (most : Nat) → Parse (List (List Token) × Bool)
  | 0 => pure ([], false)
  | most + 1 => do
    if ← conditionEnds then pure ([], true)
    else
      let first ← condition
      if (← optionalOperator ",").isEmpty then pure ([first], false)
      else
        let (more, comma) ← conditionsUpTo most
        pure (first :: more, comma)

def conditions : Parse (List (List Token) × Bool) := do
  if (← optionalWord "where").isEmpty then pure ([], false)
  else
    if ← parametersFollow then throw .conditionParameters
    let (found, comma) ← conditionsUpTo (← enough)
    pure (found, comma && !found.isEmpty)

def structBody : Parse (FieldItems × List (List Token) × Bool) := do
  let hasConditions ← nextWord "where"
  let before ← conditions
  if !hasConditions && (← next (isGroup .parentheses)) then
    let fields ← positionalFields
    let hasConditions ← nextWord "where"
    let after ← conditions
    if (← optionalOperator ";").isEmpty then
      expected (if hasConditions then ["`;`"] else ["`where`", "`;`"])
    pure (fields, after)
  else if ← next (isGroup .braces) then pure (← namedFields, before)
  else if (← optionalOperator ";").isEmpty then
    expected
      (if hasConditions then ["curly braces", "`;`"]
      else ["`where`", "parentheses", "curly braces", "`;`"])
  else pure (⟨.unit, []⟩, before)

def item : Parse Item := do
  let _ ← attributes
  visibility
  match ← peek with
  | some (.word "struct") =>
    let _ ← advance
    let word ← identifier
    let parameters ← generics
    let (fields, found, comma) ← structBody
    pure ⟨word, ⟨parameters, found, comma⟩, .struct fields⟩
  | some (.word "enum") =>
    let _ ← advance
    let word ← identifier
    let parameters ← generics
    let (found, comma) ← conditions
    let contents ← group .braces
    let alternatives ← within .braces contents (commaSeparated alternative)
    pure ⟨word, ⟨parameters, found, comma⟩, .enum alternatives⟩
  | some (.word "union") =>
    let _ ← advance
    let word ← identifier
    let parameters ← generics
    let (found, comma) ← conditions
    let _ ← namedFields
    pure ⟨word, ⟨parameters, found, comma⟩, .union⟩
  | _ => expected ["`struct`", "`enum`", "`union`"]

end Parse

def Item.parse (tokens : List Token) : Except SyntaxError Item := Parse.takeAll Parse.item tokens

end RecordCodec.Code
