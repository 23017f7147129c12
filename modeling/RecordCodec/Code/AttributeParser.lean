import RecordCodec.Code.PathParser

/-! # Attributes

Attributes before an item, a field or a parameter. How a value is taken is told by the caller: a
value is an expression.
-/
namespace RecordCodec.Code.Parse

/-- Takes the value of an attribute: a literal and nothing else, or an expression. -/
def attributeValue (expression : Parse (List Token)) : Parse (List Token) := do
  let before ← get
  let literal ← optionalLiteral
  if !literal.isEmpty && (← atEnd) then pure literal
  else
    set before
    match ← tokens with
    | .operator "#" :: .group .brackets _ :: _ => throw .attributeInAttribute
    | _ => expression

def attributeContents (expression : Parse (List Token)) : Parse Attribute := do
  let unsafety ← optionalWord "unsafe"
  let root ← if unsafety.isEmpty then optionalOperator "::" else pure []
  let path ← if unsafety.isEmpty then modulePath (← enough) else pure ["unsafe"]
  if path.isEmpty then
    let _ ← identifier
  let tail ←
    match ← peek with
    | some (.group d arguments) =>
      let _ ← advance
      pure (AttributeTail.arguments d arguments)
    | _ =>
      if (← nextOperator "=") && !(← nextOperator "==") && !(← nextOperator "=>") then
        let _ ← operator "="
        pure (AttributeTail.value (← attributeValue expression))
      else pure AttributeTail.none
  pure ⟨!root.isEmpty, path, tail⟩

def attributesUpTo (expression : Parse (List Token)) : (most : Nat) → Parse (List Attribute)
  | 0 => pure []
  | most + 1 => do
    if (← optionalOperator "#").isEmpty then pure []
    else
      let contents ← group .brackets
      let a ← within .brackets contents (attributeContents expression)
      pure (a :: (← attributesUpTo expression most))

def attributesWith (expression : Parse (List Token)) : Parse (List Attribute) := do
  attributesUpTo expression (← enough)

end RecordCodec.Code.Parse
