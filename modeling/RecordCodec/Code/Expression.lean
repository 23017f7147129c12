import RecordCodec.Code.AttributeParser

/-! # Expressions as far as they are taken

An expression is taken as its tokens and the way it is written, on which depends what may follow.
How the parts of an expression are taken is given to the operations: expressions, patterns and
statements are made of each other.
-/
namespace RecordCodec.Code

/-- The ways in which an expression is written, as far as what may follow depends on them. -/
inductive ExpressionForm where
  /-- A block, a loop or a choice, which is a statement as it stands. -/
  | block
  | braced
  | range
  | comparison
  | other
deriving DecidableEq, Repr

structure ExpressionTokens where
  tokens : List Token
  form : ExpressionForm := .other

/-- How the parts of an expression are taken. Braces behind a path hold the fields of a value only
if `fields`, and otherwise a block that follows. -/
structure ExpressionRules where
  types : TypeRules
  expression : (fields : Bool) → Parse ExpressionTokens
  operand : (fields : Bool) → Parse ExpressionTokens
  /-- Takes an expression in the place of a statement: it ends behind a block. -/
  statement : Parse ExpressionTokens

namespace ExpressionRules
open Parse

def value (rules : ExpressionRules) : Parse (List Token) :=
  ExpressionTokens.tokens <$> rules.expression true

def attributes (rules : ExpressionRules) : Parse (List Token) := do
  pure ((← attributesWith rules.value).flatMap Attribute.tokens)

def innerAttributesUpTo (rules : ExpressionRules) : (most : Nat) → Parse (List Token)
  | 0 => pure []
  | most + 1 => do
    if (← nextOperator "#") && (← second (Token.begins "!")) then
      let hash ← operator "#"
      let mark ← operator "!"
      let contents ← group .brackets
      let a ← within .brackets contents (attributeContents rules.value)
      pure (hash ++ mark ++ a.tokens.drop 1 ++ (← rules.innerAttributesUpTo most))
    else pure []

def innerAttributes (rules : ExpressionRules) : Parse (List Token) := do
  rules.innerAttributesUpTo (← enough)

end ExpressionRules
end RecordCodec.Code
