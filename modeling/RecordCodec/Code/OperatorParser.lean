import RecordCodec.Code.Expression

/-! # Operators between operands

Operators with the precedence by which they bind their operands. A range is bound by no other
operator on its left, and a comparison by no other comparison.
-/
namespace RecordCodec.Code

inductive Precedence where
  | any
  | assignment
  | range
  | or
  | and
  | comparison
  | bitOr
  | bitXor
  | bitAnd
  | shift
  | sum
  | product
  | cast
deriving DecidableEq, Repr

namespace Precedence

/-- The place of a precedence in their order; tighter ones come later. -/
def rank : Precedence → Nat
  | any => 0
  | assignment => 1
  | range => 2
  | or => 3
  | and => 4
  | comparison => 5
  | bitOr => 6
  | bitXor => 7
  | bitAnd => 8
  | shift => 9
  | sum => 10
  | product => 11
  | cast => 12

/-- The operators between two operands with their precedence; one that begins with another comes
first. -/
def operators : List (String × Precedence) :=
  [("+=", assignment), ("-=", assignment), ("*=", assignment), ("/=", assignment),
    ("%=", assignment), ("^=", assignment), ("&=", assignment), ("|=", assignment),
    ("<<=", assignment), (">>=", assignment), ("&&", and), ("||", or), ("<<", shift),
    (">>", shift), ("==", comparison), ("<=", comparison), ("!=", comparison),
    (">=", comparison), ("+", sum), ("-", sum), ("*", product), ("/", product), ("%", product),
    ("^", bitXor), ("&", bitAnd), ("|", bitOr), ("<", comparison), (">", comparison)]

end Precedence

namespace Parse

def nextBinary : Parse (Option (String × Precedence)) := do
  let t ← peek
  pure (Precedence.operators.find? fun (s, _) => t.any (Token.begins s))

def nextAssignment : Parse Bool := do
  pure ((← nextOperator "=") && !(← nextOperator "=>") && !(← nextOperator "=="))

def nextPrecedence : Parse Precedence := do
  match ← nextBinary with
  | some (_, p) => pure p
  | none =>
    if ← nextAssignment then pure .assignment
    else if ← nextOperator ".." then pure .range
    else if ← nextWord "as" then pure .cast
    else pure .any

def rangeEnds (fields : Bool) : Parse Bool := do
  let ends (t : Token) : Bool :=
    [",", ";", "?", "=", "+", "/", "%", "^", ">", "<=", "!=", "-=", "*=", "&=", "|=",
      "<<="].any t.begins || (t.begins "." && !t.begins "..") || t.isWord "as" ||
      (!fields && isGroup .braces t)
  pure ((← atEnd) || (← next ends))

def rangeOperator : Parse (List Token × Bool) := do
  let closed ← optionalOperator "..="
  if !closed.isEmpty then pure (closed, true)
  else if ← nextOperator "..." then expected ["`..=`"]
  else pure (← operator "..", false)

/-- What stands behind a cast and would need parentheses around it, if something does. -/
def afterCast? : Parse (Option String) := do
  let isCall (t : Token) : Bool := isGroup .parentheses t || t.begins "::"
  if (← nextOperator ".") && !(← nextOperator "..") then
    if ← second (·.isWord "await") then pure (some "`.await`")
    else if (← second isIdentifier) && (← third isCall) then pure (some "a method call")
    else pure (some "a field access")
  else if ← nextOperator "?" then pure (some "`?`")
  else if ← next (isGroup .brackets) then pure (some "indexing")
  else if ← next (isGroup .parentheses) then pure (some "a function call")
  else pure none

def cast (rules : ExpressionRules) : Parse (List Token) := do
  let keyword ← word "as"
  let type ← rules.types.type false
  match ← afterCast? with
  | some what => throw (.afterCast what)
  | none => pure (keyword ++ type)

mutual

/-- Takes operators that bind at least as tightly as `base` and their operands, behind an
expression; at most `most` of them. -/
def operationsUpTo (rules : ExpressionRules) (fields : Bool) :
    (most : Nat) → (base : Precedence) → ExpressionTokens → Parse ExpressionTokens
  | 0, _, left => pure left
  | most + 1, base, left => do
    if left.form = .range then pure left
    else
      match ← nextBinary with
      | some (name, p) =>
        if p.rank < base.rank then pure left
        else
          if p = .comparison && left.form = .comparison then throw .chainedComparison
          let mark ← operator name
          let right ← rightOperand rules fields most p
          let form : ExpressionForm := if p = .comparison then .comparison else .other
          operationsUpTo rules fields most base ⟨left.tokens ++ mark ++ right.tokens, form⟩
      | none =>
        if base.rank ≤ Precedence.assignment.rank && (← nextAssignment) then
          let mark ← operator "="
          let right ← rightOperand rules fields most .assignment
          operationsUpTo rules fields most base ⟨left.tokens ++ mark ++ right.tokens, .other⟩
        else if base.rank ≤ Precedence.range.rank && (← nextOperator "..") then
          let (dots, needsEnd) ← rangeOperator
          let right ←
            if !needsEnd && (← rangeEnds fields) then pure []
            else ExpressionTokens.tokens <$> rightOperand rules fields most .range
          operationsUpTo rules fields most base ⟨left.tokens ++ dots ++ right, .range⟩
        else if base.rank ≤ Precedence.cast.rank && (← nextWord "as") then
          operationsUpTo rules fields most base ⟨left.tokens ++ (← cast rules), .other⟩
        else pure left
termination_by structural most => most

def rightOperand (rules : ExpressionRules) (fields : Bool) :
    (most : Nat) → Precedence → Parse ExpressionTokens
  | 0, _ => rules.operand fields
  | most + 1, p => do extendRight rules fields most p (← rules.operand fields)
termination_by structural most => most

/-- Takes operators behind a right operand as long as they bind it more tightly. -/
def extendRight (rules : ExpressionRules) (fields : Bool) :
    (most : Nat) → Precedence → ExpressionTokens → Parse ExpressionTokens
  | 0, _, right => pure right
  | most + 1, p, right => do
    let following ← nextPrecedence
    let binds := p.rank < following.rank || (following = p && p = .assignment)
    if !binds || right.form = .range then pure right
    else extendRight rules fields most p (← operationsUpTo rules fields most following right)
termination_by structural most => most

end

def operations (rules : ExpressionRules) (fields : Bool) (base : Precedence)
    (left : ExpressionTokens) : Parse ExpressionTokens := do
  operationsUpTo rules fields (4 * (← enough)) base left

end Parse
end RecordCodec.Code
