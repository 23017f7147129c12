import RecordCodec.Code.Parse

/-! # Paths

Names with separators between them, which may have arguments in angle brackets. The rules for types,
which arguments need, are given to the operations: types are made of paths themselves.
-/
namespace RecordCodec.Code

/-- Arguments in angle brackets; no tokens, if there are none. -/
structure ArgumentTokens where
  tokens : List Token := []
  isEmpty : Bool := true

structure PathTokens where
  names : List Token
  arguments : List Token
  isPlain : Bool
  /-- Whether the last name has no arguments, or none between their brackets. -/
  isBare : Bool
  isName : Bool

def PathTokens.tokens (p : PathTokens) : List Token := p.names ++ p.arguments

def PathTokens.push (p : PathTokens) (separator name : List Token) (a : ArgumentTokens) :
    PathTokens :=
  ⟨p.tokens ++ separator ++ name, a.tokens, p.isPlain && a.tokens.isEmpty, a.isEmpty, false⟩

structure TypeRules where
  type : (sums : Bool) → Parse (List Token)
  arguments : Parse ArgumentTokens
  binder : Parse (List Token)

namespace Parse

def separatorThen (p : Token → Bool) : Parse Bool := do
  match ← tokens with
  | t :: u :: _ =>
    match t.behind? "::" with
    | some [] => pure (p u)
    | some (v :: _) => pure (p v)
    | none => pure false
  | [t] => pure (((t.behind? "::").getD []).any p)
  | [] => pure false

def modulePath : (most : Nat) → Parse (List String)
  | 0 => pure []
  | most + 1 => do
    if ← next isPathWord then
      match ← advance with
      | [.word w] =>
        if (← optionalOperator "::").isEmpty then pure [w]
        else
          let more ← modulePath most
          if more.isEmpty then expected ["path segment after `::`"] else pure (w :: more)
      | _ => pure []
    else pure []

def argumentlessWords : List String := ["super", "self", "crate", "try"]

/-- Takes a name of a path and its arguments, which an expression has behind a separator only. -/
def segment (rules : TypeRules) (inExpression : Bool) : Parse (List Token × ArgumentTokens) := do
  if ← next fun t => argumentlessWords.any t.isWord then pure (← advance, {})
  else
    let name ← if ← nextWord "Self" then advance else do pure [Token.word (← identifier)]
    let opens ← do pure ((← nextOperator "<") && !(← nextOperator "<=") && !(← nextOperator "<<="))
    if (!inExpression && opens) || (← separatorThen fun t => (t.behind? "<").isSome) then
      pure (name, ← rules.arguments)
    else pure (name, {})

/-- Takes further names of a path, each behind a separator, as long as `goesOn`; at most `most` of
them. -/
def moreSegments (rules : TypeRules) (inExpression : Bool) (goesOn : Parse Bool) :
    (most : Nat) → PathTokens → Parse PathTokens
  | 0, p => pure p
  | most + 1, p => do
    if ← goesOn then
      let separator ← operator "::"
      let (name, found) ← segment rules inExpression
      moreSegments rules inExpression goesOn most (p.push separator name found)
    else pure p

def nameFollows : Parse Bool := do
  pure ((← nextOperator "::") && !(← separatorThen (isGroup .parentheses)))

def path (rules : TypeRules) (inExpression : Bool) : Parse PathTokens := do
  let root ← optionalOperator "::"
  let (name, found) ← segment rules inExpression
  moreSegments rules inExpression nameFollows (← enough)
    ⟨root ++ name, found.tokens, found.tokens.isEmpty, found.isEmpty, root.isEmpty⟩

/-- Takes a path that may begin with a type in angle brackets, and tells whether it does. -/
def qualifiedPath (rules : TypeRules) (inExpression : Bool) : Parse (Bool × PathTokens) := do
  if ← nextOperator "<" then
    let opening ← operator "<"
    let self ← rules.type true
    let keyword ← optionalWord "as"
    let trait ← if keyword.isEmpty then pure [] else PathTokens.tokens <$> path rules false
    let closing ← operator ">"
    let separator ← operator "::"
    let (name, found) ← segment rules inExpression
    let first := opening ++ self ++ keyword ++ trait ++ closing ++ separator ++ name
    let p ← moreSegments rules inExpression (nextOperator "::") (← enough)
      ⟨first, found.tokens, found.tokens.isEmpty, found.isEmpty, false⟩
    pure (true, p)
  else pure (false, ← path rules inExpression)

end Parse
end RecordCodec.Code
