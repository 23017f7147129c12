import RecordCodec.Code.InnerItemParser

/-! # Statements

What a block holds: bindings, expressions, calls by name and items. Blocks nest, and every level
takes a token at least.
-/
namespace RecordCodec.Code.Parse

def namesTokens : Parse (List Token) := do
  let root ← optionalOperator "::"
  let names ← modulePath (← enough)
  if names.isEmpty then
    let _ ← identifier
  pure (root ++ (names.map Token.word).intersperse (.operator "::"))

/-- What opens with a path of names and the mark of a call. -/
inductive CallStatement where
  | item
  | braced
  | other
deriving DecidableEq, Repr

def callStatement : Parse CallStatement := do
  let before ← get
  let found ←
    try
      let _ ← namesTokens
      if !(← nextOperator "!") then pure CallStatement.other
      else if ← second fun t => isIdentifier t || t.isWord "try" then pure CallStatement.item
      else if ← second (isGroup .braces) then
        let goesOn (t : Token) : Bool := (t.begins "." && !t.begins "..") || t.begins "?"
        if ← third goesOn then pure CallStatement.other else pure CallStatement.braced
      else pure CallStatement.other
    catch _ => pure CallStatement.other
  set before
  pure found

def callItem : Parse (List Token) := do
  let path ← namesTokens
  let mark ← operator "!"
  let name ← if ← nextWord "try" then advance else do pure [Token.word (← identifier)]
  match ← peek with
  | some (.group d _) =>
    let arguments ← advance
    let ending ← if d == .braces then pure [] else operator ";"
    pure (path ++ mark ++ name ++ arguments ++ ending)
  | _ => expected ["delimiter"]

def endsInBraces (ts : List Token) : Bool := ts.getLast?.any (isGroup .braces)

/-- Takes a binding, which may have a block for a value that does not match. -/
def binding (rules : ExpressionRules) (block : (marked : Bool) → Parse (List Token))
    (pattern : Parse PatternTokens) : Parse (List Token) := do
  let keyword ← word "let"
  let bound ← PatternTokens.tokens <$> pattern
  let colon ← optionalOperator ":"
  let type ← if colon.isEmpty then pure [] else rules.types.type true
  let equals ← optionalOperator "="
  let value ← if equals.isEmpty then pure [] else rules.value
  let other ←
    if !equals.isEmpty && !endsInBraces value then optionalWord "else" else pure []
  let otherwise ← if other.isEmpty then pure [] else block false
  let ending ← operator ";"
  pure (keyword ++ bound ++ colon ++ type ++ equals ++ value ++ other ++ otherwise ++ ending)

def statement (rules : ExpressionRules) (block : (marked : Bool) → Parse (List Token))
    (pattern : Parse PatternTokens) : Parse (List Token × Bool) := do
  let before ← rules.attributes
  match ← callStatement with
  | .item => pure (before ++ (← callItem), false)
  | .braced =>
    let name ← namesTokens
    let call ← invocation
    pure (before ++ name ++ call ++ (← optionalOperator ";"), false)
  | .other =>
    if ← nextWord "let" then pure (before ++ (← binding rules block pattern), false)
    else if ← nextItem then pure (before ++ (← itemTokens rules (block true)), false)
    else
      let found ← rules.statement
      let ending ← optionalOperator ";"
      let needsEnd := ending.isEmpty && found.form != .block && found.form != .braced
      pure (before ++ found.tokens ++ ending, needsEnd)

def statements (statement : Parse (List Token × Bool)) : (most : Nat) → Parse (List Token)
  | 0 => pure []
  | most + 1 => do
    if ← atEnd then pure []
    else
      let ending ← optionalOperator ";"
      if !ending.isEmpty then pure (ending ++ (← statements statement most))
      else
        let (first, needsEnd) ← statement
        if ← atEnd then pure first
        else
          if needsEnd then throw .unendedStatement
          pure (first ++ (← statements statement most))

/-- Takes a block whose own blocks nest at most `depth` deep; it may begin with attributes of its
own if `marked`. -/
def blockWithin (rules : ExpressionRules) : (depth : Nat) → (marked : Bool) → Parse (List Token)
  | 0, _ => expected [Delimiter.braces.name]
  | depth + 1, marked => do
    let inner ← group .braces
    let contents ← within .braces inner do
      let marks ← if marked then rules.innerAttributes else pure []
      let single : Parse PatternTokens := do
        pattern rules (blockWithin rules depth true) (← enough)
      let one := statement rules (blockWithin rules depth) single
      pure (marks ++ (← statements one (← enough)))
    pure [Token.group .braces contents]

/-- Takes a block, which may begin with attributes of its own if `marked`. -/
def block (rules : ExpressionRules) (marked : Bool) : Parse (List Token) := do
  blockWithin rules (← enough) marked

def anyPattern (rules : ExpressionRules) : Parse PatternTokens := do
  pattern rules (block rules true) (← enough)

end RecordCodec.Code.Parse
