import RecordCodec.Code.Expression
import RecordCodec.Code.MemberParser

/-! # Patterns

What a value is matched with: names, literals, ranges, and paths with the patterns of what a value
holds. Patterns nest, and every level takes a token at least.
-/
namespace RecordCodec.Code

/-- A pattern: its tokens, and whether it is a range without a start or an end. -/
structure PatternTokens where
  tokens : List Token
  isOpenRange : Bool := false

namespace Parse

def boundStarts : List String :=
  ["literal", "identifier", "`::`", "`<`", "`self`", "`Self`", "`super`", "`crate`", "`const`"]

def patternRangeEnds : Parse Bool := do
  pure ((← atEnd) || (← nextOperator "|") || (← nextOperator "=") ||
    ((← nextOperator ":") && !(← nextOperator "::")) || (← nextOperator ",") ||
    (← nextOperator ";") || (← nextWord "if"))

def rangeBound (rules : ExpressionRules) (block : Parse (List Token)) : Parse (List Token) := do
  let literal ← optionalLiteral
  if !literal.isEmpty then pure literal
  else if (← next isPathWord) || (← nextOperator "::") || (← nextOperator "<") then
    let (_, p) ← qualifiedPath rules.types true
    pure p.tokens
  else if ← nextWord "const" then
    let keyword ← advance
    pure (keyword ++ (← block))
  else expected boundStarts

/-- Takes the dots of a range behind its start and its end, if it has one. Three dots mean that the
end belongs to the range. -/
def patternRange (rules : ExpressionRules) (block : Parse (List Token)) (start : List Token) :
    Parse PatternTokens := do
  let closed ← optionalOperator "..="
  let closed ←
    if closed.isEmpty && !(← optionalOperator "...").isEmpty then pure [Token.operator "..="]
    else pure closed
  let dots ← if closed.isEmpty then operator ".." else pure closed
  if ← patternRangeEnds then
    if !closed.isEmpty then expected ["range upper bound"]
    pure ⟨start ++ dots, true⟩
  else pure ⟨start ++ dots ++ (← rangeBound rules block), false⟩

/-- Takes a range without a start, or the dots that stand for what is left. -/
def openPattern (rules : ExpressionRules) (block : Parse (List Token)) : Parse PatternTokens := do
  let closed ← optionalOperator "..="
  let dots ← if closed.isEmpty then operator ".." else pure closed
  if ← patternRangeEnds then
    if !closed.isEmpty then expected ["range upper bound"]
    pure ⟨dots, false⟩
  else pure ⟨dots ++ (← rangeBound rules block), true⟩

def barred (single : Parse PatternTokens) : (most : Nat) → Parse (List Token)
  | 0 => pure []
  | most + 1 => do
    if (← nextOperator "|") && !(← nextOperator "||") && !(← nextOperator "|=") then
      let bar ← operator "|"
      let first ← single
      pure (bar ++ first.tokens ++ (← barred single most))
    else pure []

def alternatives (single : Parse PatternTokens) : Parse PatternTokens := do
  let bar ← optionalOperator "|"
  let first ← single
  let more ← barred single (← enough)
  if bar.isEmpty && more.isEmpty then pure first else pure ⟨bar ++ first.tokens ++ more, false⟩

/-- Takes the pattern of a field with a name or a place; a name alone is bound. -/
def fieldPattern (choice : Parse PatternTokens) : Parse (List Token) := do
  let boxed ← optionalWord "box"
  let reference ← optionalWord "ref"
  let mutability ← optionalWord "mut"
  let marks := boxed ++ reference ++ mutability
  let (name, isName) ←
    if marks.isEmpty then member
    else do pure ([Token.word (← identifier)], true)
  if !isName || (marks.isEmpty && (← nextOperator ":")) then
    let colon ← operator ":"
    pure (name ++ colon ++ (← choice).tokens)
  else pure (marks ++ name)

def fieldPatterns (rules : ExpressionRules) (choice : Parse PatternTokens) :
    (most : Nat) → Parse (List Token)
  | 0 => pure []
  | most + 1 => do
    if ← atEnd then pure []
    else
      let before ← rules.attributes
      if ← nextOperator ".." then pure (before ++ (← operator ".."))
      else
        let field ← fieldPattern choice
        if ← atEnd then pure (before ++ field)
        else
          let comma ← operator ","
          pure (before ++ field ++ comma ++ (← fieldPatterns rules choice most))

def pathPattern (rules : ExpressionRules) (block : Parse (List Token))
    (choice : Parse PatternTokens) : Parse PatternTokens := do
  let (isQualified, p) ← qualifiedPath rules.types true
  if !isQualified && p.isPlain && (← nextInvocation) then pure ⟨p.tokens ++ (← invocation), false⟩
  else
    match ← peek with
    | some (.group .braces inner) =>
      let _ ← advance
      let contents ← within .braces inner (do fieldPatterns rules choice (← enough))
      pure ⟨p.tokens ++ [Token.group .braces contents], false⟩
    | some (.group .parentheses inner) =>
      let _ ← advance
      let contents ← within .parentheses inner (commaTokens (PatternTokens.tokens <$> choice))
      pure ⟨p.tokens ++ [Token.group .parentheses contents], false⟩
    | _ =>
      if ← nextOperator ".." then patternRange rules block p.tokens else pure ⟨p.tokens, false⟩

def nextPathPattern : Parse Bool := do
  let follows (t : Token) : Bool :=
    t.begins "::" || t.begins "!" || isGroup .braces t || isGroup .parentheses t || t.begins ".."
  pure (((← next isIdentifier) && (← second follows)) ||
    ((← nextWord "self") && (← second (Token.begins "::"))) || (← nextOperator "::") ||
    (← nextOperator "<") || (← next fun t => ["Self", "super", "crate"].any t.isWord))

def namePattern (single : Parse PatternTokens) : Parse (List Token) := do
  let reference ← optionalWord "ref"
  let mutability ← optionalWord "mut"
  let name ← if ← nextWord "self" then advance else do pure [Token.word (← identifier)]
  let mark ← optionalOperator "@"
  let behind ← if mark.isEmpty then pure [] else PatternTokens.tokens <$> single
  pure (reference ++ mutability ++ name ++ mark ++ behind)

/-- Takes the pattern of an element, which is no range without a start or an end. -/
def elementPattern (choice : Parse PatternTokens) : Parse (List Token) := do
  let found ← choice
  if found.isOpenRange then throw .openRange
  pure found.tokens

def patternStarts (dots : Bool) : List String :=
  ["identifier", "`::`", "`<`", "`_`", "literal", "`const`", "`ref`", "`mut`", "`&`",
    "parentheses", "square brackets"] ++ (if dots then ["`..`"] else []) ++ ["`const`"]

/-- Takes a pattern without alternatives whose parts nest at most `depth` deep. -/
def pattern (rules : ExpressionRules) (block : Parse (List Token)) :
    (depth : Nat) → Parse PatternTokens
  | 0 => expected (patternStarts true)
  | depth + 1 => do
    let single := pattern rules block depth
    let choice := alternatives single
    if ← nextPathPattern then pathPattern rules block choice
    else if ← nextWord "_" then pure ⟨← advance, false⟩
    else if ← nextWord "box" then
      let keyword ← advance
      pure ⟨keyword ++ (← single).tokens, false⟩
    else if (← nextOperator "-") || (← nextLiteral) || (← nextWord "const") then
      let start ← rangeBound rules block
      if ← nextOperator ".." then patternRange rules block start else pure ⟨start, false⟩
    else if ← next fun t => isIdentifier t || ["ref", "mut", "self"].any t.isWord then
      pure ⟨← namePattern single, false⟩
    else
      match ← peek with
      | some (.group .parentheses inner) =>
        let _ ← advance
        let contents ← within .parentheses inner (commaTokens (PatternTokens.tokens <$> choice))
        pure ⟨[Token.group .parentheses contents], false⟩
      | some (.group .brackets inner) =>
        let _ ← advance
        let contents ← within .brackets inner (commaTokens (elementPattern choice))
        pure ⟨[Token.group .brackets contents], false⟩
      | _ =>
        if ← nextOperator "&" then
          let mark ← operator "&"
          let mutability ← optionalWord "mut"
          pure ⟨mark ++ mutability ++ (← single).tokens, false⟩
        else if ← nextOperator "..." then expected (patternStarts false)
        else if ← nextOperator ".." then openPattern rules block
        else expected (patternStarts true)

end Parse
end RecordCodec.Code
