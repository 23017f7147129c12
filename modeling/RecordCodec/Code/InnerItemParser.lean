import RecordCodec.Code.PatternParser

/-! # Items inside blocks

A constant is taken by its grammar and a function's body by that of blocks; the other tokens of an
item are taken as they stand, up to its end.
-/
namespace RecordCodec.Code.Parse

/-- An operator up to its semicolon with it, and what is left of it, if it has one. -/
def semicolonIn? : Token → Option (Token × List Token)
  | .operator s =>
    match s.toList.span (· != ';') with
    | (_, []) => none
    | (before, mark :: behind) =>
      some (.operator (String.ofList (before ++ [mark])),
        if behind.isEmpty then [] else [.operator (String.ofList behind)])
  | _ => none

/-- Tokens up to a semicolon with it, or up to braces with them if `bodies`, and those behind. -/
def splitAtEnd (bodies : Bool) : List Token → List Token × List Token
  | [] => ([], [])
  | t :: ts =>
    match semicolonIn? t with
    | some (first, left) => ([first], left ++ ts)
    | none =>
      if bodies && isGroup .braces t then ([t], ts)
      else
        let (more, rest) := splitAtEnd bodies ts
        (t :: more, rest)

def hasBody (ts : List Token) : Bool :=
  !(ts.head?.any fun t => t.isWord "use" || t.isWord "type")

/-- The tokens of an item with operators apart: those of types outside braces, and in the braces of
a declared type. -/
def itemApart (ts : List Token) : List Token :=
  let declares := ts.head?.any fun t => ["struct", "enum", "union"].any t.isWord
  let long (t : Token) : List (List Char) :=
    if isGroup .braces t && !declares then longOperators else typeOperators
  ts.flatMap fun t => t.apart (long t)

def isQualifier (t : Token) : Bool :=
  ["const", "async", "unsafe", "extern"].any t.isWord ||
    (match t with
      | .literal _ => true
      | _ => false)

/-- Takes the signature of a function and its body, if one is next. -/
def functionItem? (block : Parse (List Token)) : Parse (Option (List Token)) := do
  let ts ← tokens
  let head := (ts.dropWhile isQualifier).head?
  if !head.any (·.isWord "fn") then pure none
  else
    let isEnd (t : Token) : Bool := isGroup .braces t || (semicolonIn? t).isSome
    goOn (ts.dropWhile fun t => !isEnd t)
    let signature := Token.apartAll typeOperators (ts.takeWhile fun t => !isEnd t)
    if ← next (isGroup .braces) then pure (some (signature ++ (← block)))
    else
      let (taken, rest) := splitAtEnd false (← tokens)
      goOn rest
      pure (some (signature ++ Token.apartAll typeOperators taken))

def constantItem (rules : ExpressionRules) : Parse (List Token) := do
  let keyword ← advance
  let mutability ← optionalWord "mut"
  let name ← if ← nextWord "_" then advance else do pure [Token.word (← identifier)]
  let colon ← operator ":"
  let type ← rules.types.type true
  let equals ← optionalOperator "="
  let value ← if equals.isEmpty then pure [] else rules.value
  pure (keyword ++ mutability ++ name ++ colon ++ type ++ equals ++ value ++ (← operator ";"))

def itemVisibility : Parse (List Token) := do
  let keyword ← optional fun t => t.isWord "pub" || t.isWord "crate"
  let place ← if keyword.isEmpty then pure [] else optional (isGroup .parentheses)
  pure (keyword ++ Token.apartAll typeOperators place)

def itemTokens (rules : ExpressionRules) (block : Parse (List Token)) : Parse (List Token) := do
  let before ← itemVisibility
  match ← functionItem? block with
  | some found => pure (before ++ found)
  | none =>
    if ← next fun t => t.isWord "const" || t.isWord "static" then
      pure (before ++ (← constantItem rules))
    else
      let ts ← tokens
      let (taken, rest) := splitAtEnd (hasBody ts) ts
      goOn rest
      pure (before ++ itemApart taken)

def nextItem : Parse Bool := do
  let function (t : Token) : Bool := ["unsafe", "extern", "fn"].any t.isWord
  let closure (t : Token) : Bool := t.isWord "move" || t.begins "|"
  match ← peek with
  | some (.word w) =>
    if ["pub", "extern", "use", "fn", "mod", "type", "struct", "enum", "trait", "impl",
        "macro"].contains w then pure true
    else if w == "crate" then pure !(← second (Token.begins "::"))
    else if w == "static" then second fun t => t.isWord "mut" || isIdentifier t
    else if w == "const" then
      let closes ← second fun t => isGroup .braces t || t.isWord "static" || closure t
      pure !(closes || ((← second (·.isWord "async")) && !(← third function)))
    else if w == "unsafe" then pure !(← second (isGroup .braces))
    else if w == "async" then second function
    else if w == "union" then second isIdentifier
    else if w == "auto" then second (·.isWord "trait")
    else if w == "default" then second fun t => t.isWord "unsafe" || t.isWord "impl"
    else pure false
  | _ => pure false

end RecordCodec.Code.Parse
