import RecordCodec.Code.Item

/-! # Taking tokens

Operations that take tokens from the front, as many as they need. An operator is taken by its
characters: those of the next operator may follow without a blank. What an operation leaves of a
group is a fault, but one that is told only if no other is found.
-/
namespace RecordCodec.Code

/-- The tokens that are left, and the delimiters of the first group that was left unfinished. -/
structure ParseState where
  tokens : List Token
  unfinished : Option Delimiter := none

abbrev Parse := StateT ParseState (Except SyntaxError)

namespace Parse

def keywords : List String :=
  ["_", "abstract", "as", "async", "await", "become", "box", "break", "const", "continue", "crate",
    "do", "dyn", "else", "enum", "extern", "false", "final", "fn", "for", "if", "impl", "in", "let",
    "loop", "macro", "match", "mod", "move", "mut", "override", "priv", "pub", "ref", "return",
    "Self", "self", "static", "struct", "super", "trait", "true", "try", "type", "typeof", "unsafe",
    "unsized", "use", "virtual", "where", "while", "yield"]

def pathWords : List String := ["super", "self", "Self", "crate"]

def shown (text : String) : String := "`" ++ text ++ "`"

def tokens : Parse (List Token) := ParseState.tokens <$> get

/-- A number of repetitions that the tokens left do not reach, if each takes one. -/
def enough : Parse Nat := do pure (Token.extentAll (← tokens) + 1)

def goOn (ts : List Token) : Parse Unit := modify fun s => { s with tokens := ts }

def atEnd : Parse Bool := List.isEmpty <$> tokens

def expected {α : Type} (choices : List String) : Parse α := do
  throw (.expected choices (← atEnd))

def peek : Parse (Option Token) := List.head? <$> tokens

def next (p : Token → Bool) : Parse Bool := do pure ((← peek).any p)

def nextWord (s : String) : Parse Bool := next (·.isWord s)

def nextOperator (s : String) : Parse Bool := next fun t => (t.behind? s).isSome

/-- Whether the second token is as told; a character of punctuation is a token. -/
def second (p : Token → Bool) : Parse Bool := do
  pure ((Token.behindFirst (← tokens)).head?.any p)

def third (p : Token → Bool) : Parse Bool := do
  pure ((Token.behindFirst (Token.behindFirst (← tokens))).head?.any p)

def advance : Parse (List Token) := do
  match ← tokens with
  | [] => pure []
  | t :: ts =>
    goOn ts
    pure [t]

def optional (p : Token → Bool) : Parse (List Token) := do if ← next p then advance else pure []

def optionalWord (s : String) : Parse (List Token) := optional (·.isWord s)

def word (s : String) : Parse (List Token) := do
  let taken ← optionalWord s
  if taken.isEmpty then expected [shown s] else pure taken

def optionalOperator (s : String) : Parse (List Token) := do
  match ← tokens with
  | [] => pure []
  | t :: ts =>
    match t.behind? s with
    | some rest =>
      goOn (rest ++ ts)
      pure [.operator s]
    | none => pure []

def operator (s : String) : Parse (List Token) := do
  let taken ← optionalOperator s
  if taken.isEmpty then throw (.expected [shown s] false) else pure taken

def group (d : Delimiter) : Parse (List Token) := do
  match (← peek).bind (·.contents? d) with
  | some inner =>
    let _ ← advance
    pure inner
  | none => expected [d.name]

def within {α : Type} (d : Delimiter) (contents : List Token) (operation : Parse α) : Parse α := do
  let outer ← tokens
  goOn (contents.map Token.detached)
  let a ← operation
  if !(← atEnd) then modify fun s => { s with unfinished := s.unfinished.or (some d) }
  goOn outer
  pure a

def identifier : Parse String := do
  match ← peek with
  | some (.word w) =>
    if keywords.contains w then throw (.keyword w)
    let _ ← advance
    pure w
  | _ => expected ["identifier"]

def isIdentifier : Token → Bool
  | .word w => !keywords.contains w
  | _ => false

def isPathWord : Token → Bool
  | .word w => !keywords.contains w || pathWords.contains w
  | _ => false

def isLifetime : Token → Bool
  | .lifetime _ => true
  | _ => false

def isGroup (d : Delimiter) (t : Token) : Bool := (t.contents? d).isSome

def lifetime : Parse (List Token) := do
  if ← next isLifetime then advance else expected ["lifetime"]

/-- Takes the mark of a call by name and what it is called with, which may be any tokens. -/
def invocation : Parse (List Token) := do
  let mark ← operator "!"
  match ← peek with
  | some (.group ..) => pure (mark ++ (← advance))
  | _ => expected ["delimiter"]

def nextInvocation : Parse Bool := do pure ((← nextOperator "!") && !(← nextOperator "!="))

def optionalLiteral : Parse (List Token) := do
  match ← tokens with
  | .literal _ :: _ => advance
  | .word w :: _ => if w == "true" || w == "false" then advance else pure []
  | .operator "-" :: .literal s :: ts =>
    if (s.toList.head?.any Char.isDigit) then
      goOn ts
      pure [.operator "-", .literal s]
    else pure []
  | _ => pure []

def nextLiteral : Parse Bool := do
  let before ← get
  let literal ← optionalLiteral
  set before
  pure (!literal.isEmpty)

/-- Items with commas between them, up to the end of the tokens; at most `most` of them. -/
def separated {α : Type} (item : Parse α) : (most : Nat) → Parse (List α)
  | 0 => pure []
  | most + 1 => do
    if ← atEnd then pure []
    else
      let a ← item
      if ← atEnd then pure [a]
      else
        let _ ← operator ","
        let as ← separated item most
        pure (a :: as)

def commaSeparated {α : Type} (item : Parse α) : Parse (List α) := do
  separated item (← enough)

/-- Items with commas between them, up to where `ends` holds, and whether a comma follows each; at
most `most` items. -/
def listed {α : Type} (item : Parse α) (ends : Parse Bool) : (most : Nat) → Parse (List (α × Bool))
  | 0 => pure []
  | most + 1 => do
    if ← ends then pure []
    else
      let first ← item
      if ← ends then pure [(first, false)]
      else
        let _ ← operator ","
        pure ((first, true) :: (← listed item ends most))

def listedTokens (items : List (List Token × Bool)) : List Token :=
  items.flatMap fun (ts, comma) => ts ++ (if comma then [.operator ","] else [])

def commaTokens (item : Parse (List Token)) : Parse (List Token) := do
  listedTokens <$> listed item atEnd (← enough)

/-- The tokens of what an operation takes with plus signs between, up to where `ends` holds; at most
`most` times. -/
def summed (item : Parse (List Token)) (ends : Parse Bool) : (most : Nat) → Parse (List Token)
  | 0 => pure []
  | most + 1 => do
    if ← ends then pure []
    else
      let first ← item
      let plus ← optionalOperator "+"
      if plus.isEmpty then pure first else pure (first ++ plus ++ (← summed item ends most))

def takeAll {α : Type} (operation : Parse α) (ts : List Token) : Except SyntaxError α :=
  match operation.run { tokens := ts.map Token.detached } with
  | .error e => .error e
  | .ok (a, s) =>
    if s.unfinished.isSome then .error (.unexpected s.unfinished)
    else if s.tokens.isEmpty then .ok a
    else .error (.unexpected none)

end Parse
end RecordCodec.Code
