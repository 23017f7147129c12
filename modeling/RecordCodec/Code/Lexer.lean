import RecordCodec.Code.Token

/-! # Program text as tokens

Comments and blanks separate tokens; a documentation comment is an attribute. A reader takes as many
characters as belong to one token and leaves the others.
-/
namespace RecordCodec.Code

inductive LexFault where
  | unfinished
  | unbalanced
  | stray (c : Char)
deriving DecidableEq, Repr

namespace Lexer

/-- Whether a character separates tokens: those that Unicode calls white space, and the marks of the
direction of writing. -/
def isBlank (c : Char) : Bool :=
  c == ' ' || ('\t' ≤ c && c ≤ '\r') || c == '\u0085' || c == '\u00a0' || c == '\u1680' ||
    ('\u2000' ≤ c && c ≤ '\u200a') || c == '\u200e' || c == '\u200f' || c == '\u2028' ||
    c == '\u2029' || c == '\u202f' || c == '\u205f' || c == '\u3000'

def isNameStart (c : Char) : Bool := c.isAlpha || c == '_' || (c.toNat ≥ 128 && !isBlank c)

def isNamePart (c : Char) : Bool := isNameStart c || c.isDigit

def isPunctuation (c : Char) : Bool := "~!@#$%^&*-=+|;:,<.>/?".toList.contains c

/-- The characters of punctuation up to another character or a comment, and what follows. -/
def punctuation : List Char → List Char × List Char
  | [] => ([], [])
  | c :: cs =>
    let opensComment := c == '/' && (cs.head? == some '/' || cs.head? == some '*')
    if isPunctuation c && !opensComment then
      let (more, rest) := punctuation cs
      (c :: more, rest)
    else ([], c :: cs)

def quoted (quote : Char) : List Char → Except LexFault (List Char × List Char)
  | [] => .error .unfinished
  | '\\' :: c :: cs => do
    let (body, rest) ← quoted quote cs
    pure ('\\' :: c :: body, rest)
  | c :: cs =>
    if c == quote then .ok ([c], cs)
    else do
      let (body, rest) ← quoted quote cs
      pure (c :: body, rest)

/-- The characters of a raw literal up to its quote with `hashes` marks, and what follows. -/
def rawQuoted (hashes : Nat) : List Char → Except LexFault (List Char × List Char)
  | [] => .error .unfinished
  | c :: cs =>
    let marks := List.replicate hashes '#'
    if c == '"' && marks.isPrefixOf cs then .ok (c :: marks, cs.drop hashes)
    else do
      let (body, rest) ← rawQuoted hashes cs
      pure (c :: body, rest)

def blockComment (depth : Nat) : List Char → Except LexFault (List Char × List Char)
  | '/' :: '*' :: cs => do
    let (body, rest) ← blockComment (depth + 1) cs
    pure ('/' :: '*' :: body, rest)
  | '*' :: '/' :: cs =>
    match depth with
    | 0 => .ok ([], cs)
    | depth + 1 => do
      let (body, rest) ← blockComment depth cs
      pure ('*' :: '/' :: body, rest)
  | c :: cs => do
    let (body, rest) ← blockComment depth cs
    pure (c :: body, rest)
  | [] => .error .unfinished

/-- The attribute that a documentation comment stands for, which is marked if it belongs to what it
is in. -/
def documentation (marks : List Token) (text : List Char) : List Token :=
  [.operator "#"] ++ marks ++
    [.group .brackets [.word "doc", .operator "=", .string (String.ofList text)]]

def exponent? (cs : List Char) : Option (List Char × List Char) :=
  let (sign, rest) :=
    match cs with
    | '+' :: rest => (['+'], rest)
    | '-' :: rest => (['-'], rest)
    | rest => ([], rest)
  let (digits, rest) := rest.span fun c => c.isDigit || c == '_'
  if digits.any Char.isDigit then some (sign ++ digits, rest) else none

/-- The characters of a fraction behind its dot, and what follows; neither a second dot nor a name
may stand behind the dot. -/
def fraction? (cs : List Char) : Option (List Char × List Char) :=
  if cs.head?.any fun c => c == '.' || isNameStart c then none
  else some (cs.span fun c => c.isDigit || c == '_')

def number (cs : List Char) : List Char × List Char :=
  let (digits, rest) := cs.span fun c => c.isDigit || c == '_'
  let (body, rest) :=
    match rest with
    | '.' :: behind =>
      match fraction? behind with
      | some (fraction, rest) => (digits ++ ['.'] ++ fraction, rest)
      | none => (digits, rest)
    | rest => (digits, rest)
  let (body, rest) :=
    match rest with
    | 'e' :: behind =>
      match exponent? behind with
      | some (exponent, rest) => (body ++ ['e'] ++ exponent, rest)
      | none => (body, rest)
    | 'E' :: behind =>
      match exponent? behind with
      | some (exponent, rest) => (body ++ ['E'] ++ exponent, rest)
      | none => (body, rest)
    | rest => (body, rest)
  let (letters, rest) := rest.span isNamePart
  (body ++ letters, rest)

/-- The characters of a character literal behind its first quote, if characters begin one rather
than a lifetime, and what follows. -/
def character? : List Char → Option (Except LexFault (List Char × List Char))
  | '\\' :: cs => some (quoted '\'' ('\\' :: cs))
  | c :: '\'' :: cs => some (.ok ([c, '\''], cs))
  | _ => none

def lifetimeName : List Char → List Char × List Char
  | 'r' :: '#' :: cs =>
    let (name, rest) := cs.span isNamePart
    ('r' :: '#' :: name, rest)
  | cs => cs.span isNamePart

def rawMarks? (cs : List Char) : Option Nat :=
  let marks := cs.takeWhile (· == '#')
  if (cs.drop marks.length).head? == some '"' then some marks.length else none

/-- A literal of some characters and the name behind them, which is a part of it, and what
follows. -/
def literal (opening : List Char) (r : Except LexFault (List Char × List Char)) :
    Except LexFault (Token × List Char) := do
  let (body, rest) ← r
  let (ending, rest) :=
    if rest.head?.any isNameStart then rest.span isNamePart else ([], rest)
  pure (.literal (String.ofList (opening ++ body ++ ending)), rest)

def lettered? (cs : List Char) : Option (Except LexFault (Token × List Char)) :=
  let (letters, rest) := cs.span fun c => c == 'b' || c == 'c' || c == 'r'
  if letters ∈ [['r'], ['b', 'r'], ['c', 'r']] then
    (rawMarks? rest).map fun n =>
      literal (letters ++ rest.take (n + 1)) (rawQuoted n (rest.drop (n + 1)))
  else
    match letters, rest with
    | ['b'], '\'' :: rest => (character? rest).map (literal ['b', '\''])
    | [c], '"' :: rest => if c == 'r' then none else some (literal [c, '"'] (quoted '"' rest))
    | _, _ => none

def single (cs : List Char) : Except LexFault (Token × List Char) :=
  match lettered? cs with
  | some found => found
  | none =>
    match cs with
    | [] => .error .unfinished
    | 'r' :: '#' :: rest =>
      let (name, rest) := rest.span isNamePart
      .ok (.word (String.ofList ('r' :: '#' :: name)), rest)
    | '"' :: rest => literal ['"'] (quoted '"' rest)
    | '\'' :: rest =>
      match character? rest with
      | some found => literal ['\''] found
      | none =>
        let (name, rest) := lifetimeName rest
        .ok (.lifetime (String.ofList ('\'' :: name)), rest)
    | c :: rest =>
      if c.isDigit then
        let (digits, rest) := number (c :: rest)
        .ok (.literal (String.ofList digits), rest)
      else if isNameStart c then
        let (name, rest) := (c :: rest).span isNamePart
        .ok (.word (String.ofList name), rest)
      else
        match punctuation (c :: rest) with
        | ([], _) => .error (.stray c)
        | (marks, rest) => .ok (.operator (String.ofList marks), rest)

/-- The tokens behind another one, the first attached to it if it is a quote behind punctuation. -/
def behind (token : Token) (rest : List Char) (more : List Token) : List Token :=
  match token, rest, more with
  | .operator _, '\'' :: _, t :: ts => .attached t :: ts
  | _, _, _ => more

/-- The tokens up to the delimiter that closes `enclosing`, or up to the end if nothing does, and
what follows. Every step takes a character at least, so the number of characters bounds the steps.
-/
def tokens (enclosing : Option Delimiter) :
    (steps : Nat) → List Char → Except LexFault (List Token × List Char)
  | 0, _ => .error .unfinished
  | steps + 1, cs =>
    match cs with
    | [] => if enclosing.isNone then .ok ([], []) else .error .unfinished
    | '/' :: '/' :: rest =>
      let (line, rest) := rest.span (· != '\n')
      let line := if !rest.isEmpty && line.getLast? == some '\r' then line.dropLast else line
      let comment :=
        match line with
        | '!' :: text => documentation [.operator "!"] text
        | '/' :: text => if text.head? == some '/' then [] else documentation [] text
        | _ => []
      do
        let (more, rest) ← tokens enclosing steps rest
        pure (comment ++ more, rest)
    | '/' :: '*' :: rest => do
      let (text, rest) ← blockComment 0 rest
      let comment :=
        match text with
        | '!' :: text => documentation [.operator "!"] text
        | '*' :: text =>
          if text.isEmpty || text.head? == some '*' then [] else documentation [] text
        | _ => []
      let (more, rest) ← tokens enclosing steps rest
      pure (comment ++ more, rest)
    | c :: rest =>
      if isBlank c then tokens enclosing steps rest
      else
        match Delimiter.ofOpening? c, Delimiter.ofClosing? c with
        | some d, _ => do
          let (inner, rest) ← tokens (some d) steps rest
          let (more, rest) ← tokens enclosing steps rest
          pure (.group d inner :: more, rest)
        | none, some d => if enclosing == some d then .ok ([], rest) else .error .unbalanced
        | none, none => do
          let (token, behindToken) ← single (c :: rest)
          let (more, rest) ← tokens enclosing steps behindToken
          pure (token :: behind token behindToken more, rest)

end Lexer

def lex (text : String) : Except LexFault (List Token) :=
  let cs :=
    match text.toList with
    | '\ufeff' :: cs => cs
    | cs => cs
  Prod.fst <$> Lexer.tokens none (cs.length + 1) cs

def code (text : String) : List Token :=
  match lex text with
  | .ok ts => Token.apartAll longOperators ts
  | .error _ => []

end RecordCodec.Code
