import RecordCodec.Code.Parse

/-! # Members

What stands behind a dot or before a colon: the name of a field, or the place of one without a name.
A place is written in decimal digits, however it was given.
-/
namespace RecordCodec.Code.Parse

/-- The base of a number and the characters behind the mark that tells it. -/
def baseOf : List Char → Nat × List Char
  | '0' :: 'x' :: cs => (16, cs)
  | '0' :: 'o' :: cs => (8, cs)
  | '0' :: 'b' :: cs => (2, cs)
  | cs => (10, cs)

def goesOnAsFraction : List Char → Bool
  | '.' :: _ => true
  | c :: cs =>
    (c == 'e' || c == 'E') &&
      (cs.dropWhile (· == '_')).head?.any fun d => d.isDigit || d == '+' || d == '-'
  | [] => false

/-- The number that a literal without a fraction stands for, and the characters behind its
digits. -/
def integer? (text : String) : Option (Nat × List Char) :=
  let (base, cs) := baseOf text.toList
  let isDigit (c : Char) : Bool := if base = 16 then (Text.Hex.digit? c).isSome else c.isDigit
  let (digits, rest) := cs.span fun c => isDigit c || c == '_'
  let values := (digits.filter (· != '_')).filterMap Text.Hex.digit?
  if !text.toList.head?.any Char.isDigit || values.isEmpty || values.any (base ≤ ·) then none
  else if base = 10 && goesOnAsFraction rest then none
  else some (values.foldl (fun n d => base * n + d) 0, rest)

def place (digits : String) : Parse (List Token) := do
  match integer? digits with
  | none => throw (.expected ["integer literal"] false)
  | some (n, []) =>
    if n < 0x100000000 then pure [Token.literal (toString n)] else throw .placeTooLarge
  | some _ => throw (.expected ["unsuffixed integer"] false)

def places : List String → Parse (List Token)
  | [] => pure []
  | [digits] => place digits
  | digits :: more => do
    let first ← place digits
    pure (first ++ [Token.operator "."] ++ (← places more))

def member : Parse (List Token × Bool) := do
  match ← peek with
  | some (.literal text) =>
    if (integer? text).isNone then expected ["identifier or integer"]
    let _ ← advance
    pure (← place text, false)
  | some t => if isIdentifier t then pure (← advance, true) else expected ["identifier or integer"]
  | none => expected ["identifier or integer"]

def accessed : Parse (List Token × Bool) := do
  if ← nextWord "await" then pure (← advance, false) else member

/-- Takes what stands behind a dot, and tells whether it is a name. Two places with a dot between
them look like a number with a fraction, whose own dot may be the one before a member. -/
def accessPath : Parse (List Token × Bool) := do
  match ← peek with
  | some (.literal text) =>
    if text.toList.head?.any Char.isDigit && (integer? text).isNone then
      let _ ← advance
      let parts := text.splitOn "."
      if parts.getLast? == some "" then
        let first ← places parts.dropLast
        let (found, isName) ← accessed
        pure (first ++ [Token.operator "."] ++ found, isName)
      else pure (← places parts, false)
    else accessed
  | _ => accessed

end RecordCodec.Code.Parse
