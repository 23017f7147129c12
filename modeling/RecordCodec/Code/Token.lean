import RecordCodec.Text.Quoted

/-! # Tokens

Program text as words, lifetimes, operators, literals and delimited groups of tokens. Tokens are
printed with one blank between two of them; a group is one token. A quote right behind punctuation
stays there, as long as the two are not taken apart.
-/
namespace RecordCodec.Code

inductive Delimiter where
  | parentheses
  | brackets
  | braces
deriving DecidableEq, Repr

namespace Delimiter

def opening : Delimiter → Char
  | parentheses => '('
  | brackets => '['
  | braces => '\x7b'

def closing : Delimiter → Char
  | parentheses => ')'
  | brackets => ']'
  | braces => '\x7d'

def name : Delimiter → String
  | parentheses => "parentheses"
  | brackets => "square brackets"
  | braces => "curly braces"

def padding : Delimiter → String
  | braces => " "
  | _ => ""

def ofOpening? (c : Char) : Option Delimiter :=
  [parentheses, brackets, braces].find? (·.opening == c)

def ofClosing? (c : Char) : Option Delimiter :=
  [parentheses, brackets, braces].find? (·.closing == c)

end Delimiter

inductive Token where
  /-- A name or a keyword, with its mark if it is a raw name. -/
  | word (text : String)
  | lifetime (text : String)
  | operator (text : String)
  | literal (text : String)
  | group (delimiter : Delimiter) (tokens : List Token)
  /-- A lifetime or a literal whose quote has nothing between it and the punctuation before. -/
  | attached (token : Token)
deriving Repr

namespace Token

def space : Token → String
  | attached _ => ""
  | _ => " "

mutual

def render : Token → String
  | word s | lifetime s | operator s | literal s => s
  | group d ts =>
    let inner :=
      match ts with
      | [] => if d == .braces then " " else ""
      | t :: ts => d.padding ++ render t ++ renderMore ts ++ d.padding
    String.singleton d.opening ++ inner ++ String.singleton d.closing
  | attached t => render t
termination_by structural t => t

/-- Tokens behind another one as text. -/
def renderMore : List Token → String
  | [] => ""
  | t :: ts => t.space ++ render t ++ renderMore ts
termination_by structural ts => ts

end

def renderAll : List Token → String
  | [] => ""
  | t :: ts => render t ++ renderMore ts

mutual

/-- How many tokens a token is, its characters of punctuation and the contents of its groups
counted. -/
def extent : Token → Nat
  | word _ | lifetime _ | literal _ => 1
  | operator s => s.length
  | group _ ts => extentAll ts + 1
  | attached t => extent t
termination_by structural t => t

def extentAll : List Token → Nat
  | [] => 0
  | t :: ts => extent t + extentAll ts
termination_by structural ts => ts

end

def detached : Token → Token
  | attached t => t
  | t => t

def behindFirst : List Token → List Token
  | [] => []
  | operator s :: ts =>
    if s.length ≤ 1 then ts else operator (String.ofList (s.toList.drop 1)) :: ts
  | _ :: ts => ts

def isWord (s : String) : Token → Bool
  | word t => s == t
  | _ => false

/-- What is left of an operator behind one that it begins with. -/
def behind? (s : String) : Token → Option (List Token)
  | operator t =>
    if s.toList.isPrefixOf t.toList then
      let rest := t.toList.drop s.length
      some (if rest.isEmpty then [] else [operator (String.ofList rest)])
    else none
  | _ => none

def begins (s : String) (t : Token) : Bool := (t.behind? s).isSome

def contents? (d : Delimiter) : Token → Option (List Token)
  | group e ts => if d == e then some ts else none
  | _ => none

def string (s : String) : Token := literal (Text.Quoted.encode s)

end Token

/-- The operators of more than one character; one that begins with another comes first. -/
def longOperators : List (List Char) :=
  ["<<=", ">>=", "...", "..=", "::", "->", "=>", "==", "!=", "<=", ">=", "&&", "||", "+=", "-=",
    "*=", "/=", "%=", "^=", "&=", "|=", "<<", ">>", ".."].map String.toList

def typeOperators : List (List Char) := ["...", "::", "->", "=>", ".."].map String.toList

/-- The operators that characters of punctuation are, each as long as it can be, of which `covered`
characters belong to the one before. -/
def operatorsOf (long : List (List Char)) (covered : Nat) : List Char → List Token
  | [] => []
  | c :: cs =>
    match covered with
    | covered + 1 => operatorsOf long covered cs
    | 0 =>
      let found := (long.find? (·.isPrefixOf (c :: cs))).getD [c]
      .operator (String.ofList found) :: operatorsOf long (found.length - 1) cs

mutual

/-- A token with its characters of punctuation apart as operators, among them some of more than one
character. -/
def Token.apart (long : List (List Char)) : Token → List Token
  | operator s => operatorsOf long 0 s.toList
  | group d ts => [group d (apartAll long ts)]
  | attached t => [t]
  | t => [t]
termination_by structural t => t

def Token.apartAll (long : List (List Char)) : List Token → List Token
  | [] => []
  | t :: ts => t.apart long ++ apartAll long ts
termination_by structural ts => ts

end

def Token.characters (ts : List Token) : List Token :=
  ts.flatMap fun t =>
    match t with
    | .operator s => s.toList.map fun c => .operator (String.singleton c)
    | t => [t]

def plainName (word : String) : String :=
  match word.toList with
  | 'r' :: '#' :: rest => String.ofList rest
  | _ => word

end RecordCodec.Code
