import RecordCodec.Code.Token
import RecordCodec.Schema

/-! # Items

The syntax of a declared struct, enum or union: its attributes, its generic parameters and its
fields. Types and bounds are kept as the tokens that they are written with.
-/
namespace RecordCodec.Code

inductive SyntaxError where
  /-- Something else than one of the choices; `atEnd`, if that is the end of the tokens. -/
  | expected (choices : List String) (atEnd : Bool)
  | keyword (word : String)
  /-- A token behind the end of what its group holds. -/
  | unexpected (inside : Option Delimiter)
  | missingArguments (path : String)
  | valueForArguments (path : String)
  | unknownArgument
  | argumentKind (found : String)
  | misplaced (what : String)
  | objectWithoutTrait
  | anonymousWithoutTrait
  /-- A bound that is optional and binds lifetimes. -/
  | optionalBinder
  | conditionParameters
  | attributeInAttribute
  | chainedComparison
  | afterCast (what : String)
  | attributesOnRange
  | openRange
  | parenthesesRequired
  /-- A statement that does not end where the next one begins. -/
  | unendedStatement
  | placeTooLarge
  | union (trait reason : String)
deriving DecidableEq, Repr

def SyntaxError.message : SyntaxError → String
  | expected [] atEnd => if atEnd then "unexpected end of input" else "unexpected token"
  | expected choices atEnd =>
    let choice :=
      match choices with
      | [a] => "expected " ++ a
      | [a, b] => "expected " ++ a ++ " or " ++ b
      | more => "expected one of: " ++ ", ".intercalate more
    if atEnd then "unexpected end of input, " ++ choice else choice
  | keyword word => "expected identifier, found keyword `" ++ word ++ "`"
  | unexpected none => "unexpected token"
  | unexpected (some d) => "unexpected token, expected `" ++ String.singleton d.closing ++ "`"
  | missingArguments path => "expected attribute arguments in parentheses: #[" ++ path ++ "(...)]"
  | valueForArguments path => "expected parentheses: #[" ++ path ++ "(...)]"
  | unknownArgument => "unknown wirepack attribute"
  | argumentKind found => "unexpected " ++ found ++ " in nested attribute, expected ident"
  | misplaced what => what ++ " is not allowed here"
  | objectWithoutTrait => "at least one trait is required for an object type"
  | anonymousWithoutTrait => "at least one trait must be specified"
  | optionalBinder => "`for<...>` binder not allowed with `?` trait polarity modifier"
  | conditionParameters => "generic parameters on `where` clauses are reserved for future use"
  | attributeInAttribute => "unexpected attribute inside of attribute"
  | chainedComparison => "comparison operators cannot be chained"
  | afterCast what => "casts cannot be followed by " ++ what
  | attributesOnRange => "attributes are not allowed on range expressions starting with `..`"
  | openRange => "range pattern is not allowed unparenthesized inside slice pattern"
  | parenthesesRequired => "parentheses required"
  | unendedStatement => "unexpected token, expected `;`"
  | placeTooLarge => "number too large to fit in target type"
  | union trait reason => trait ++ " cannot be derived for unions" ++ reason

inductive AttributeTail where
  | none
  | arguments (delimiter : Delimiter) (tokens : List Token)
  | value (tokens : List Token)
deriving Repr

structure Attribute where
  rooted : Bool
  path : List String
  tail : AttributeTail
deriving Repr

def Attribute.tokens (a : Attribute) : List Token :=
  let root := if a.rooted then [Token.operator "::"] else []
  let tail :=
    match a.tail with
    | .none => []
    | .arguments d ts => [.group d ts]
    | .value ts => .operator "=" :: ts
  [.operator "#",
    .group .brackets (root ++ (a.path.map Token.word).intersperse (.operator "::") ++ tail)]

def Attribute.isNamed (a : Attribute) (name : String) : Bool := !a.rooted && a.path == [name]

/-- A field as it is declared; without a name it is known by its place. -/
structure FieldItem where
  attributes : List Attribute
  word : Option String
  type : List Token
deriving Repr

structure FieldItems where
  style : Style
  fields : List FieldItem
deriving Repr

structure AlternativeItem where
  word : String
  fields : FieldItems
deriving Repr

inductive GenericKind where
  | lifetime (bounds : List Token)
  | type (bounds : List Token)
  | const (type : List Token)
deriving Repr

structure GenericParameter where
  attributes : List Attribute
  token : Token
  kind : GenericKind
  hasComma : Bool
deriving Repr

namespace GenericParameter

def isLifetime (p : GenericParameter) : Bool :=
  match p.kind with
  | .lifetime _ => true
  | _ => false

def tokens (p : GenericParameter) : List Token :=
  let bounded (bounds : List Token) : List Token :=
    if bounds.isEmpty then [p.token] else [p.token, .operator ":"] ++ bounds
  p.attributes.flatMap Attribute.tokens ++
    match p.kind with
    | .lifetime bounds | .type bounds => bounded bounds
    | .const type => [.word "const", p.token, .operator ":"] ++ type

end GenericParameter

structure Listed where
  isLifetime : Bool
  tokens : List Token
  hasComma : Bool

/-- Parameters or arguments, lifetimes first, each with the comma that it has; a comma is put
between the last lifetime and what follows if it has none. -/
def Listed.inOrder (all : List Listed) : List Token :=
  let one (l : Listed) : List Token := l.tokens ++ (if l.hasComma then [.operator ","] else [])
  let lifetimes := all.filter (·.isLifetime)
  let others := all.filter (!·.isLifetime)
  let missing := !others.isEmpty && (lifetimes.getLast?.any fun l => !l.hasComma)
  lifetimes.flatMap one ++ (if missing then [.operator ","] else []) ++ others.flatMap one

structure Generics where
  parameters : List GenericParameter := []
  conditions : List (List Token) := []
  conditionsEndInComma : Bool := false
deriving Repr

inductive ItemBody where
  | struct (fields : FieldItems)
  | enum (alternatives : List AlternativeItem)
  | union
deriving Repr

structure Item where
  word : String
  generics : Generics
  body : ItemBody
deriving Repr

end RecordCodec.Code
