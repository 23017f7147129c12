import RecordCodec.Code.Lexer
import RecordCodec.Code.Plan
import RecordCodec.Schema.Default
import RecordCodec.Schema.Family

/-! # Schemas of declared types

The schema that an item's generated code describes, writes and reads: its fields in the order of
their declaration, skipped ones with the default of their type. A catalogue holds declared types; a
type expression names one of them, or a type made of them.
-/
namespace RecordCodec.Code

inductive DeclarationFault where
  | lexical (fault : LexFault)
  | grammatical (error : SyntaxError)
  | unknownType (name : String)
deriving DecidableEq, Repr

inductive TypeExpr where
  | named (path : String) (arguments : List TypeExpr)
  | tuple (components : List TypeExpr)
  | array (element : TypeExpr) (length : Nat)
  | slice (element : TypeExpr)
  | number (n : Nat)
deriving Repr

namespace TypeExpr

def numeral : Parse Nat := do
  match ← Parse.peek with
  | some (.literal s) =>
    match s.toNat? with
    | some n => do
      let _ ← Parse.advance
      pure n
    | none => Parse.expected ["integer literal"]
  | _ => Parse.expected ["integer literal"]

/-- Arguments with commas between them, up to the bracket that closes them; at most `most` of
them. -/
def argumentsUpTo (argument : Parse TypeExpr) : (most : Nat) → Parse (List TypeExpr)
  | 0 => pure []
  | most + 1 => do
    if !(← Parse.optionalOperator ">").isEmpty then pure []
    else
      let first ← argument
      if !(← Parse.optionalOperator ">").isEmpty then pure [first]
      else
        let _ ← Parse.operator ","
        pure (first :: (← argumentsUpTo argument most))

def take : (depth : Nat) → Parse TypeExpr
  | 0 => Parse.expected Parse.typeStarts
  | depth + 1 => do
    match ← Parse.peek with
    | some (.group .parentheses inner) =>
      let _ ← Parse.advance
      let components ← Parse.within .parentheses inner (Parse.commaSeparated (take depth))
      match components with
      | [t] =>
        let endsInComma (t : Token) : Bool :=
          match t with
          | .operator s => s.toList.getLast? == some ','
          | _ => false
        if inner.getLast?.any endsInComma then pure (.tuple [t]) else pure t
      | ts => pure (.tuple ts)
    | some (.group .brackets inner) =>
      let _ ← Parse.advance
      Parse.within .brackets inner do
        let element ← take depth
        if (← Parse.optionalOperator ";").isEmpty then pure (.slice element)
        else pure (.array element (← numeral))
    | some (.literal _) => pure (.number (← numeral))
    | _ =>
      let path ← Parse.modulePath (← Parse.enough)
      if path.isEmpty then Parse.expected Parse.typeStarts
      let arguments ←
        if (← Parse.optionalOperator "<").isEmpty then pure []
        else argumentsUpTo (take depth) (← Parse.enough)
      pure (.named ("::".intercalate path) arguments)

/-- The type expression that tokens are, which nests no deeper than there are tokens. -/
def parse (tokens : List Token) : Except DeclarationFault TypeExpr :=
  match Parse.takeAll (take (Token.extentAll tokens + 1)) tokens with
  | .ok t => .ok t
  | .error e => .error (.grammatical e)

def builtin? (name : String) (arguments : List Schema) : Option Schema :=
  match name, arguments with
  | "String", [] => some .text
  | "str", [] => some .str
  | "usize", [] => some .usize
  | "isize", [] => some .isize
  | "Duration", [] => some .duration
  | "Box", [t] => some (.pointer .box t)
  | "Rc", [t] => some (.pointer .rc t)
  | "Arc", [t] => some (.pointer .arc t)
  | "Option", [t] => some (.option t)
  | "Vec", [t] => some (.sequence t)
  | "VecDeque", [t] => some (.deque t)
  | "LinkedList", [t] => some (.linkedList t)
  | "BTreeSet", [t] => some (.set t)
  | "HashSet", [t] => some (.hashSet t)
  | "BTreeMap", [k, v] => some (.map k v)
  | "HashMap", [k, v] => some (.hashMap k v)
  | "PhantomData", [t] => some (.phantom t)
  | "Result", [t, e] => some (.result t e)
  | name, [] => Schema.scalar <$> Scalar.named? name
  | _, _ => none

mutual

/-- The schema of a type expression, where `declared` knows the types that need a declaration. -/
def schema (declared : String → List Schema → Option Schema) :
    TypeExpr → Except DeclarationFault Schema
  | named "Compatible" [t] => do pure (.compatible (← t.schema declared) 0)
  | named "Compatible" [t, number version] => do
    pure (.compatible (← t.schema declared) version)
  | named name arguments => do
    let ts ← schemas declared arguments
    match (builtin? name ts).or (declared name ts) with
    | some t => pure t
    | none => throw (.unknownType name)
  | tuple [] => pure .unit
  | tuple components => do pure (.tuple (← schemas declared components))
  | array element length => do pure (.array (← element.schema declared) length)
  | slice element => do pure (.slice (← element.schema declared))
  | number n => throw (.unknownType (toString n))
termination_by structural t => t

def schemas (declared : String → List Schema → Option Schema) :
    List TypeExpr → Except DeclarationFault (List Schema)
  | [] => pure []
  | t :: ts => do
    let s ← t.schema declared
    let ss ← schemas declared ts
    pure (s :: ss)
termination_by structural ts => ts

end
end TypeExpr

structure Declaration where
  name : String
  fullName : String
  item : Item
deriving Repr

namespace Declaration

def parameters (d : Declaration) : List String :=
  d.item.generics.parameters.filterMap fun p =>
    match p.kind, p.token with
    | .type _, .word w => some w
    | _, _ => none

def field (declared : String → List Schema → Option Schema) (f : CodecField) :
    Except DeclarationFault Field := do
  let t ← (← TypeExpr.parse f.type).schema declared
  pure (if f.isSkipped then .skipped f.name t t.default else .of f.name t)

def fields (declared : String → List Schema → Option Schema) (items : FieldItems) :
    Except DeclarationFault (List Field) :=
  match CodecField.ofItems 0 items.fields with
  | .ok found => found.mapM (field declared)
  | .error e => .error (.grammatical e)

def schema (declared : String → List Schema → Option Schema) (d : Declaration)
    (arguments : List Schema) : Except DeclarationFault Schema := do
  let bound := d.parameters.zip arguments
  let known (name : String) (ts : List Schema) : Option Schema :=
    if ts.isEmpty then (bound.lookup name).or (declared name ts) else declared name ts
  let fullName :=
    if arguments.isEmpty then d.fullName else Schema.applied d.fullName (arguments.map (·.name))
  match d.item.body with
  | .struct items => do pure (.struct fullName items.style (← fields known items))
  | .enum alternatives => do
    let found ← alternatives.mapM fun a => do
      pure (Alternative.mk (plainName a.word) a.fields.style (← fields known a.fields))
    pure (.enum fullName d.item.word found)
  | .union => throw (.grammatical (.union "Shape" ""))

end Declaration

/-- Declared types: schemas under their full names, and items. -/
structure Catalogue where
  /-- Full names, by the names that expressions use. -/
  names : List (String × String) := []
  family : Family := []
  declarations : List Declaration := []

namespace Catalogue

/-- The type that a name and arguments stand for: a type without parameters by reference, and one
with parameters written out, at most `depth` of them in each other. -/
def declared? (c : Catalogue) : (depth : Nat) → String → List Schema → Option Schema
  | 0, _, _ => none
  | depth + 1, name, arguments =>
    match c.names.lookup name, c.declarations.find? (·.name == name) with
    | some fullName, _ => some (.reference fullName)
    | none, some d =>
      if d.parameters.isEmpty && arguments.isEmpty then some (.reference d.fullName)
      else if d.parameters.length = arguments.length then
        (d.schema (c.declared? depth) arguments).toOption
      else none
    | none, none => none

def maxDepth (c : Catalogue) : Nat := c.declarations.length + 1

def toFamily (c : Catalogue) : Family :=
  c.family ++ c.declarations.filterMap fun d =>
    if d.parameters.isEmpty then
      (d.schema (c.declared? c.maxDepth) []).toOption.map fun t => (d.fullName, t)
    else none

def schema (c : Catalogue) (text : String) : Except DeclarationFault Schema :=
  match lex text with
  | .error fault => .error (.lexical fault)
  | .ok tokens => do (← TypeExpr.parse tokens).schema (c.declared? c.maxDepth)

def declareUpTo (qualify : String → String) :
    (most : Nat) → List Token → Catalogue → Except DeclarationFault Catalogue
  | 0, _, c => .ok c
  | _, [], c => .ok c
  | most + 1, tokens, c =>
    match Parse.item.run { tokens } with
    | .ok (item, left) =>
      let d : Declaration := ⟨plainName item.word, qualify (plainName item.word), item⟩
      declareUpTo qualify most left.tokens { c with declarations := c.declarations ++ [d] }
    | .error e => .error (.grammatical e)

def declare (c : Catalogue) (qualify : String → String) (text : String) :
    Except DeclarationFault Catalogue :=
  match lex text with
  | .error fault => .error (.lexical fault)
  | .ok tokens => declareUpTo qualify tokens.length tokens c

end Catalogue
end RecordCodec.Code
