import RecordCodec.Code.ExpressionParser

/-! # Types and bounds

The tokens of a type or a bound, which end where its grammar does, so that a missing comma is told
from a longer type. Types nest, and every level takes a token at least: the number of tokens bounds
the depth.
-/
namespace RecordCodec.Code

/-- The ways in which a type is written, as far as what may follow depends on them. -/
inductive TypeForm where
  | name
  | path
  /-- A single bound without a keyword. -/
  | bound
  | parenthesized
  | other
deriving DecidableEq, Repr

structure TypeTokens where
  tokens : List Token
  form : TypeForm := .other

inductive InParentheses where
  /-- A tuple or an object: no sum of bounds begins with it. -/
  | closed (form : TypeForm)
  /-- A bound, with which a sum may begin anywhere. -/
  | bound
  /-- A type, with which a sum may begin where sums are allowed. -/
  | type (form : TypeForm)

structure BoundTokens where
  tokens : List Token
  hasTrait : Bool

/-- Which bounds are allowed beside lifetimes and traits. -/
structure BoundPlace where
  captures : Bool
  constants : Bool

namespace BoundPlace

def object : BoundPlace := ⟨false, false⟩

def parameter : BoundPlace := ⟨false, true⟩

def anonymous : BoundPlace := ⟨true, true⟩

end BoundPlace

namespace Parse

def typeStarts : List String :=
  ["`for`", "parentheses", "`fn`", "`unsafe`", "`extern`", "identifier", "`::`", "`<`", "`dyn`",
    "square brackets", "`*`", "`&`", "`!`", "`impl`", "`_`", "lifetime"]

def boundTypeStarts : List String :=
  ["identifier", "`fn`", "`unsafe`", "`extern`", "`super`", "`self`", "`Self`", "`crate`"]

def angleEnds : Parse Bool := nextOperator ">"

def constantArgument (types : TypeRules) : Parse (List Token) := do
  let literal ← optionalLiteral
  if !literal.isEmpty then pure literal
  else if ← next isIdentifier then advance
  else if ← next (isGroup .braces) then block (← expressionRules types) true
  else expected []

def nextConstant : Parse Bool := do pure ((← nextLiteral) || (← next (isGroup .braces)))

def startsBound (place : BoundPlace) (t : Token) : Bool :=
  match t with
  | .word _ | .lifetime _ | .group .parentheses _ => true
  | .group .brackets _ => place.constants
  | _ => (t.behind? "::").isSome || (t.behind? "?").isSome

/-- Takes further bounds, each behind a plus sign and as long as one can begin; at most `most` of
them. -/
def moreBounds (sums : Bool) (place : BoundPlace) (item : Parse BoundTokens) :
    (most : Nat) → Parse BoundTokens
  | 0 => pure ⟨[], false⟩
  | most + 1 => do
    let plus ← if sums then optionalOperator "+" else pure []
    if plus.isEmpty || !(← next (startsBound place)) then pure ⟨plus, false⟩
    else
      let first ← item
      let rest ← moreBounds sums place item most
      pure ⟨plus ++ first.tokens ++ rest.tokens, first.hasTrait || rest.hasTrait⟩

def everyBound (item : Parse BoundTokens) : (most : Nat) → Parse (List Token)
  | 0 => pure []
  | most + 1 => do
    let plus ← optionalOperator "+"
    if plus.isEmpty then pure []
    else
      let first ← item
      pure (plus ++ first.tokens ++ (← everyBound item most))

def boundSum (sums : Bool) (place : BoundPlace) (item : Parse BoundTokens) : Parse BoundTokens := do
  let first ← item
  let rest ← moreBounds sums place item (← enough)
  pure ⟨first.tokens ++ rest.tokens, first.hasTrait || rest.hasTrait⟩

def captured : (most : Nat) → Parse (List Token)
  | 0 => pure []
  | most + 1 => do
    if ← next fun t => isLifetime t || isIdentifier t || t.isWord "Self" then
      let name ← advance
      let comma ← optionalOperator ","
      if !comma.isEmpty then pure (name ++ comma ++ (← captured most))
      else if ← angleEnds then pure name
      else expected ["`,`", "`>`"]
    else if ← angleEnds then pure []
    else expected ["lifetime", "identifier", "`>`"]

def capture : Parse (List Token) := do
  let keyword ← advance
  let opening ← operator "<"
  let names ← captured (← enough)
  pure (keyword ++ opening ++ names ++ (← operator ">"))

def inputsFollow (p : PathTokens) : Parse Bool := do
  pure (p.isBare &&
    ((← next (isGroup .parentheses)) || (← separatorThen (isGroup .parentheses))))

/-- Takes the inputs in parentheses behind a path and their result, and tells whether the path may
go on behind them. -/
def pathInputs (rules : TypeRules) (output : Parse (List Token × Bool)) (p : PathTokens) :
    Parse (PathTokens × Bool) := do
  let _ ← optionalOperator "::"
  let contents ← group .parentheses
  let inputs ← within .parentheses contents (commaTokens (rules.type true))
  let (result, goesOn) ← output
  pure (⟨p.names, [Token.group .parentheses inputs] ++ result, false, false, false⟩, goesOn)

def allInputs (rules : TypeRules) (output : Parse (List Token × Bool)) :
    (most : Nat) → PathTokens → Parse PathTokens
  | 0, p => pure p
  | most + 1, p => do
    if ← inputsFollow p then
      let (p, goesOn) ← pathInputs rules output p
      let p ← if goesOn then moreSegments rules false nameFollows (← enough) p else pure p
      allInputs rules output most p
    else pure p

def variadicFollows : Parse Bool := do
  if ← nextOperator "..." then pure true
  else
    match ← tokens with
    | t :: u :: ts =>
      let isName := isIdentifier t || t.isWord "_"
      let dots := ((u.behind? ":").getD []) ++ ts
      pure (isName && (u.behind? ":").isSome &&
        (dots.head?.bind (·.behind? "...")).isSome)
    | _ => pure false

def variadic : Parse (List Token) := do
  let name ← if ← nextOperator "..." then pure [] else do pure ((← advance) ++ (← operator ":"))
  let dots ← operator "..."
  pure (name ++ dots ++ (← optionalOperator ","))

/-- Takes an argument of a function type, which may have a name; the first one may be the function's
own subject. -/
def functionArgument (type : Parse (List Token)) (isFirst : Bool) : Parse (List Token) := do
  let isMutable ← do
    match ← tokens with
    | t :: u :: _ => pure (isFirst && t.isWord "mut" && u.isWord "self")
    | _ => pure false
  let mutability ← if isMutable then advance else pure []
  match ← tokens with
  | t :: u :: _ =>
    let isName := isIdentifier t || t.isWord "_" || (isFirst && t.isWord "self")
    if isName && (u.behind? ":").isSome && (u.behind? "::").isNone then
      let name ← advance
      let colon ← operator ":"
      pure (mutability ++ name ++ colon ++ (← type))
    else if isMutable then pure (mutability ++ (← advance))
    else type
  | _ => if isMutable then pure (mutability ++ (← advance)) else type

def functionArguments (attributes : Parse (List Token)) (type : Parse (List Token)) :
    (most : Nat) → (isFirst : Bool) → Parse (List Token)
  | 0, _ => pure []
  | most + 1, isFirst => do
    if ← atEnd then pure []
    else
      let before ← attributes
      if ← variadicFollows then pure (before ++ (← variadic))
      else
        let argument ← functionArgument type isFirst
        if ← atEnd then pure (before ++ argument)
        else
          let comma ← operator ","
          pure (before ++ argument ++ comma ++ (← functionArguments attributes type most false))

def parameterBoundsEnd : Parse Bool := do
  pure ((← atEnd) || (← nextOperator ",") || (← nextOperator ">") || (← nextOperator "="))

def lifetimeBoundsEnd : Parse Bool := do
  pure ((← atEnd) || (← nextOperator ",") || (← nextOperator ">"))

/-- Takes a generic parameter behind its attributes. In an item, a parameter may be a blank. -/
def genericParameter (types : TypeRules) (bounds : Parse (List Token)) (inItem : Bool)
    (attributes : List Attribute) : Parse GenericParameter := do
  match ← peek with
  | some (.lifetime name) =>
    let _ ← advance
    let colon ← optionalOperator ":"
    let found ← if colon.isEmpty then pure [] else summed lifetime lifetimeBoundsEnd (← enough)
    pure ⟨attributes, .lifetime name, .lifetime found, false⟩
  | some (.word "const") =>
    let _ ← advance
    let word ← identifier
    let _ ← operator ":"
    let found ← types.type true
    if !(← optionalOperator "=").isEmpty then
      let _ ← constantArgument types
    pure ⟨attributes, .word word, .const found, false⟩
  | _ =>
    if inItem && (← nextWord "_") then
      let _ ← advance
      pure ⟨attributes, .word "_", .type [], false⟩
    else
      if !(← next isIdentifier) then
        expected
          (if inItem then ["lifetime", "identifier", "`const`"]
          else ["identifier", "lifetime", "`const`"])
      let word ← identifier
      let colon ← optionalOperator ":"
      let found ← if colon.isEmpty then pure [] else bounds
      if !(← optionalOperator "=").isEmpty then
        let _ ← types.type true
      pure ⟨attributes, .word word, .type found, false⟩

mutual

/-- Takes a type, which may be a sum of bounds if `sums`. -/
def type (sums : Bool) : (depth : Nat) → Parse TypeTokens
  | 0 => expected typeStarts
  | depth + 1 => do
    let rules : TypeRules :=
      ⟨fun s => TypeTokens.tokens <$> type s depth, arguments depth, binder depth⟩
    let item := bound .object depth
    let lifetimes ← binder depth
    if !lifetimes.isEmpty then
      let follows (t : Token) : Bool :=
        isPathWord t || t.isWord "fn" || t.isWord "unsafe" || t.isWord "extern"
      if !(← next follows) then expected boundTypeStarts
    match ← peek with
    | some (.group .parentheses inner) =>
      let _ ← advance
      let (contents, found) ← within .parentheses inner (parenthesized depth)
      let first := [Token.group .parentheses contents]
      match found with
      | .closed form => pure ⟨first, form⟩
      | .bound =>
        let rest ← everyBound item (← enough)
        pure ⟨first ++ rest, if rest.isEmpty then .bound else .other⟩
      | .type form =>
        if sums && [.name, .path, .bound].contains form then
          let rest ← everyBound item (← enough)
          pure ⟨first ++ rest, if rest.isEmpty then .parenthesized else .other⟩
        else pure ⟨first, .parenthesized⟩
    | some (.group .brackets inner) =>
      let _ ← advance
      let contents ← within .brackets inner do
        let element ← rules.type true
        let separator ← optionalOperator ";"
        if separator.isEmpty then pure element
        else pure (element ++ separator ++ (← expression rules))
      pure ⟨[Token.group .brackets contents], .other⟩
    | some (.word "fn") | some (.word "unsafe") | some (.word "extern") =>
      pure ⟨lifetimes ++ (← functionType depth), .other⟩
    | some (.word "dyn") =>
      let keyword ← advance
      let star ← optionalOperator "*"
      pure ⟨keyword ++ star ++ (← object sums depth), .other⟩
    | some (.word "impl") =>
      let keyword ← advance
      let found ← boundSum sums .anonymous (bound .anonymous depth)
      if !found.hasTrait then throw .anonymousWithoutTrait
      pure ⟨keyword ++ found.tokens, .other⟩
    | some (.word "_") => pure ⟨← advance, .other⟩
    | some (.lifetime _) => pure ⟨← object true depth, .other⟩
    | some t =>
      if isPathWord t || (t.behind? "::").isSome || (t.behind? "<").isSome then
        let (isQualified, p) ← qualifiedPath rules false
        let p ← allInputs rules (output depth) (← enough) p
        if isQualified then pure ⟨p.tokens, .other⟩
        else if p.isPlain && (← nextInvocation) then pure ⟨p.tokens ++ (← invocation), .other⟩
        else
          let rest ← moreBounds sums .object item (← enough)
          let form : TypeForm :=
            if !rest.tokens.isEmpty then .other
            else if !lifetimes.isEmpty then .bound
            else if p.isName then .name else .path
          pure ⟨lifetimes ++ p.tokens ++ rest.tokens, form⟩
      else if (t.behind? "*").isSome then
        let star ← operator "*"
        let mark ← optional fun t => t.isWord "const" || t.isWord "mut"
        if mark.isEmpty then expected ["`const`", "`mut`"]
        pure ⟨star ++ mark ++ (← rules.type false), .other⟩
      else if (t.behind? "&").isSome then
        let mark ← operator "&"
        let name ← optional isLifetime
        let mutability ← optionalWord "mut"
        pure ⟨mark ++ name ++ mutability ++ (← rules.type false), .other⟩
      else if (t.behind? "!").isSome then pure ⟨← operator "!", .other⟩
      else expected typeStarts
    | none => expected typeStarts
termination_by structural depth => depth

def parenthesized : (depth : Nat) → Parse (List Token × InParentheses)
  | 0 => expected typeStarts
  | depth + 1 => do
    if ← atEnd then pure ([], .closed .other)
    else if ← next isLifetime then pure (← object true depth, .closed .parenthesized)
    else if ← nextOperator "?" then pure (← traitBound .object depth, .bound)
    else
      let first ← type true depth
      let comma ← optionalOperator ","
      if comma.isEmpty then pure (first.tokens, .type first.form)
      else
        let rest ← commaTokens (TypeTokens.tokens <$> type true depth)
        pure (first.tokens ++ comma ++ rest, .closed .other)
termination_by structural depth => depth

def object (sums : Bool) : (depth : Nat) → Parse (List Token)
  | 0 => expected ["identifier"]
  | depth + 1 => do
    let found ← boundSum sums .object (bound .object depth)
    if !found.hasTrait then throw .objectWithoutTrait
    pure found.tokens
termination_by structural depth => depth

def functionType : (depth : Nat) → Parse (List Token)
  | 0 => expected ["`fn`"]
  | depth + 1 => do
    let rules : TypeRules :=
      ⟨fun s => TypeTokens.tokens <$> type s depth, arguments depth, binder depth⟩
    let unsafety ← optionalWord "unsafe"
    let external ← optionalWord "extern"
    let isText (t : Token) : Bool :=
      match t with
      | .literal s => s.toList.head?.any fun c => c == '"' || c == 'r'
      | _ => false
    let convention ← if external.isEmpty then pure [] else optional isText
    let keyword ← optionalWord "fn"
    if keyword.isEmpty then expected ["`fn`"]
    let contents ← group .parentheses
    let inputs ← within .parentheses contents do
      let attributes : Parse (List Token) := do
        List.flatMap Attribute.tokens <$> attributesWith (expression rules)
      functionArguments attributes (rules.type true) (← enough) true
    let (result, _) ← output depth
    pure (unsafety ++ external ++ convention ++ keyword ++ [Token.group .parentheses inputs] ++
      result)
termination_by structural depth => depth

/-- Takes the result of a function, if one is told. The path of a function goes on behind no result,
or behind one in parentheses. -/
def output : (depth : Nat) → Parse (List Token × Bool)
  | 0 => pure ([], true)
  | depth + 1 => do
    let arrow ← optionalOperator "->"
    if arrow.isEmpty then pure ([], true)
    else
      let found ← type false depth
      pure (arrow ++ found.tokens, found.form = .parenthesized)
termination_by structural depth => depth

/-- Takes arguments in angle brackets, lifetimes first, and a separator before them. -/
def arguments : (depth : Nat) → Parse ArgumentTokens
  | 0 => expected ["`<`"]
  | depth + 1 => do
    let separator ← optionalOperator "::"
    let opening ← operator "<"
    let found ← listed (argument depth) angleEnds (← enough)
    let closing ← operator ">"
    let inOrder := Listed.inOrder <| found.map fun ((isLifetime, ts), comma) =>
      ⟨isLifetime, ts, comma⟩
    pure ⟨separator ++ opening ++ inOrder ++ closing, found.isEmpty⟩
termination_by structural depth => depth

/-- Takes an argument in angle brackets, and tells whether it is a lifetime. An argument is a
lifetime, a constant, a type, or a name with its type or its bounds. -/
def argument : (depth : Nat) → Parse (Bool × List Token)
  | 0 => expected typeStarts
  | depth + 1 => do
    let rules : TypeRules :=
      ⟨fun s => TypeTokens.tokens <$> type s depth, arguments depth, binder depth⟩
    let constant := constantArgument rules
    let isLifetime ← do
      match ← tokens with
      | .lifetime _ :: t :: _ => pure (t.behind? "+").isNone
      | ts => pure (ts.head?.any isLifetime)
    if isLifetime then pure (true, ← lifetime)
    else if ← nextConstant then pure (false, ← constant)
    else
      let first ← type true depth
      let equals ← if first.form = .name then optionalOperator "=" else pure []
      if !equals.isEmpty then
        let value ← if ← nextConstant then constant else rules.type true
        pure (false, first.tokens ++ equals ++ value)
      else
        let colon ← if first.form = .name then optionalOperator ":" else pure []
        if colon.isEmpty then pure (false, first.tokens)
        else
          let ends : Parse Bool := do pure ((← nextOperator ",") || (← nextOperator ">"))
          let found ← summed (BoundTokens.tokens <$> bound .parameter depth) ends (← enough)
          pure (false, first.tokens ++ colon ++ found)
termination_by structural depth => depth

def binder : (depth : Nat) → Parse (List Token)
  | 0 => pure []
  | depth + 1 => do
    let keyword ← optionalWord "for"
    if keyword.isEmpty then pure []
    else
      let opening ← operator "<"
      let found ← listed (parameter false depth) angleEnds (← enough)
      let closing ← operator ">"
      let parameters := found.map fun (p, comma) => (p.tokens, comma)
      pure (keyword ++ opening ++ listedTokens parameters ++ closing)
termination_by structural depth => depth

def parameter (inItem : Bool) : (depth : Nat) → Parse GenericParameter
  | 0 => expected ["identifier"]
  | depth + 1 => do
    let rules : TypeRules :=
      ⟨fun s => TypeTokens.tokens <$> type s depth, arguments depth, binder depth⟩
    let attributes ← attributesWith (expression rules)
    let bounds : Parse (List Token) := do
      summed (BoundTokens.tokens <$> bound .parameter depth) parameterBoundsEnd (← enough)
    genericParameter rules bounds inItem attributes
termination_by structural depth => depth

def bound (place : BoundPlace) : (depth : Nat) → Parse BoundTokens
  | 0 => expected ["identifier"]
  | depth + 1 => do
    match ← peek with
    | some (.lifetime _) => pure ⟨← advance, false⟩
    | some (.word "use") =>
      let found ← capture
      if !place.captures then throw (.misplaced "`use<...>` precise capturing syntax")
      pure ⟨found, false⟩
    | some (.group .parentheses inner) =>
      let _ ← advance
      let contents ← within .parentheses inner (traitBound place depth)
      pure ⟨[Token.group .parentheses contents], true⟩
    | _ => pure ⟨← traitBound place depth, true⟩
termination_by structural depth => depth

/-- Takes a bound that is a path, with the mark that makes it optional and the lifetimes that it
binds. -/
def traitBound (place : BoundPlace) : (depth : Nat) → Parse (List Token)
  | 0 => expected ["identifier"]
  | depth + 1 => do
    let rules : TypeRules :=
      ⟨fun s => TypeTokens.tokens <$> type s depth, arguments depth, binder depth⟩
    let before ← binder depth
    let constant ← do
      match ← peek with
      | some (.group .brackets inner) =>
        let _ ← advance
        let contents ← within .brackets inner do
          let keyword ← optionalWord "const"
          if keyword.isEmpty then expected ["`const`"]
          pure keyword
        if !place.constants then throw (.misplaced "`[const]`")
        pure [Token.group .brackets contents]
      | some (.word "const") =>
        let keyword ← advance
        if !place.constants then throw (.misplaced "`const`")
        pure keyword
      | _ => pure []
    let mark ← optionalOperator "?"
    let behind ← if before.isEmpty && !mark.isEmpty then binder depth else pure []
    let p ← path rules false
    let p ← if ← inputsFollow p then Prod.fst <$> pathInputs rules (output depth) p else pure p
    if !mark.isEmpty && !(before ++ behind).isEmpty then throw .optionalBinder
    pure (before ++ constant ++ mark ++ p.tokens)
termination_by structural depth => depth

end

/-- How deep the rules for types are applied in each other: no more than twenty take the same
token. -/
def typeDepth : Parse Nat := do pure (20 * (← enough))

def anyType : Parse (List Token) := do TypeTokens.tokens <$> type true (← typeDepth)

def anyExpression : Parse (List Token) := do
  let depth ← typeDepth
  expression ⟨fun s => TypeTokens.tokens <$> type s depth, arguments depth, binder depth⟩

def anyBinder : Parse (List Token) := do binder (← typeDepth)

def anyParameter : Parse GenericParameter := do parameter true (← typeDepth)

def bounds (ends : Parse Bool) : Parse (List Token) := do
  summed (BoundTokens.tokens <$> bound .parameter (← typeDepth)) ends (← enough)

end Parse
end RecordCodec.Code
