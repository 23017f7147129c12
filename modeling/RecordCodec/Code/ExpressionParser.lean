import RecordCodec.Code.OperatorParser
import RecordCodec.Code.StatementParser

/-! # Expressions

The tokens of an expression, which end where its grammar does: operands with what is applied to them
from behind, and operators between them. Every level takes a token at least: the number of tokens
bounds the depth.
-/
namespace RecordCodec.Code

namespace Parse

/-! ## What is applied from behind -/

/-- Takes what is applied to an operand from behind: calls, members, indices and marks; at most
`most` of them. -/
def trailersUpTo (rules : ExpressionRules) :
    (most : Nat) → ExpressionTokens → Parse ExpressionTokens
  | 0, e => pure e
  | most + 1, e => do
    match ← peek with
    | some (.group .parentheses inner) =>
      let _ ← advance
      let contents ← within .parentheses inner (commaTokens rules.value)
      trailersUpTo rules most ⟨e.tokens ++ [Token.group .parentheses contents], .other⟩
    | some (.group .brackets inner) =>
      let _ ← advance
      let contents ← within .brackets inner rules.value
      trailersUpTo rules most ⟨e.tokens ++ [Token.group .brackets contents], .other⟩
    | _ =>
      if e.form = .range then pure e
      else if ← nextOperator "?" then
        let mark ← operator "?"
        trailersUpTo rules most ⟨e.tokens ++ mark, .other⟩
      else if (← nextOperator ".") && !(← nextOperator "..") then
        let dot ← operator "."
        let (found, isName) ← accessPath
        let arguments ←
          if isName && (← nextOperator "::") then
            let arguments ← ArgumentTokens.tokens <$> rules.types.arguments
            if !(← next (isGroup .parentheses)) then expected ["parentheses"]
            pure arguments
          else pure []
        trailersUpTo rules most ⟨e.tokens ++ dot ++ found ++ arguments, .other⟩
      else pure e

def trailers (rules : ExpressionRules) (e : ExpressionTokens) : Parse ExpressionTokens := do
  trailersUpTo rules (← enough) e

/-! ## Blocks, loops and choices -/

def choiceUpTo (rules : ExpressionRules) : (most : Nat) → Parse (List Token)
  | 0 => expected ["`if`"]
  | most + 1 => do
    let keyword ← word "if"
    let condition ← rules.expression false
    let first := keyword ++ condition.tokens ++ (← block rules false)
    let other ← optionalWord "else"
    if other.isEmpty then pure first
    else if ← nextWord "if" then pure (first ++ other ++ (← choiceUpTo rules most))
    else if ← next (isGroup .braces) then pure (first ++ other ++ (← block rules false))
    else expected ["`if`", "curly braces"]

def loop (rules : ExpressionRules) : Parse (List Token) := do
  if ← nextWord "while" then
    let keyword ← advance
    let condition ← rules.expression false
    pure (keyword ++ condition.tokens ++ (← block rules true))
  else if ← nextWord "for" then
    let keyword ← advance
    let element ← alternatives (anyPattern rules)
    let middle ← word "in"
    let elements ← rules.expression false
    pure (keyword ++ element.tokens ++ middle ++ elements.tokens ++ (← block rules true))
  else
    let keyword ← word "loop"
    pure (keyword ++ (← block rules true))

def arms (rules : ExpressionRules) : (most : Nat) → Parse (List Token)
  | 0 => pure []
  | most + 1 => do
    if ← atEnd then pure []
    else
      let before ← rules.attributes
      let matched ← PatternTokens.tokens <$> alternatives (anyPattern rules)
      let guard ← optionalWord "if"
      let condition ← if guard.isEmpty then pure [] else rules.value
      let arrow ← operator "=>"
      let body ← rules.statement
      let comma ←
        if body.form != .block && !(← atEnd) then operator "," else optionalOperator ","
      pure (before ++ matched ++ guard ++ condition ++ arrow ++ body.tokens ++ comma ++
        (← arms rules most))

def matching (rules : ExpressionRules) : Parse (List Token) := do
  let keyword ← word "match"
  let subject ← rules.expression false
  let inner ← group .braces
  let contents ← within .braces inner do
    let marks ← rules.innerAttributes
    pure (marks ++ (← arms rules (← enough)))
  pure (keyword ++ subject.tokens ++ [Token.group .braces contents])

def nextBoundFunction : Parse Bool := do
  pure ((← nextWord "for") && (← second (Token.begins "<")) &&
    (← third fun t => isLifetime t || t.begins ">"))

def nextBlock : Parse Bool := do
  match ← peek with
  | some (.group .braces _) => pure true
  | some (.word w) =>
    if ["if", "while", "loop", "match", "unsafe"].contains w then pure true
    else if w == "for" then pure !(← nextBoundFunction)
    else if w == "try" || w == "const" then second (isGroup .braces)
    else pure false
  | _ => pure false

def blockExpression (rules : ExpressionRules) : Parse (List Token) := do
  if ← nextWord "if" then choiceUpTo rules (← enough)
  else if ← nextWord "match" then matching rules
  else if ← next fun t => ["while", "for", "loop"].any t.isWord then loop rules
  else if ← nextWord "try" then
    let keyword ← advance
    pure (keyword ++ (← block rules false))
  else
    let keyword ← optional fun t => t.isWord "unsafe" || t.isWord "const"
    pure (keyword ++ (← block rules true))

/-- Takes a loop or a block with a label. -/
def labelled (rules : ExpressionRules) : Parse (List Token) := do
  let label ← lifetime
  let colon ← operator ":"
  if ← next fun t => ["while", "for", "loop"].any t.isWord then
    pure (label ++ colon ++ (← loop rules))
  else if ← next (isGroup .braces) then pure (label ++ colon ++ (← block rules true))
  else expected ["loop or block expression"]

/-! ## Functions without a name -/

def functionInput (rules : ExpressionRules) : Parse (List Token) := do
  let before ← rules.attributes
  let found ← PatternTokens.tokens <$> anyPattern rules
  let colon ← optionalOperator ":"
  let type ← if colon.isEmpty then pure [] else rules.types.type true
  pure (before ++ found ++ colon ++ type)

def function (rules : ExpressionRules) (fields : Bool) : Parse (List Token) := do
  let binder ← rules.types.binder
  let constant ← optionalWord "const"
  let fixed ← optionalWord "static"
  let asynchronous ← optionalWord "async"
  let moving ← optionalWord "move"
  let opening ← operator "|"
  let inputs ← listed (functionInput rules) (nextOperator "|") (← enough)
  let closing ← operator "|"
  let head := binder ++ constant ++ fixed ++ asynchronous ++ moving ++ opening ++
    listedTokens inputs ++ closing
  let arrow ← optionalOperator "->"
  if arrow.isEmpty then pure (head ++ (← rules.expression fields).tokens)
  else
    let type ← rules.types.type true
    pure (head ++ arrow ++ type ++ (← block rules false))

def nextFunction : Parse Bool := do
  match ← peek with
  | some (.word w) =>
    if w == "move" || w == "static" then pure true
    else if w == "for" then nextBoundFunction
    else if w == "const" then pure !(← second (isGroup .braces))
    else if w == "async" then second fun t => t.begins "|" || t.isWord "move"
    else pure false
  | t => pure (t.any (Token.begins "|"))

/-! ## Operands -/

def nextExpression (fields : Bool) : Parse Bool := do
  let except (s : String) (others : List String) (t : Token) : Bool :=
    t.begins s && !others.any t.begins
  let begins (t : Token) : Bool :=
    match t with
    | .word _ | .literal _ | .lifetime _ | .group .parentheses _ | .group .brackets _ => true
    | .group .braces _ => fields
    | t =>
      except "!" ["!="] t || except "-" ["-=", "->"] t || except "*" ["*="] t ||
        except "|" ["|="] t || except "&" ["&="] t || t.begins ".." ||
        except "<" ["<=", "<<="] t || t.begins "::" || t.begins "#"
  next begins

/-- Takes what leaves a loop: its keyword, a label and a value. -/
def leaving (rules : ExpressionRules) (fields : Bool) : Parse (List Token) := do
  let keyword ← word "break"
  let label ← if ← second (Token.begins ":") then pure [] else optional isLifetime
  if label.isEmpty && (← next isLifetime) then
    let _ ← rules.expression true
    throw .parenthesesRequired
  let value ← if ← nextExpression fields then rules.value else pure []
  pure (keyword ++ label ++ value)

def returning (rules : ExpressionRules) : Parse (List Token) := do
  let keyword ← advance
  let value ← if ← nextExpression true then rules.value else pure []
  pure (keyword ++ value)

/-- Takes the tokens that an operation takes, as they stand. -/
def verbatim (operation : Parse (List Token)) : Parse (List Token) := do
  let before ← tokens
  let _ ← operation
  pure (before.take (before.length - (← tokens).length))

def elements (rules : ExpressionRules) : Parse (List Token) := do
  if ← atEnd then pure []
  else
    let first ← rules.value
    let semicolon ← optionalOperator ";"
    if !semicolon.isEmpty then pure (first ++ semicolon ++ (← rules.value))
    else if ← atEnd then pure first
    else
      let comma ← optionalOperator ","
      if comma.isEmpty then expected ["`,` or `;`"]
      pure (first ++ comma ++ (← commaTokens rules.value))

def fieldValues (rules : ExpressionRules) : (most : Nat) → Parse (List Token)
  | 0 => pure []
  | most + 1 => do
    if ← atEnd then pure []
    else
      if ← nextOperator ".." then
        let dots ← operator ".."
        if ← atEnd then pure dots else pure (dots ++ (← rules.value))
      else
        let before ← rules.attributes
        let (name, isName) ← member
        let value ←
          if !isName || (← nextOperator ":") then do
            let colon ← operator ":"
            pure (colon ++ (← rules.value))
          else pure []
        let comma ← if ← atEnd then pure [] else operator ","
        pure (before ++ name ++ value ++ comma ++ (← fieldValues rules most))

/-- Takes an operand that begins with a path: the path, a call by name, or a value with its
fields. -/
def pathOperand (rules : ExpressionRules) (fields : Bool) : Parse ExpressionTokens := do
  let (isQualified, p) ← qualifiedPath rules.types true
  if !isQualified && p.isPlain && (← nextInvocation) then
    let call ← invocation
    pure ⟨p.tokens ++ call, if endsInBraces call then .braced else .other⟩
  else if fields && (← next (isGroup .braces)) then
    let inner ← group .braces
    let contents ← within .braces inner (do fieldValues rules (← enough))
    pure ⟨p.tokens ++ [Token.group .braces contents], .other⟩
  else pure ⟨p.tokens, .other⟩

def bindingCondition (rules : ExpressionRules) (fields : Bool) : Parse (List Token) := do
  let keyword ← word "let"
  let found ← alternatives (anyPattern rules)
  let equals ← operator "="
  let value ← operations rules fields .comparison (← rules.operand fields)
  pure (keyword ++ found.tokens ++ equals ++ value.tokens)

/-- Takes an operand that opens with a keyword of its own, if one does. -/
def keywordOperand? (rules : ExpressionRules) (fields : Bool) :
    Parse (Option (List Token)) := do
  match ← peek with
  | some (.word "break") => some <$> leaving rules fields
  | some (.word "continue") =>
    let keyword ← advance
    pure (some (keyword ++ (← optional isLifetime)))
  | some (.word "return") | some (.word "yield") => some <$> returning rules
  | some (.word "become") => some <$> verbatim do
      let keyword ← advance
      pure (keyword ++ (← rules.value))
  | some (.word "let") => some <$> bindingCondition rules fields
  | some (.word "_") => some <$> advance
  | some (.word "builtin") =>
    if ← second (Token.begins "#") then
      some <$> verbatim do
        let keyword ← advance
        let mark ← operator "#"
        let name ← identifier
        let inner ← group .parentheses
        pure (keyword ++ mark ++ [Token.word name, Token.group .parentheses inner])
    else pure none
  | some (.word "async") =>
    let moves ← second (·.isWord "move")
    if (← second (isGroup .braces)) || (moves && (← third (isGroup .braces))) then
      let keyword ← advance
      let moving ← optionalWord "move"
      pure (some (keyword ++ moving ++ (← block rules false)))
    else pure none
  | _ => pure none

def atom (rules : ExpressionRules) (fields : Bool) : Parse ExpressionTokens := do
  let literal ← optionalLiteral
  if !literal.isEmpty then pure ⟨literal, .other⟩
  else
    match ← keywordOperand? rules fields with
    | some found => pure ⟨found, .other⟩
    | none =>
      if ← nextBlock then pure ⟨← blockExpression rules, .block⟩
      else if ← nextFunction then pure ⟨← function rules fields, .other⟩
      else
        match ← peek with
        | some (.group .parentheses inner) =>
          let _ ← advance
          let contents ← within .parentheses inner (commaTokens rules.value)
          pure ⟨[Token.group .parentheses contents], .other⟩
        | some (.group .brackets inner) =>
          let _ ← advance
          let contents ← within .brackets inner (elements rules)
          pure ⟨[Token.group .brackets contents], .other⟩
        | some (.lifetime _) => pure ⟨← labelled rules, .block⟩
        | _ =>
          let isTry ← do
            pure ((← nextWord "try") &&
              (← second fun t => t.begins "!" || t.begins "::"))
          if isTry || (← next isPathWord) || (← nextOperator "::") || (← nextOperator "<") then
            pathOperand rules fields
          else if ← nextOperator ".." then
            let (dots, needsEnd) ← rangeOperator
            if !needsEnd && (← rangeEnds fields) then pure ⟨dots, .range⟩
            else
              let right ← rightOperand rules fields (4 * (← enough)) .range
              pure ⟨dots ++ right.tokens, .range⟩
          else expected ["an expression"]

/-- Takes the mark of a reference: one to a place as it is has a keyword behind it. -/
def referenceMark : Parse (List Token) := do
  let mark ← operator "&"
  let isRaw ← do
    pure ((← nextWord "raw") && (← second fun t => t.isWord "mut" || t.isWord "const"))
  let raw ← if isRaw then advance else pure []
  let mutability ← optionalWord "mut"
  let constant ← if isRaw && mutability.isEmpty then word "const" else pure []
  pure (mark ++ raw ++ mutability ++ constant)

def operand (rules : ExpressionRules) (fields : Bool) : Parse ExpressionTokens := do
  let before ← rules.attributes
  if ← nextOperator "&" then
    let mark ← referenceMark
    pure ⟨before ++ mark ++ (← rules.operand fields).tokens, .other⟩
  else
    match ← ["*", "!", "-"].findM? fun s => nextOperator s with
    | some s =>
      let mark ← operator s
      pure ⟨before ++ mark ++ (← rules.operand fields).tokens, .other⟩
    | none =>
      let found ← trailers rules (← atom rules fields)
      if !before.isEmpty && found.form = .range then throw .attributesOnRange
      pure ⟨before ++ found.tokens, found.form⟩

def wholeExpression (rules : ExpressionRules) (fields : Bool) : Parse ExpressionTokens := do
  operations rules fields .any (← operand rules fields)

/-- Takes an expression in the place of a statement: it ends behind a block, unless a member or a
mark is applied to the block. -/
def statementExpression (rules : ExpressionRules) : Parse ExpressionTokens := do
  let before ← rules.attributes
  let first ←
    if ← nextBlock then do pure ⟨← blockExpression rules, .block⟩
    else if ← next isLifetime then do pure ⟨← labelled rules, .block⟩
    else operand rules true
  let found : ExpressionTokens := ⟨before ++ first.tokens, first.form⟩
  if found.form != .block then operations rules true .any found
  else if ((← nextOperator ".") && !(← nextOperator "..")) || (← nextOperator "?") then
    operations rules true .any (← trailers rules found)
  else pure found

end Parse

/-- The rules for expressions whose parts nest at most `depth` deep. -/
def ExpressionRules.ofDepth (types : TypeRules) : (depth : Nat) → ExpressionRules
  | 0 =>
    ⟨types, fun _ => Parse.expected ["an expression"], fun _ => Parse.expected ["an expression"],
      Parse.expected ["an expression"]⟩
  | depth + 1 =>
    let inner := ExpressionRules.ofDepth types depth
    ⟨types, Parse.wholeExpression inner, Parse.operand inner, Parse.statementExpression inner⟩

namespace Parse

def expressionRules (types : TypeRules) : Parse ExpressionRules := do
  pure (.ofDepth types (2 * (← enough)))

def expression (types : TypeRules) : Parse (List Token) := do (← expressionRules types).value

end Parse
end RecordCodec.Code
