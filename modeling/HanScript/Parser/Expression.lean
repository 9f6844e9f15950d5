-- The rules of expressions and of markup, from the loosest binding to the
-- tightest. A rule that leads back to an outer one does so through `Inner`,
-- and only after it has moved on, so the depth is bounded by the tokens ahead.
import HanScript.Parser.Basic
import HanScript.Syntax.Node

namespace HanScript.Parser

/-! ## Names -/

def identifier : Parser Node := do
  let token ← expect .identifier
  let span ← spanFrom token.span
  return .identifier span token.value

/-- The name of a tag or of an attribute. -/
def tagWord : Parser Node := do
  let token ← expect .identifier
  let span ← spanFrom token.span
  return .tagName span token.value

/-- The name of a tag: words with points between them. -/
def tagName : Parser Node := do
  let first ← tagWord
  steps (fun name => do
    if ← accept .dot then
      let field ← tagWord
      let span ← spanFrom first.span
      return some (.tagMember span name field)
    else return none) first

/-! ## Literals -/

/-- Takes the current token as a literal. -/
def literal (value : Value) (template : Bool) : Parser Node := do
  let token ← advance
  let span ← spanFrom token.span
  return .literal span value token.value template

/-- What the numeral of a token is worth. -/
def numberOf (token : Token) : Parser Number :=
  match Numeral.value? token.value with
  | some n => pure n
  | none => fail (.atToken token (.badNumeral token.value))

/-- Takes the current token as a numeral. -/
def numeral : Parser Node := do
  let token ← advance
  let n ← numberOf token
  let span ← spanFrom token.span
  return .literal span (.number n) token.value false

/-! ## The rules -/

/-- The rules that others lead back to, as they stand one level further in. -/
structure Inner where
  assignment : Parser Node
  power : Parser Node
  unary : Parser Node
  markup : Parser Node

namespace Rule

/-- A comma for a hole, or an item with the comma after it. Before the closing bracket an
item has no need of one. -/
def slot (item : Parser Node) : Parser Node := do
  if ← accept .comma then return .absent
  else
    let element ← item
    if ← isAt .rightBracket then return element
    else
      let _ ← expect .comma
      return element

/-- Items in brackets, where a comma without an item before it makes a hole. -/
def bracketed (item : Parser Node) : Parser (Span × List Node) := do
  let first ← expect .leftBracket
  let elements ← manyWhile (isNotAt .rightBracket) (slot item)
  let _ ← expect .rightBracket
  let span ← spanFrom first.span
  return (span, elements)

def array (inner : Inner) : Parser Node := do
  let (span, elements) ← bracketed inner.assignment
  return .array span elements

def property (inner : Inner) : Parser Node := do
  let key ← identifier
  let _ ← expect .colon
  let value ← inner.assignment
  let span ← spanFrom key.span
  return .property span key value

def object (inner : Inner) : Parser Node := do
  let first ← expect .leftBrace
  let properties ← listUntil .rightBrace (property inner)
  let _ ← expect .rightBrace
  let span ← spanFrom first.span
  return .object span properties

/-- The arguments of a call, from after the opening parenthesis through the closing one. -/
def arguments (inner : Inner) : Parser (List Node) := do
  let items ← separatedUntil .rightParen inner.assignment
  let _ ← expect .rightParen
  return items

/-! ### Markup -/

/-- A `<` opens markup before a name, or before a `>`, which makes it a fragment. -/
def opensMarkup : Parser Bool := look fun c =>
  c.current.kind = .less && (c.next.kind = .identifier || c.next.kind = .greater)

/-- A fragment is closed by `<` and `/>`. -/
def isFragmentEnd (c : Cursor) : Bool := c.current.kind = .less && c.next.kind = .selfClose

def closesFragment : Parser Bool := look isFragmentEnd

/-- An expression in braces. -/
def container (inner : Inner) : Parser Node := do
  let first ← expect .leftBrace
  let expression ← inner.assignment
  let _ ← expect .rightBrace
  let span ← spanFrom first.span
  return .container span expression

/-- What an attribute is given after the equals sign. -/
def givenValue (inner : Inner) (name : String) : Parser Node := do
  let token ← peek
  match token.kind with
  | .string => literal (.text token.value) false
  | .leftBrace => container inner
  | _ => misfit (.badAttribute name)

/-- The value of an attribute, if it has one. -/
def attributeValue (inner : Inner) (name : String) : Parser Node := do
  if ← accept .assign then givenValue inner name else return .absent

def tagAttribute (inner : Inner) : Parser Node := do
  let token ← expect .identifier
  let nameSpan ← spanFrom token.span
  let value ← attributeValue inner token.value
  let span ← spanFrom token.span
  return .tagAttribute span (.tagName nameSpan token.value) value

/-- What stands between tags. Names and quoted texts are kept as text, and other tokens
mean nothing. -/
def child (inner : Inner) : Parser (Option Node) := do
  let token ← peek
  match token.kind with
  | .eof => misfit .unclosedMarkup
  | .identifier | .string =>
    let _ ← advance
    let span ← spanFrom token.span
    return some (.markupText span token.value)
  | .leftBrace => some <$> container inner
  | .less => some <$> inner.markup
  | _ =>
    let _ ← advance
    return none

/-- Nothing closes the markup here. -/
def insideMarkup : Parser Bool := look fun c => c.current.kind ≠ .closeTag && !isFragmentEnd c

/-- What stands between tags, up to the tag that closes them. -/
def children (inner : Inner) : Parser (List Node) := do
  let items ← manyWhile insideMarkup (child inner)
  return items.filterMap id

/-- The end of a fragment. -/
def fragmentEnd : Parser Unit := do
  if ← closesFragment then
    let _ ← advance
    let _ ← advance
  else
    let _ ← expect .closeTag
    let _ ← expect .greater

/-- An element or a fragment. The name of the closing tag is not compared with that of
the opening one. -/
def markup (inner : Inner) : Parser Node := do
  let opening ← expect .less
  if ← accept .greater then
    let items ← children inner
    fragmentEnd
    let span ← spanFrom opening.span
    return .fragment span items
  else
    let name ← tagName
    let attributes ← manyWhile (isAt .identifier) (tagAttribute inner)
    if ← accept .selfClose then
      let span ← spanFrom opening.span
      return .element span name attributes [] true
    else
      let _ ← expect .greater
      let items ← children inner
      let _ ← expect .closeTag
      let _ ← tagName
      let _ ← expect .greater
      let span ← spanFrom opening.span
      return .element span name attributes items false

/-! ### Operators -/

def primary (inner : Inner) : Parser Node := do
  let token ← peek
  match token.kind with
  | .number => numeral
  | .string => literal (.text token.value) false
  | .template => literal (.text token.value) true
  | .trueWord => literal (.truth true) false
  | .falseWord => literal (.truth false) false
  | .nullWord => literal .nothing false
  | .undefinedWord =>
    let _ ← advance
    let span ← spanFrom token.span
    return .identifier span "undefined"
  | .identifier => identifier
  | .leftBracket => array inner
  | .leftBrace => object inner
  | .leftParen =>
    let _ ← advance
    let expression ← inner.assignment
    let _ ← expect .rightParen
    return expression
  | _ => if ← opensMarkup then markup inner else misfit (.unexpected token.text)

/-- A call or a member of `owner`, if one follows. -/
def suffix (inner : Inner) (owner : Node) : Parser (Option Node) := do
  let token ← peek
  match token.kind with
  | .leftParen =>
    let _ ← advance
    let items ← arguments inner
    let span ← spanFrom owner.span
    return some (.call span owner items)
  | .dot =>
    let _ ← advance
    let field ← identifier
    let span ← spanFrom owner.span
    return some (.member span owner field false)
  | .leftBracket =>
    let _ ← advance
    let field ← inner.assignment
    let _ ← expect .rightBracket
    let span ← spanFrom owner.span
    return some (.member span owner field true)
  | _ => return none

def callMember (inner : Inner) : Parser Node := do
  let owner ← primary inner
  steps (suffix inner) owner

def unary (inner : Inner) : Parser Node := do
  if ← isAtAny [.minus, .plus, .logicalNot] then
    let token ← advance
    let argument ← inner.unary
    let span ← spanFrom token.span
    return .unary span token.value argument true
  else callMember inner

/-- Powers bind to the right. -/
def power (inner : Inner) : Parser Node := do
  let left ← unary inner
  if ← isAt .power then
    let token ← advance
    let right ← inner.power
    let span ← spanFrom left.span
    return .binary span token.value left right
  else return left

/-- Operands with operators between them, which bind to the left. -/
def leftChain (operators : List TokenKind) (operand : Parser Node) : Parser Node := do
  let first ← operand
  steps (fun left => do
    if ← isAtAny operators then
      let token ← advance
      let right ← operand
      let span ← spanFrom left.span
      return some (.binary span token.value left right)
    else return none) first

def multiplicative (inner : Inner) : Parser Node :=
  leftChain [.times, .divide, .modulo] (power inner)

def additive (inner : Inner) : Parser Node := leftChain [.plus, .minus] (multiplicative inner)

def relational (inner : Inner) : Parser Node :=
  leftChain [.greater, .less, .greaterEqual, .lessEqual] (additive inner)

def equality (inner : Inner) : Parser Node :=
  leftChain [.equal, .notEqual, .strictEqual, .strictNotEqual] (relational inner)

def logicalAnd (inner : Inner) : Parser Node := leftChain [.logicalAnd] (equality inner)

def logicalOr (inner : Inner) : Parser Node := leftChain [.logicalOr] (logicalAnd inner)

def conditional (inner : Inner) : Parser Node := do
  let test ← logicalOr inner
  if ← accept .question then
    let consequent ← inner.assignment
    let _ ← expect .colon
    let alternate ← inner.assignment
    let span ← spanFrom test.span
    return .conditional span test consequent alternate
  else return test

/-- Assignments bind to the right. -/
def assignment (inner : Inner) : Parser Node := do
  let left ← conditional inner
  if ← isAtAny [.assign, .plusAssign, .minusAssign, .timesAssign, .divideAssign, .moduloAssign] then
    let token ← advance
    let right ← inner.assignment
    let span ← spanFrom left.span
    return .assignment span token.value left right
  else return left

end Rule

/-! ## The rules at a depth -/

/-- The rules with one level further in for each item of the budget. -/
def inner : List Token → Inner
  | [] => ⟨misfit .overrun, misfit .overrun, misfit .overrun, misfit .overrun⟩
  | _ :: budget =>
    { assignment := fun c => Rule.assignment (inner budget) c
      power := fun c => Rule.power (inner budget) c
      unary := fun c => Rule.unary (inner budget) c
      markup := fun c => Rule.markup (inner budget) c }

/-- A rule with as many levels further in as tokens from here on. -/
def nested {α : Type} (rule : Inner → Parser α) : Parser α := fun c => rule (inner c.budget) c

/-- An expression. -/
def expression : Parser Node := nested Rule.assignment

end HanScript.Parser
