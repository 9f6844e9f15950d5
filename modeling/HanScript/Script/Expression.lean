-- The JavaScript text of expressions. Parentheses stand where the text would
-- be read as another tree without them. Markup becomes calls.
import HanScript.Script.Outline
import HanScript.Script.Precedence

namespace HanScript.Script

/-! ## Texts from the texts of the parts -/

/-- A binary expression. An operand that binds as tightly as the whole is put in
parentheses on the right, and for powers on the left. -/
def binaryText (operator : String) (l r : Node) (left right : String) : String :=
  let level := (operatorLevels.lookup operator).getD looseLevel
  let isPower := operator == "**"
  let wrapLeft := precedence l < level
    || isPower && (precedence l == level || (unaryOperator? l).isSome)
  let wrapRight := precedence r < level || precedence r == level && !isPower
  parenthesizedIf wrapLeft left ++ " " ++ operator ++ " " ++ parenthesizedIf wrapRight right

/-- A unary expression. Two signs that would run together are kept apart. -/
def unaryText (operator : String) (a : Node) (before : Bool) (argument : String) : String :=
  let isSign := operator == "-" || operator == "+"
  let wrap := precedence a < unaryLevel || isSign && unaryOperator? a == some operator
  let text := parenthesizedIf wrap argument
  if before then operator ++ text else text ++ operator

/-- What is called, or what a member is taken of. -/
def operandText (n : Node) (text : String) : String :=
  parenthesizedIf (precedence n < callLevel) text

/-- What is assigned to, or what a condition tests. -/
def looseText (n : Node) (text : String) : String :=
  parenthesizedIf (precedence n ≤ conditionalLevel) text

/-- The call that makes an element of markup. -/
def createElement (tag props : String) (children : List String) : String :=
  Target.javaScript.createElement ++ parenthesized (listed (tag :: props :: children))

/-- The name of a tag as a reference. -/
def reference : Node → Except RenderError String
  | .tagName _ name => .ok name
  | .tagMember _ owner field => do
    let path ← reference owner
    let name ← nameTextOf field
    return path ++ "." ++ name
  | n => .error (.unsupported n.kind)

/-- The name of a tag: a reference if it has points, and else a quoted text. -/
def tag : Node → Except RenderError String
  | .tagName _ name => .ok (quote name)
  | n => reference n

/-! ## Expressions -/

mutual

/-- An expression. -/
def expression : Node → Except RenderError String
  | .literal _ value raw isTemplate => literal value raw isTemplate
  | .identifier _ name => .ok name
  | .binary _ operator l r => do
    let left ← expression l
    let right ← expression r
    return binaryText operator l r left right
  | .unary _ operator a before => do
    let argument ← expression a
    return unaryText operator a before argument
  | .assignment _ operator l r => do
    let left ← expression l
    let right ← expression r
    return looseText l left ++ " " ++ operator ++ " " ++ right
  | .conditional _ t c a => do
    let test ← expression t
    let consequent ← expression c
    let alternate ← expression a
    return looseText t test ++ " ? " ++ consequent ++ " : " ++ alternate
  | .call _ callee arguments => do
    let items ← expressions arguments
    let text ← expression callee
    return operandText callee text ++ parenthesized (listed items)
  | .member _ owner field true => do
    let text ← expression owner
    let index ← expression field
    return operandText owner text ++ "[" ++ index ++ "]"
  | .member _ owner field false => do
    let text ← expression owner
    let bare ← isBareInteger owner
    let name ← expression field
    return parenthesizedIf bare (operandText owner text) ++ "." ++ name
  | .array _ items => do
    let texts ← slots items
    return elements texts
  | .object _ properties => do
    let texts ← pairs properties
    return braced "\x7b\x7d" texts
  | .element _ name attributes items _ => do
    let tag ← tag name
    let props ← props attributes
    let texts ← children items
    return createElement tag (braced "null" props) texts
  | .fragment _ items => do
    let texts ← children items
    return createElement Target.javaScript.fragment "null" texts
  | n => .error (.unsupported n.kind)

/-- Expressions one after the other. -/
def expressions : List Node → Except RenderError (List String)
  | [] => .ok []
  | n :: ns => do
    let text ← expression n
    let rest ← expressions ns
    return text :: rest

/-- The items of an array, of which some may be holes. -/
def slots : List Node → Except RenderError (List (Option String))
  | [] => .ok []
  | .absent :: ns => do
    let rest ← slots ns
    return none :: rest
  | n :: ns => do
    let text ← expression n
    let rest ← slots ns
    return some text :: rest

/-- The properties of an object. -/
def pairs : List Node → Except RenderError (List String)
  | [] => .ok []
  | .property _ key value :: ns => do
    let name ← nameTextOf key
    let text ← expression value
    let rest ← pairs ns
    return (name ++ ": " ++ text) :: rest
  | _ :: _ => .error .incomplete

/-- The attributes of a tag. An element has a name too, but it has no value. -/
def props : List Node → Except RenderError (List String)
  | [] => .ok []
  | .tagAttribute _ key value :: ns => do
    let name ← nameTextOf key
    let text ← propValue value
    let rest ← props ns
    return (name ++ ": " ++ text) :: rest
  | .element _ key _ _ _ :: _ => do
    let _ ← nameTextOf key
    .error .incomplete
  | _ :: _ => .error .incomplete

/-- The value of an attribute. One without a value is true. -/
def propValue : Node → Except RenderError String
  | .absent => .ok "true"
  | .literal _ value _ _ => do
    let text ← valueText value
    return quote text
  | .container _ e => expression e
  | n => .error (.unsupported n.kind)

/-- What stands between tags. -/
def children : List Node → Except RenderError (List String)
  | [] => .ok []
  | n :: ns => do
    let text ← child n
    let rest ← children ns
    return text :: rest

/-- One thing between tags. -/
def child : Node → Except RenderError String
  | .markupText _ value => .ok (quote value)
  | .container _ e => expression e
  | .element _ name attributes items _ => do
    let tag ← tag name
    let props ← props attributes
    let texts ← children items
    return createElement tag (braced "null" props) texts
  | .fragment _ items => do
    let texts ← children items
    return createElement Target.javaScript.fragment "null" texts
  | n => .error (.unsupported n.kind)

end

/-- An expression that is called, or that a member is taken of. -/
def operand (n : Node) : Except RenderError String := do
  let text ← expression n
  return operandText n text

/-- The attributes of a tag as an object. -/
def propsObject (attributes : List Node) : Except RenderError String := do
  let texts ← props attributes
  return braced "null" texts

/-- The call that makes an element of markup from a tag, its attributes and its content. -/
def elementCall (tag props : String) (items : List Node) : Except RenderError String := do
  let texts ← children items
  return createElement tag props texts

/-- An element of markup. Its name comes first, so it is what is missed or refused first in
nodes of other kinds. -/
def element : Node → Except RenderError String
  | n@(.element ..) => expression n
  | n => do
    match ← nameOf n with
    | .text _ => .error (.unsupported "str")
    | .node name =>
      let _ ← tag name
      .error .incomplete

/-- Between tags an element is what it is elsewhere. -/
theorem child_element (s : Span) (name : Node) (attributes items : List Node) (b : Bool) :
    child (.element s name attributes items b) = expression (.element s name attributes items b) :=
  rfl

theorem child_fragment (s : Span) (items : List Node) :
    child (.fragment s items) = expression (.fragment s items) := rfl

end HanScript.Script
