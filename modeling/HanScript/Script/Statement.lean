-- The JavaScript text of statements and of whole programs. Statements in a
-- block stand on lines of their own, one level further in.
import HanScript.Script.Expression
import HanScript.Syntax.Equality

namespace HanScript

namespace Script

/-! ## Declarations -/

/-- The name in a slot of a pattern, unless it is a hole. A name that is absent makes a
hole too. -/
def slotName? : Node → Except RenderError (Option Name)
  | .absent => .ok none
  | n => do
    match ← nameOf n with
    | .node .absent => return none
    | name => return some name

/-- What a declaration gives a value to. -/
def pattern : Node → Except RenderError String
  | .identifier _ name => .ok name
  | .arrayPattern _ items => do
    let names ← items.mapM slotName?
    let texts ← names.mapM fun name? => name?.mapM listedName
    return elements texts
  | n => .error (.unsupported n.kind)

/-- What is declared, and the value that it gets if there is one. A function declares a
name too, but it has no place for a value. -/
def declarator : Node → Except RenderError String
  | .declarator _ target initial => do
    let name ← pattern target
    if initial.isAbsent then return name
    else
      let value ← expression initial
      return name ++ " = " ++ value
  | .function _ name _ _ => do
    let _ ← pattern name
    .error .incomplete
  | _ => .error .incomplete

/-- A declaration without its semicolon. -/
def declaration : Node → Except RenderError String
  | .declaration _ keyword declarators => do
    let texts ← declarators.mapM declarator
    return keyword ++ " " ++ listed texts
  | _ => .error .incomplete

/-- An imported name, and its name here if that is another. -/
def importSpecifier : Node → Except RenderError Name
  | .importSpecifier _ imported localName => do
    let theirs ← nameOf imported
    let ours ← nameOf localName
    if theirs.same ours then return ours
    else
      let theirText ← nameText theirs
      let ourText ← nameText ours
      return .text (theirText ++ " as " ++ ourText)
  | _ => .error .incomplete

/-- Where something is imported from. -/
def importSource : Node → Except RenderError String
  | .literal _ (.text s) _ _ => .ok (quote s)
  | .markupText _ s => .ok (quote s)
  | _ => .error .incomplete

/-! ## The parts of a loop -/

/-- A part that may be left out. -/
def optional (n : Node) : Except RenderError String :=
  if n.isAbsent then .ok "" else expression n

/-- What a loop begins with. -/
def initialPart : Node → Except RenderError String
  | n@(.declaration ..) => declaration n
  | n => optional n

/-! ## Statements -/

mutual

/-- A statement without the indent of its first line. -/
def statement : Node → Int → Except RenderError String
  | n@(.declaration ..), _ => do
    let text ← declaration n
    return text ++ ";"
  | .function _ name params body, depth => do
    let names ← params.mapM nameOf
    let texts ← names.mapM listedName
    let own ← nameTextOf name
    let text ← statement body depth
    return "function " ++ own ++ parenthesized (listed texts) ++ " " ++ text
  | .block _ [], _ => .ok "\x7b\x7d"
  | .block _ body, depth => do
    let texts ← lines body (depth + 1)
    return "\x7b\n" ++ joined "\n" texts ++ "\n" ++ indent depth ++ "\x7d"
  | .ifElse _ t c .absent, depth => do
    let test ← expression t
    let consequent ← statement c depth
    return "if " ++ parenthesized test ++ " " ++ consequent
  | .ifElse _ t c a, depth => do
    let test ← expression t
    let consequent ← statement c depth
    let alternate ← statement a depth
    return "if " ++ parenthesized test ++ " " ++ consequent ++ " else " ++ alternate
  | .whileLoop _ t body, depth => do
    let test ← expression t
    let text ← statement body depth
    return "while " ++ parenthesized test ++ " " ++ text
  | .forLoop _ i t u body, depth => do
    let initial ← initialPart i
    let test ← optional t
    let update ← optional u
    let text ← statement body depth
    return "for " ++ parenthesized (joined "; " [initial, test, update]) ++ " " ++ text
  | .returning _ .absent, _ => .ok "return;"
  | .returning _ argument, _ => do
    let text ← expression argument
    return "return " ++ text ++ ";"
  | .breaking _, _ => .ok "break;"
  | .continuing _, _ => .ok "continue;"
  | .importing _ specifiers source, _ => do
    let names ← specifiers.mapM importSpecifier
    let texts ← names.mapM listedName
    let path ← importSource source
    return "import \x7b " ++ listed texts ++ " \x7d from " ++ path ++ ";"
  | .exporting _ exported isDefault, depth => do
    let text ← statement exported depth
    return (if isDefault then "export default " else "export ") ++ text
  | .expressionStatement _ e, _ => do
    let text ← expression e
    return parenthesizedIf (startsWithObject e) text ++ ";"
  | n, _ => .error (.unsupported n.kind)

/-- Statements at a depth, each with its indent. -/
def lines : List Node → Int → Except RenderError (List String)
  | [], _ => .ok []
  | n :: ns, depth => do
    let text ← statement n depth
    let rest ← lines ns depth
    return (indent depth ++ text) :: rest

end

theorem statement_ifElse (s : Span) (t c a : Node) (depth : Int) :
    statement (.ifElse s t c a) depth = do
      let test ← expression t
      let consequent ← statement c depth
      if a.isAbsent then return "if " ++ parenthesized test ++ " " ++ consequent
      else
        let alternate ← statement a depth
        return "if " ++ parenthesized test ++ " " ++ consequent ++ " else " ++ alternate := by
  cases a <;> rfl

theorem statement_returning (s : Span) (argument : Node) (depth : Int) :
    statement (.returning s argument) depth = do
      if argument.isAbsent then return "return;"
      else
        let text ← expression argument
        return "return " ++ text ++ ";" := by
  cases argument <;> rfl

/-- A statement with the indent of its first line. -/
def line (n : Node) (depth : Int) : Except RenderError String := do
  let text ← statement n depth
  return indent depth ++ text

end Script

/-- The JavaScript text of a program, or of the statements of a block. -/
def render : Node → Except RenderError String
  | .program _ body | .block _ body => do
    let texts ← Script.lines body 0
    return Script.joined "\n" texts
  | .function .. | .whileLoop .. | .forLoop .. => .error .bodyNotList
  | _ => .error .incomplete

end HanScript
