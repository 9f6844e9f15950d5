-- The rules of statements and of whole programs. A semicolon may be left out
-- before a closing brace and at the end.
import HanScript.Parser.Expression

namespace HanScript

namespace Parser

/-- A semicolon, or nothing before a closing brace and at the end. -/
def terminator : Parser Unit := do
  if ← accept .semicolon then return ()
  else if ← isAtAny [.rightBrace, .eof] then return ()
  else
    let _ ← expect .semicolon

/-! ## Declarations -/

/-- A pattern of names and holes in brackets. -/
def arrayPattern : Parser Node := do
  let (span, elements) ← Rule.bracketed identifier
  return .arrayPattern span elements

/-- What a declaration gives a value to. -/
def declared : Parser Node := do
  if ← isAt .leftBracket then arrayPattern else identifier

/-- The value that it gives, if there is one. -/
def initializer : Parser Node := do
  if ← accept .assign then expression else return .absent

def declarator : Parser Node := do
  let first ← peek
  let target ← declared
  let initial ← initializer
  let span ← spanFrom first.span
  return .declarator span target initial

/-- Declared names without the terminator, as they also stand in the head of a loop. -/
def declaration : Parser Node := do
  let token ← advance
  let declarators ← separated declarator
  let span ← spanFrom token.span
  return .declaration span (if token.kind = .constWord then "const" else "let") declarators

/-! ## Statements without statements inside -/

/-- What is returned, if it is not left out. -/
def returned : Parser Node := do
  if ← isAtAny [.semicolon, .rightBrace, .eof] then return .absent else expression

def returning : Parser Node := do
  let token ← advance
  let argument ← returned
  terminator
  let span ← spanFrom token.span
  return .returning span argument

/-- A statement of one word. -/
def single (node : Span → Node) : Parser Node := do
  let token ← advance
  terminator
  let span ← spanFrom token.span
  return node span

/-- An imported name, which is also its name here. -/
def importSpecifier : Parser Node := do
  let name ← identifier
  let span ← spanFrom name.span
  return .importSpecifier span name name

def importing : Parser Node := do
  let token ← advance
  let _ ← expect .leftBrace
  let specifiers ← listUntil .rightBrace importSpecifier
  let _ ← expect .rightBrace
  let _ ← expect .fromWord
  let source ← expect .string
  let sourceSpan ← spanFrom source.span
  terminator
  let span ← spanFrom token.span
  return .importing span specifiers (.literal sourceSpan (.text source.value) source.value false)

def expressionStatement : Parser Node := do
  let e ← expression
  terminator
  let span ← spanFrom e.span
  return .expressionStatement span e

/-! ## Statements with statements inside -/

/-- The rules that statements lead back to, as they stand one level further in. -/
structure InnerStatement where
  statement : Parser Node
  ifElse : Parser Node

namespace Rule

def block (inner : InnerStatement) : Parser Node := do
  let first ← expect .leftBrace
  let body ← manyWhile (isNotAtAny [.rightBrace, .eof]) inner.statement
  let _ ← expect .rightBrace
  let span ← spanFrom first.span
  return .block span body

def function (inner : InnerStatement) : Parser Node := do
  let token ← advance
  let name ← identifier
  let _ ← expect .leftParen
  let params ← separatedUntil .rightParen identifier
  let _ ← expect .rightParen
  let body ← block inner
  let span ← spanFrom token.span
  return .function span name params body

/-- An expression in parentheses, which decides how a statement goes on. -/
def condition : Parser Node := do
  let _ ← expect .leftParen
  let test ← expression
  let _ ← expect .rightParen
  return test

/-- The other way that an `if` can go on. It belongs to the nearest one. -/
def alternate (inner : InnerStatement) : Parser Node := do
  if ← isAt .elseIfWord then inner.ifElse
  else if ← accept .elseWord then inner.statement
  else return .absent

/-- An `if`, or the `else if` of another. -/
def ifElse (inner : InnerStatement) : Parser Node := do
  let token ← advance
  let test ← condition
  let consequent ← inner.statement
  let other ← alternate inner
  let span ← spanFrom token.span
  return .ifElse span test consequent other

def whileLoop (inner : InnerStatement) : Parser Node := do
  let token ← advance
  let test ← condition
  let body ← inner.statement
  let span ← spanFrom token.span
  return .whileLoop span test body

/-- An expression, unless the token that ends it comes at once. -/
def optional (close : TokenKind) : Parser Node := do
  if ← isAt close then return .absent else expression

/-- What a loop begins with. -/
def initialPart : Parser Node := do
  if ← isAtAny [.letWord, .constWord] then declaration else optional .semicolon

def forLoop (inner : InnerStatement) : Parser Node := do
  let token ← advance
  let _ ← expect .leftParen
  let initial ← initialPart
  let _ ← expect .semicolon
  let test ← optional .semicolon
  let _ ← expect .semicolon
  let update ← optional .rightParen
  let _ ← expect .rightParen
  let body ← inner.statement
  let span ← spanFrom token.span
  return .forLoop span initial test update body

def exporting (inner : InnerStatement) : Parser Node := do
  let token ← advance
  let isDefault ← accept .defaultWord
  let exported ← inner.statement
  let span ← spanFrom token.span
  return .exporting span exported isDefault

def statement (inner : InnerStatement) : Parser Node := do
  let token ← peek
  match token.kind with
  | .letWord | .constWord =>
    let node ← declaration
    terminator
    return node
  | .functionWord | .componentWord => function inner
  | .leftBrace => block inner
  | .ifWord => ifElse inner
  | .whileWord => whileLoop inner
  | .forWord => forLoop inner
  | .returnWord => returning
  | .breakWord => single .breaking
  | .continueWord => single .continuing
  | .importWord => importing
  | .exportWord => exporting inner
  | _ => expressionStatement

end Rule

/-- The rules of statements with one level further in for each item of the budget. -/
def innerStatement : List Token → InnerStatement
  | [] => ⟨misfit .overrun, misfit .overrun⟩
  | _ :: budget =>
    { statement := fun c => Rule.statement (innerStatement budget) c
      ifElse := fun c => Rule.ifElse (innerStatement budget) c }

/-- A rule of statements with as many levels further in as tokens from here on. -/
def nestedStatement (rule : InnerStatement → Parser Node) : Parser Node := fun c =>
  rule (innerStatement c.budget) c

def statement : Parser Node := nestedStatement Rule.statement

/-! ## Programs -/

/-- Statements up to the end. -/
def program : Parser Node := do
  let first ← peek
  let body ← manyWhile (isNotAt .eof) statement
  let span ← spanFrom first.span
  return .program span body

end Parser

/-- The program that a list of tokens forms. -/
def parse (tokens : List Token) : Except ParseError Node :=
  (Parser.program (Cursor.ofTokens tokens)).1

end HanScript
