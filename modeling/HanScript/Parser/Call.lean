-- What can be asked of a parser, one call after the other: single steps, and
-- each rule on its own from wherever the cursor is.
import HanScript.Parser.Statement

namespace HanScript

namespace Parser

/-- The rules that can be asked for on their own. -/
inductive Goal where
  -- Statements
  | program | statement | declaration | declarator | arrayPattern | function | block | ifElse
  | whileLoop | forLoop | returning | importing | exporting | expressionStatement
  -- Expressions
  | expression | assignment | conditional | logicalOr | logicalAnd | equality | relational
  | additive | multiplicative | power | unary | callMember | arguments | primary | identifier
  | array | object
  -- Markup
  | markup | tagName | tagAttribute | container | children
deriving DecidableEq

/-- What a rule gives: a node, or some nodes. -/
inductive Yield where
  | node (n : Node)
  | nodes (ns : List Node)

/-- The rule that is asked for. -/
def Goal.parser : Goal → Parser Yield
  | .program => .node <$> Parser.program
  | .statement => .node <$> Parser.statement
  | .declaration => .node <$> Parser.declaration
  | .declarator => .node <$> Parser.declarator
  | .arrayPattern => .node <$> Parser.arrayPattern
  | .function => .node <$> nestedStatement Rule.function
  | .block => .node <$> nestedStatement Rule.block
  | .ifElse => .node <$> nestedStatement Rule.ifElse
  | .whileLoop => .node <$> nestedStatement Rule.whileLoop
  | .forLoop => .node <$> nestedStatement Rule.forLoop
  | .returning => .node <$> Parser.returning
  | .importing => .node <$> Parser.importing
  | .exporting => .node <$> nestedStatement Rule.exporting
  | .expressionStatement => .node <$> Parser.expressionStatement
  | .expression => .node <$> Parser.expression
  | .assignment => .node <$> nested Rule.assignment
  | .conditional => .node <$> nested Rule.conditional
  | .logicalOr => .node <$> nested Rule.logicalOr
  | .logicalAnd => .node <$> nested Rule.logicalAnd
  | .equality => .node <$> nested Rule.equality
  | .relational => .node <$> nested Rule.relational
  | .additive => .node <$> nested Rule.additive
  | .multiplicative => .node <$> nested Rule.multiplicative
  | .power => .node <$> nested Rule.power
  | .unary => .node <$> nested Rule.unary
  | .callMember => .node <$> nested Rule.callMember
  | .arguments => .nodes <$> nested Rule.arguments
  | .primary => .node <$> nested Rule.primary
  | .identifier => .node <$> Parser.identifier
  | .array => .node <$> nested Rule.array
  | .object => .node <$> nested Rule.object
  | .markup => .node <$> nested Rule.markup
  | .tagName => .node <$> Parser.tagName
  | .tagAttribute => .node <$> nested Rule.tagAttribute
  | .container => .node <$> nested Rule.container
  | .children => .nodes <$> nested Rule.children

/-- What can be asked of a parser. -/
inductive Call where
  | peek (offset : Int)
  | previous
  | advance
  | isAtAny (kinds : List TokenKind)
  | accept (kinds : List TokenKind)
  | expect (kind : TokenKind)
  | terminator
  | opensMarkup
  | closesFragment
  /-- The span of something that began at `first`. -/
  | spanFrom (first : Span)
  /-- An error in words of its own, about a token or else about the current one. It is made and
  not raised. -/
  | complaint (text : String) (about : Option Token)
  | numberOf (token : Token)
  | rule (goal : Goal)

/-- What is answered. -/
inductive Answer where
  | nothing
  | token (t : Token)
  | perhaps (t : Option Token)
  | truth (b : Bool)
  | span (s : Span)
  | error (e : ParseError)
  | number (n : Number)
  | yield (y : Yield)
  /-- What is looked at would be too far before the start. -/
  | beforeStart

/-- What is done for a call. -/
def Call.parser : Call → Parser Answer
  | .peek offset => look fun c => ((c.glance? offset).map Answer.token).getD .beforeStart
  | .previous => look fun c => .token c.previous
  | .advance => .token <$> Parser.advance
  | .isAtAny kinds => .truth <$> Parser.isAtAny kinds
  | .accept kinds => .perhaps <$> accept? kinds
  | .expect kind => .token <$> Parser.expect kind
  | .terminator => (fun _ => .nothing) <$> Parser.terminator
  | .opensMarkup => .truth <$> Rule.opensMarkup
  | .closesFragment => .truth <$> Rule.closesFragment
  | .spanFrom first => .span <$> Parser.spanFrom first
  | .complaint text about =>
    look fun c => .error (.atToken (about.getD c.current) (.complaint text))
  | .numberOf token => .number <$> Parser.numberOf token
  | .rule goal => .yield <$> goal.parser

end Parser

/-- The cursor after some calls. A call that fails leaves it where it was at that moment. -/
def Cursor.afterCalls (c : Cursor) (calls : List Parser.Call) : Cursor :=
  calls.foldl (fun c call => (call.parser c).2) c

end HanScript
