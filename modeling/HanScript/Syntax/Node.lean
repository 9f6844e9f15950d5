-- The tree of a program. Nodes made by hand may stand where they do not
-- belong, so there is one type of node, and every slot takes any of them.
import HanScript.Syntax.Value
import HanScript.Token

namespace HanScript

inductive Node where
  /-- No node: a part that is left out, or a hole in a list. -/
  | absent
  /-- A node of a kind that the language does not have. -/
  | unknown (span : Span) (kind : String)
  | program (span : Span) (body : List Node)
  -- Names and patterns
  | identifier (span : Span) (name : String)
  | arrayPattern (span : Span) (elements : List Node)
  -- Statements
  | declarator (span : Span) (target initial : Node)
  | declaration (span : Span) (keyword : String) (declarators : List Node)
  | block (span : Span) (body : List Node)
  | function (span : Span) (name : Node) (params : List Node) (body : Node)
  | ifElse (span : Span) (test consequent alternate : Node)
  | whileLoop (span : Span) (test body : Node)
  | forLoop (span : Span) (initial test update body : Node)
  | returning (span : Span) (argument : Node)
  | breaking (span : Span)
  | continuing (span : Span)
  | importSpecifier (span : Span) (imported localName : Node)
  | importing (span : Span) (specifiers : List Node) (source : Node)
  | exporting (span : Span) (exported : Node) (isDefault : Bool)
  | expressionStatement (span : Span) (expression : Node)
  -- Expressions
  | literal (span : Span) (value : Value) (raw : String) (template : Bool)
  | binary (span : Span) (operator : String) (left right : Node)
  /-- The operator stands before the argument if `before`, and else after it. -/
  | unary (span : Span) (operator : String) (argument : Node) (before : Bool)
  | assignment (span : Span) (operator : String) (left right : Node)
  | conditional (span : Span) (test consequent alternate : Node)
  | call (span : Span) (callee : Node) (arguments : List Node)
  /-- `owner[field]` if `computed`, and else `owner.field`. -/
  | member (span : Span) (owner field : Node) (computed : Bool)
  | array (span : Span) (elements : List Node)
  | property (span : Span) (key value : Node)
  | object (span : Span) (properties : List Node)
  -- Markup
  | tagName (span : Span) (name : String)
  | tagMember (span : Span) (owner field : Node)
  | container (span : Span) (expression : Node)
  | tagAttribute (span : Span) (name value : Node)
  | markupText (span : Span) (value : String)
  | element (span : Span) (name : Node) (attributes children : List Node) (selfClosing : Bool)
  | fragment (span : Span) (children : List Node)
deriving Inhabited

/-- What a node gives as its name: a text, or the node that stands for one. -/
inductive Name where
  | text (s : String)
  | node (n : Node)
deriving Inhabited

namespace Node

/-- The name of the kind of a node. -/
def kind : Node → String
  | absent => "NoneType"
  | unknown _ kind => kind
  | program .. => "Program"
  | identifier .. => "Identifier"
  | arrayPattern .. => "ArrayPattern"
  | declarator .. => "VariableDeclarator"
  | declaration .. => "VariableDeclaration"
  | block .. => "BlockStatement"
  | function .. => "FunctionDeclaration"
  | ifElse .. => "IfStatement"
  | whileLoop .. => "WhileStatement"
  | forLoop .. => "ForStatement"
  | returning .. => "ReturnStatement"
  | breaking .. => "BreakStatement"
  | continuing .. => "ContinueStatement"
  | importSpecifier .. => "ImportSpecifier"
  | importing .. => "ImportDeclaration"
  | exporting .. => "ExportDeclaration"
  | expressionStatement .. => "ExpressionStatement"
  | literal .. => "Literal"
  | binary .. => "BinaryExpression"
  | unary .. => "UnaryExpression"
  | assignment .. => "AssignmentExpression"
  | conditional .. => "ConditionalExpression"
  | call .. => "CallExpression"
  | member .. => "MemberExpression"
  | array .. => "ArrayExpression"
  | property .. => "Property"
  | object .. => "ObjectExpression"
  | tagName .. => "JSXIdentifier"
  | tagMember .. => "JSXMemberExpression"
  | container .. => "JSXExpressionContainer"
  | tagAttribute .. => "JSXAttribute"
  | markupText .. => "JSXText"
  | element .. => "JSXElement"
  | fragment .. => "JSXFragment"

/-- Where a node stands in the source. -/
def span : Node → Span
  | absent => {}
  | unknown s _ | program s _ | identifier s _ | arrayPattern s _ | declarator s _ _
  | declaration s _ _ | block s _ | function s _ _ _ | ifElse s _ _ _ | whileLoop s _ _
  | forLoop s _ _ _ _ | returning s _ | breaking s | continuing s | importSpecifier s _ _
  | importing s _ _ | exporting s _ _ | expressionStatement s _ | literal s _ _ _
  | binary s _ _ _ | unary s _ _ _ | assignment s _ _ _ | conditional s _ _ _ | call s _ _
  | member s _ _ _ | array s _ | property s _ _ | object s _ | tagName s _ | tagMember s _ _
  | container s _ | tagAttribute s _ _ | markupText s _ | element s _ _ _ _ | fragment s _ => s

/-- Nothing stands here. -/
def isAbsent : Node → Bool
  | absent => true
  | _ => false

/-- The name of a node, if nodes of its kind have one. -/
def name? : Node → Option Name
  | identifier _ name | tagName _ name => some (.text name)
  | tagAttribute _ name _ | element _ name _ _ _ => some (.node name)
  | _ => none

/-- The statements of a program. -/
def statements : Node → List Node
  | program _ body => body
  | _ => []

end Node

end HanScript
