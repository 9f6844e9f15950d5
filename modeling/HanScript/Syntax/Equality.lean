-- When two trees are the same: node by node of the same kind with the same
-- parts, wherever they stand in their sources.
import HanScript.Syntax.Node

namespace HanScript

namespace Node

mutual

/-- The two trees differ at most in their spans and in how literals write their values. -/
def same : Node → Node → Bool
  | absent, n => match n with
    | absent => true
    | _ => false
  | unknown _ kind, n => match n with
    | unknown _ kind' => kind == kind'
    | _ => false
  | program _ body, n => match n with
    | program _ body' => sameList body body'
    | _ => false
  | identifier _ name, n => match n with
    | identifier _ name' => name == name'
    | _ => false
  | arrayPattern _ elements, n => match n with
    | arrayPattern _ elements' => sameList elements elements'
    | _ => false
  | declarator _ target initial, n => match n with
    | declarator _ target' initial' => same target target' && same initial initial'
    | _ => false
  | declaration _ keyword declarators, n => match n with
    | declaration _ keyword' declarators' =>
      keyword == keyword' && sameList declarators declarators'
    | _ => false
  | block _ body, n => match n with
    | block _ body' => sameList body body'
    | _ => false
  | function _ name params body, n => match n with
    | function _ name' params' body' =>
      same name name' && sameList params params' && same body body'
    | _ => false
  | ifElse _ test consequent alternate, n => match n with
    | ifElse _ test' consequent' alternate' =>
      same test test' && same consequent consequent' && same alternate alternate'
    | _ => false
  | whileLoop _ test body, n => match n with
    | whileLoop _ test' body' => same test test' && same body body'
    | _ => false
  | forLoop _ initial test update body, n => match n with
    | forLoop _ initial' test' update' body' =>
      same initial initial' && same test test' && same update update' && same body body'
    | _ => false
  | returning _ argument, n => match n with
    | returning _ argument' => same argument argument'
    | _ => false
  | breaking _, n => match n with
    | breaking _ => true
    | _ => false
  | continuing _, n => match n with
    | continuing _ => true
    | _ => false
  | importSpecifier _ imported localName, n => match n with
    | importSpecifier _ imported' localName' =>
      same imported imported' && same localName localName'
    | _ => false
  | importing _ specifiers source, n => match n with
    | importing _ specifiers' source' => sameList specifiers specifiers' && same source source'
    | _ => false
  | exporting _ exported isDefault, n => match n with
    | exporting _ exported' isDefault' => same exported exported' && isDefault == isDefault'
    | _ => false
  | expressionStatement _ expression, n => match n with
    | expressionStatement _ expression' => same expression expression'
    | _ => false
  | literal _ value raw template, n => match n with
    | literal _ value' raw' template' =>
      value.same value' && raw == raw' && template == template'
    | _ => false
  | binary _ operator left right, n => match n with
    | binary _ operator' left' right' =>
      operator == operator' && same left left' && same right right'
    | _ => false
  | unary _ operator argument before, n => match n with
    | unary _ operator' argument' before' =>
      operator == operator' && same argument argument' && before == before'
    | _ => false
  | assignment _ operator left right, n => match n with
    | assignment _ operator' left' right' =>
      operator == operator' && same left left' && same right right'
    | _ => false
  | conditional _ test consequent alternate, n => match n with
    | conditional _ test' consequent' alternate' =>
      same test test' && same consequent consequent' && same alternate alternate'
    | _ => false
  | call _ callee arguments, n => match n with
    | call _ callee' arguments' => same callee callee' && sameList arguments arguments'
    | _ => false
  | member _ owner field computed, n => match n with
    | member _ owner' field' computed' =>
      same owner owner' && same field field' && computed == computed'
    | _ => false
  | array _ elements, n => match n with
    | array _ elements' => sameList elements elements'
    | _ => false
  | property _ key value, n => match n with
    | property _ key' value' => same key key' && same value value'
    | _ => false
  | object _ properties, n => match n with
    | object _ properties' => sameList properties properties'
    | _ => false
  | tagName _ name, n => match n with
    | tagName _ name' => name == name'
    | _ => false
  | tagMember _ owner field, n => match n with
    | tagMember _ owner' field' => same owner owner' && same field field'
    | _ => false
  | container _ expression, n => match n with
    | container _ expression' => same expression expression'
    | _ => false
  | tagAttribute _ name value, n => match n with
    | tagAttribute _ name' value' => same name name' && same value value'
    | _ => false
  | markupText _ value, n => match n with
    | markupText _ value' => value == value'
    | _ => false
  | element _ name attributes children selfClosing, n => match n with
    | element _ name' attributes' children' selfClosing' =>
      same name name' && sameList attributes attributes' && sameList children children'
        && selfClosing == selfClosing'
    | _ => false
  | fragment _ children, n => match n with
    | fragment _ children' => sameList children children'
    | _ => false

/-- The two lists have the same trees in the same order. -/
def sameList : List Node → List Node → Bool
  | [], [] => true
  | n :: ns, m :: ms => same n m && sameList ns ms
  | _, _ => false

end

end Node

/-- Two names are the same text or the same tree. -/
def Name.same : Name → Name → Bool
  | text s, text t => s == t
  | node n, node m => n.same m
  | _, _ => false

end HanScript
