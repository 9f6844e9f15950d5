-- Trees made anew: one node from other parts, and from there whole trees in which
-- every node is replaced by what a function makes of it.
import HanScript.Syntax.Node

namespace HanScript.Node

/-- The node with other parts, and with another span. -/
def rebuilt (g : Span → Span) (f : Node → Node) : Node → Node
  | absent => absent
  | unknown s kind => unknown (g s) kind
  | program s body => program (g s) (body.map f)
  | identifier s name => identifier (g s) name
  | arrayPattern s elements => arrayPattern (g s) (elements.map f)
  | declarator s target initial => declarator (g s) (f target) (f initial)
  | declaration s keyword declarators => declaration (g s) keyword (declarators.map f)
  | block s body => block (g s) (body.map f)
  | function s name params body => function (g s) (f name) (params.map f) (f body)
  | ifElse s test consequent alternate => ifElse (g s) (f test) (f consequent) (f alternate)
  | whileLoop s test body => whileLoop (g s) (f test) (f body)
  | forLoop s initial test update body => forLoop (g s) (f initial) (f test) (f update) (f body)
  | returning s argument => returning (g s) (f argument)
  | breaking s => breaking (g s)
  | continuing s => continuing (g s)
  | importSpecifier s imported localName => importSpecifier (g s) (f imported) (f localName)
  | importing s specifiers source => importing (g s) (specifiers.map f) (f source)
  | exporting s exported isDefault => exporting (g s) (f exported) isDefault
  | expressionStatement s e => expressionStatement (g s) (f e)
  | literal s value raw template => literal (g s) value raw template
  | binary s operator left right => binary (g s) operator (f left) (f right)
  | unary s operator argument before => unary (g s) operator (f argument) before
  | assignment s operator left right => assignment (g s) operator (f left) (f right)
  | conditional s test consequent alternate =>
    conditional (g s) (f test) (f consequent) (f alternate)
  | call s callee arguments => call (g s) (f callee) (arguments.map f)
  | member s owner field computed => member (g s) (f owner) (f field) computed
  | array s elements => array (g s) (elements.map f)
  | property s key value => property (g s) (f key) (f value)
  | object s properties => object (g s) (properties.map f)
  | tagName s name => tagName (g s) name
  | tagMember s owner field => tagMember (g s) (f owner) (f field)
  | container s e => container (g s) (f e)
  | tagAttribute s name value => tagAttribute (g s) (f name) (f value)
  | markupText s value => markupText (g s) value
  | element s name attributes children selfClosing =>
    element (g s) (f name) (attributes.map f) (children.map f) selfClosing
  | fragment s children => fragment (g s) (children.map f)

mutual

/-- The tree with each of its nodes replaced, from the leaves up. -/
def rewritten (f : Node → Node) : Node → Node
  | absent => f absent
  | unknown s kind => f (unknown s kind)
  | program s body => f (program s (rewrittenList f body))
  | identifier s name => f (identifier s name)
  | arrayPattern s elements => f (arrayPattern s (rewrittenList f elements))
  | declarator s target initial => f (declarator s (rewritten f target) (rewritten f initial))
  | declaration s keyword declarators => f (declaration s keyword (rewrittenList f declarators))
  | block s body => f (block s (rewrittenList f body))
  | function s name params body =>
    f (function s (rewritten f name) (rewrittenList f params) (rewritten f body))
  | ifElse s test consequent alternate =>
    f (ifElse s (rewritten f test) (rewritten f consequent) (rewritten f alternate))
  | whileLoop s test body => f (whileLoop s (rewritten f test) (rewritten f body))
  | forLoop s initial test update body =>
    f (forLoop s (rewritten f initial) (rewritten f test) (rewritten f update) (rewritten f body))
  | returning s argument => f (returning s (rewritten f argument))
  | breaking s => f (breaking s)
  | continuing s => f (continuing s)
  | importSpecifier s imported localName =>
    f (importSpecifier s (rewritten f imported) (rewritten f localName))
  | importing s specifiers source => f (importing s (rewrittenList f specifiers) (rewritten f source))
  | exporting s exported isDefault => f (exporting s (rewritten f exported) isDefault)
  | expressionStatement s e => f (expressionStatement s (rewritten f e))
  | literal s value raw template => f (literal s value raw template)
  | binary s operator left right => f (binary s operator (rewritten f left) (rewritten f right))
  | unary s operator argument before => f (unary s operator (rewritten f argument) before)
  | assignment s operator left right =>
    f (assignment s operator (rewritten f left) (rewritten f right))
  | conditional s test consequent alternate =>
    f (conditional s (rewritten f test) (rewritten f consequent) (rewritten f alternate))
  | call s callee arguments => f (call s (rewritten f callee) (rewrittenList f arguments))
  | member s owner field computed => f (member s (rewritten f owner) (rewritten f field) computed)
  | array s elements => f (array s (rewrittenList f elements))
  | property s key value => f (property s (rewritten f key) (rewritten f value))
  | object s properties => f (object s (rewrittenList f properties))
  | tagName s name => f (tagName s name)
  | tagMember s owner field => f (tagMember s (rewritten f owner) (rewritten f field))
  | container s e => f (container s (rewritten f e))
  | tagAttribute s name value => f (tagAttribute s (rewritten f name) (rewritten f value))
  | markupText s value => f (markupText s value)
  | element s name attributes children selfClosing =>
    f (element s (rewritten f name) (rewrittenList f attributes) (rewrittenList f children)
      selfClosing)
  | fragment s children => f (fragment s (rewrittenList f children))

def rewrittenList (f : Node → Node) : List Node → List Node
  | [] => []
  | n :: ns => rewritten f n :: rewrittenList f ns

end

theorem rewrittenList_eq_map (f : Node → Node) (ns : List Node) :
    rewrittenList f ns = ns.map (rewritten f) := by
  induction ns with
  | nil => rfl
  | cons n ns ih => rw [rewrittenList, ih, List.map_cons]

theorem rewritten_eq (f : Node → Node) (n : Node) : n.rewritten f = f (n.rebuilt id (rewritten f)) := by
  cases n <;> simp only [rewritten, rebuilt, rewrittenList_eq_map, id]

end HanScript.Node
