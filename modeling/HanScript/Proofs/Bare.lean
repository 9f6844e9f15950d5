-- Trees without their spans. Two trees that differ only in where they stand
-- have the same bare tree, and are the same to every test of sameness.
import HanScript.Syntax.Equality

namespace HanScript

namespace Node

mutual

/-- The tree with nothing said about where it stands. -/
def bare : Node → Node
  | absent => absent
  | unknown _ kind => unknown {} kind
  | program _ body => program {} (bareList body)
  | identifier _ name => identifier {} name
  | arrayPattern _ elements => arrayPattern {} (bareList elements)
  | declarator _ target initial => declarator {} (bare target) (bare initial)
  | declaration _ keyword declarators => declaration {} keyword (bareList declarators)
  | block _ body => block {} (bareList body)
  | function _ name params body => function {} (bare name) (bareList params) (bare body)
  | ifElse _ test consequent alternate => ifElse {} (bare test) (bare consequent) (bare alternate)
  | whileLoop _ test body => whileLoop {} (bare test) (bare body)
  | forLoop _ initial test update body =>
    forLoop {} (bare initial) (bare test) (bare update) (bare body)
  | returning _ argument => returning {} (bare argument)
  | breaking _ => breaking {}
  | continuing _ => continuing {}
  | importSpecifier _ imported localName => importSpecifier {} (bare imported) (bare localName)
  | importing _ specifiers source => importing {} (bareList specifiers) (bare source)
  | exporting _ exported isDefault => exporting {} (bare exported) isDefault
  | expressionStatement _ expression => expressionStatement {} (bare expression)
  | literal _ value raw template => literal {} value raw template
  | binary _ operator left right => binary {} operator (bare left) (bare right)
  | unary _ operator argument before => unary {} operator (bare argument) before
  | assignment _ operator left right => assignment {} operator (bare left) (bare right)
  | conditional _ test consequent alternate =>
    conditional {} (bare test) (bare consequent) (bare alternate)
  | call _ callee arguments => call {} (bare callee) (bareList arguments)
  | member _ owner field computed => member {} (bare owner) (bare field) computed
  | array _ elements => array {} (bareList elements)
  | property _ key value => property {} (bare key) (bare value)
  | object _ properties => object {} (bareList properties)
  | tagName _ name => tagName {} name
  | tagMember _ owner field => tagMember {} (bare owner) (bare field)
  | container _ expression => container {} (bare expression)
  | tagAttribute _ name value => tagAttribute {} (bare name) (bare value)
  | markupText _ value => markupText {} value
  | element _ name attributes children selfClosing =>
    element {} (bare name) (bareList attributes) (bareList children) selfClosing
  | fragment _ children => fragment {} (bareList children)

def bareList : List Node → List Node
  | [] => []
  | n :: ns => bare n :: bareList ns

end

@[simp] theorem bareList_eq_map (ns : List Node) : bareList ns = ns.map bare := by
  induction ns with
  | nil => rfl
  | cons n ns ih => simp [bareList, ih]

@[simp] theorem isAbsent_bare (n : Node) : n.bare.isAbsent = n.isAbsent := by
  cases n <;> rfl

/-! ## Sameness -/

mutual

theorem same_bare (n m : Node) : n.bare.same m = n.same m := by
  cases n <;> simp only [bare, same, same_bare, sameList_bareList]

theorem sameList_bareList (ns ms : List Node) : sameList (bareList ns) ms = sameList ns ms := by
  cases ns with
  | nil => rfl
  | cons n ns =>
    cases ms with
    | nil => rfl
    | cons m ms => simp only [bareList, sameList, same_bare, sameList_bareList]

end

mutual

theorem same_refl (n : Node) : n.same n = true := by
  cases n <;> simp [same, same_refl, sameList_refl, Value.same_refl]

theorem sameList_refl (ns : List Node) : sameList ns ns = true := by
  cases ns with
  | nil => rfl
  | cons n ns => simp only [sameList, same_refl, sameList_refl, Bool.and_self]

end

theorem same_of_bare {n m : Node} (h : n.bare = m.bare) : n.same m = true := by
  rw [← same_bare, h, same_bare, same_refl]

end Node

end HanScript
