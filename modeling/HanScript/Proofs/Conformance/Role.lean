-- The roles that nodes play in a tree. A node has parts, each in a role of its
-- own, and a role takes some kinds of nodes only. A tree conforms if that holds
-- all the way down.
import HanScript.Proofs.Bare

namespace HanScript

/-- The roles that nodes play, told apart by what may play them. -/
inductive Role where
  | program | statement | alternative | block | declarator | target | word | wordOrHole | initial
  | optional | specifier | source | expression | property | tagName | tagWord | tagAttribute
  | attributeValue | child
deriving DecidableEq

namespace Node

/-! ## What may play a role -/

/-- A template is a text, and a number says how it was written. -/
def isSoundLiteral (value : Value) (raw : String) (template : Bool) : Bool :=
  match value with
  | .text _ => true
  | .number _ => !template && !raw.isEmpty
  | .truth _ | .nothing => !template

def isTextLiteral : Node → Bool
  | literal _ value _ _ => (value matches .text _)
  | _ => false

def isExpression : Node → Bool
  | identifier .. | binary .. | unary .. | assignment .. | conditional .. | call .. | member ..
  | array .. | object .. | element .. | fragment .. => true
  | literal _ value raw template => isSoundLiteral value raw template
  | _ => false

theorem not_absent_of_expression {n : Node} (h : n.isExpression) : n.isAbsent = false := by
  cases n with
  | absent => cases h
  | _ => rfl

def isStatement : Node → Bool
  | declaration .. | function .. | block .. | ifElse .. | whileLoop .. | forLoop .. | returning ..
  | breaking .. | continuing .. | importing .. | exporting .. | expressionStatement .. => true
  | _ => false

end Node

/-- Whether a node may play a role, as far as the node itself shows it. -/
def Role.admits : Role → Node → Bool
  | program, .program .. => true
  | statement, n => n.isStatement
  | alternative, n => n.isAbsent || n.isStatement
  | block, .block .. => true
  | declarator, .declarator .. => true
  | target, .identifier .. | target, .arrayPattern .. => true
  | word, .identifier .. => true
  | wordOrHole, .identifier .. | wordOrHole, .absent => true
  | initial, .declaration .. => true
  | initial, n | optional, n => n.isAbsent || n.isExpression
  | specifier, .importSpecifier .. => true
  | source, n => n.isTextLiteral
  | expression, n => n.isExpression
  | property, .property .. => true
  | tagName, .tagName .. | tagName, .tagMember .. => true
  | tagWord, .tagName .. => true
  | tagAttribute, .tagAttribute .. => true
  | attributeValue, .container .. => true
  | attributeValue, n => n.isAbsent || n.isTextLiteral
  | child, .markupText .. | child, .container .. | child, .element .. | child, .fragment .. => true
  | _, _ => false

namespace Node

/-- The parts of a node, each with the role that it plays. -/
def parts : Node → List (Role × Node)
  | absent | unknown .. | identifier .. | breaking _ | continuing _ | literal .. | tagName ..
  | markupText .. => []
  | program _ body | block _ body => body.map (.statement, ·)
  | arrayPattern _ elements => elements.map (.wordOrHole, ·)
  | declarator _ target initial => [(.target, target), (.optional, initial)]
  | declaration _ _ declarators => declarators.map (.declarator, ·)
  | function _ name params body => (.word, name) :: (.block, body) :: params.map (.word, ·)
  | ifElse _ test consequent alternate =>
    [(.expression, test), (.statement, consequent), (.alternative, alternate)]
  | whileLoop _ test body => [(.expression, test), (.statement, body)]
  | forLoop _ initial test update body =>
    [(.initial, initial), (.optional, test), (.optional, update), (.statement, body)]
  | returning _ argument => [(.optional, argument)]
  | importSpecifier _ imported localName => [(.word, imported), (.word, localName)]
  | importing _ specifiers source => (.source, source) :: specifiers.map (.specifier, ·)
  | exporting _ exported _ => [(.statement, exported)]
  | expressionStatement _ e | container _ e => [(.expression, e)]
  | binary _ _ left right | assignment _ _ left right => [(.expression, left), (.expression, right)]
  | unary _ _ argument _ => [(.expression, argument)]
  | conditional _ test consequent alternate =>
    [(.expression, test), (.expression, consequent), (.expression, alternate)]
  | call _ callee arguments => (.expression, callee) :: arguments.map (.expression, ·)
  | member _ owner field _ => [(.expression, owner), (.expression, field)]
  | array _ elements => elements.map (.optional, ·)
  | property _ key value => [(.word, key), (.expression, value)]
  | object _ properties => properties.map (.property, ·)
  | tagMember _ owner field => [(.tagName, owner), (.tagWord, field)]
  | tagAttribute _ name value => [(.tagWord, name), (.attributeValue, value)]
  | element _ name attributes children _ =>
    (.tagName, name) :: attributes.map (.tagAttribute, ·) ++ children.map (.child, ·)
  | fragment _ children => children.map (.child, ·)

/-! ## All the way down -/

/-- In its role the node has a property, and so has everything below it. -/
inductive Everywhere (P : Role → Node → Prop) : Role → Node → Prop where
  | mk {r n} : P r n → (∀ part ∈ n.parts, Everywhere P part.1 part.2) → Everywhere P r n

/-- The tree conforms to what its roles admit. -/
def Conforms : Role → Node → Prop := Everywhere fun r n => r.admits n

namespace Everywhere

variable {P Q : Role → Node → Prop} {r q : Role} {n m : Node}

theorem here (h : Everywhere P r n) : P r n := by
  cases h with
  | mk hn _ => exact hn

theorem part (h : Everywhere P r n) (hm : (q, m) ∈ n.parts) : Everywhere P q m := by
  cases h with
  | mk _ hparts => exact hparts (q, m) hm

theorem leaf (hn : P r n) (hparts : n.parts = []) : Everywhere P r n :=
  .mk hn (by simp [hparts])

theorem mono (hPQ : ∀ r n, P r n → Q r n) (h : Everywhere P r n) : Everywhere Q r n := by
  induction h with
  | mk hn _ ih => exact .mk (hPQ _ _ hn) ih

/-- What holds of all parts of a tree holds of all parts of each of its parts. -/
theorem everywhere (h : Everywhere P r n) : Everywhere (Everywhere P) r n := by
  induction h with
  | mk hn hparts ih => exact .mk (.mk hn hparts) ih

/-- The same node may play another role. What is below it stays as it is. -/
theorem elsewhere (h : Everywhere P r n) (hq : P q n) : Everywhere P q n :=
  .mk hq fun _ hm => h.part hm

end Everywhere

/-! ## Spans -/

theorem parts_bare (n : Node) : n.bare.parts = n.parts.map fun part => (part.1, part.2.bare) := by
  cases n <;> simp [bare, parts, Function.comp_def]

theorem admits_bare (r : Role) (n : Node) : r.admits n.bare = r.admits n := by
  cases n <;> cases r <;> rfl

/-- What holds everywhere in the bare tree holds everywhere in the tree, if it says nothing
of spans. -/
theorem Everywhere.of_bare {P : Role → Node → Prop} (hP : ∀ r n, P r n.bare → P r n) {r : Role}
    {n : Node} (h : Everywhere P r n.bare) : Everywhere P r n := by
  generalize hb : n.bare = b at h
  induction h generalizing n with
  | mk hn _ ih =>
    subst hb
    refine .mk (hP _ _ hn) fun part hm => ih (part.1, part.2.bare) ?_ rfl
    rw [parts_bare]
    exact List.mem_map.mpr ⟨part, hm, rfl⟩

end Node

end HanScript
