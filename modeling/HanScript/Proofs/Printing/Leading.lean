-- What the text of an expression begins with. On its left the text of an operand
-- has nothing but parentheses, so a brace comes first only if the leftmost operand
-- is an object. A statement made of such an expression is put in parentheses.
import HanScript.Proofs.Printing.OneLine

namespace HanScript

open Script

/-! ## The first character -/

/-- The text begins with the character. -/
def Begins (c : Char) (text : String) : Prop := text.toList.head? = some c

instance (c : Char) (text : String) : Decidable (Begins c text) :=
  inferInstanceAs (Decidable (text.toList.head? = some c))

section

variable {c : Char} {a b : String}

@[simp] theorem begins_append : Begins c (a ++ b) ↔ Begins c a ∨ a = "" ∧ Begins c b := by
  unfold Begins
  rw [String.toList_append, ← String.toList_eq_nil_iff]
  cases a.toList <;> simp

theorem begins_parenthesized : Begins c (parenthesized a) ↔ c = '(' := by
  simp +decide [parenthesized, Begins, eq_comm]

theorem not_begins_of_numeric (h : Numeric a.toList) (hc : isNumeric c = false) : ¬ Begins c a := by
  intro hbegins
  have hnumeric := h c (List.mem_of_mem_head? hbegins)
  simp [hc] at hnumeric

end

/-! ## Texts that lead others -/

/-- The second text is the first one with parentheses around it and with more text after it, which
nowhere goes on with a brace. -/
inductive Leads (inner : String) : String → Prop where
  | self : Leads inner inner
  | wrapped {text} : Leads inner text → Leads inner (parenthesized text)
  | followed {text tail} : Leads inner text → ¬ Begins '\x7b' tail → Leads inner (text ++ tail)

namespace Leads

variable {inner text whole : String}

theorem wrappedIf (h : Leads inner text) (needed : Bool) : Leads inner (parenthesizedIf needed text) := by
  cases needed
  · exact h
  · exact h.wrapped

theorem trans (h : Leads inner text) (hwhole : Leads text whole) : Leads inner whole := by
  induction hwhole with
  | self => exact h
  | wrapped _ ih => exact ih.wrapped
  | followed _ htail ih => exact ih.followed htail

/-- A brace at the beginning is the inner text's. -/
theorem begins_inner (h : Leads inner text) (hbrace : Begins '\x7b' text) : Begins '\x7b' inner := by
  induction h with
  | self => exact hbrace
  | wrapped => simp [begins_parenthesized] at hbrace
  | followed _ htail ih =>
    rcases begins_append.mp hbrace with htext | ⟨-, hafter⟩
    · exact ih htext
    · exact absurd hafter htail

/-- A brace of the inner text has at most parentheses before it. -/
theorem begins_text (h : Leads inner text) (hbrace : Begins '\x7b' inner) :
    Begins '\x7b' text ∨ Begins '(' text := by
  induction h with
  | self => exact .inl hbrace
  | wrapped => exact .inr (begins_parenthesized.mpr rfl)
  | followed _ _ ih =>
    simp only [begins_append]
    exact ih.imp .inl .inl

end Leads

/-! ## The leftmost operand -/

namespace Node

/-- The operand that comes first in the text of a node, if nothing of the node's own does. -/
def leftmost? : Node → Option Node
  | binary _ _ left _ | assignment _ _ left _ => some left
  | unary _ _ argument false => some argument
  | conditional _ test _ _ => some test
  | call _ callee _ => some callee
  | member _ owner _ _ => some owner
  | _ => none

def operator? : Node → Option String
  | binary _ x _ _ | unary _ x _ _ | assignment _ x _ _ => some x
  | _ => none

/-- The operator or the name of a node, or how it writes a number. -/
def mark? : Node → Option String
  | identifier _ x | literal _ (.number _) x _ => some x
  | n => n.operator?

/-- No operator in the tree is empty, and no operator, name or raw text of a number begins with a
brace. -/
def Unbraced : Role → Node → Prop :=
  Everywhere fun _ n => (∀ x ∈ n.operator?, x ≠ "") ∧ ∀ x ∈ n.mark?, ¬ Begins '\x7b' x

end Node

section

variable {n m : Node} {text : String}

theorem mem_parts_of_leftmost? (h : n.leftmost? = some m) : (Role.expression, m) ∈ n.parts := by
  cases n with
  | unary s operator argument before =>
    cases before with
    | true => cases h
    | false =>
      cases h
      exact List.mem_cons_self
  | _ => cases h <;> exact List.mem_cons_self

theorem startsWithObject_of_leftmost? (h : n.leftmost? = some m) :
    startsWithObject n = startsWithObject m := by
  cases n with
  | unary s operator argument before =>
    cases before with
    | true => cases h
    | false =>
      cases h
      rfl
  | _ => cases h <;> rfl

/-- The text of the leftmost operand leads the text of the whole. -/
theorem leads_of_leftmost? (hn : ∀ x ∈ n.mark?, ¬ Begins '\x7b' x) (h : n.leftmost? = some m) :
    Yields (fun whole => ∃ text, Script.expression m = .ok text ∧ Leads text whole)
      (Script.expression n) := by
  cases n with
  | binary s operator left right =>
    cases h
    refine (Yields.self _).bind fun x hx => .skip fun y => .ok ⟨x, hx, ?_⟩
    simp only [binaryText, String.append_assoc]
    exact (Leads.self.wrappedIf _).followed (by simp +decide)
  | assignment s operator left right =>
    cases h
    refine (Yields.self _).bind fun x hx => .skip fun y => .ok ⟨x, hx, ?_⟩
    simp only [looseText, String.append_assoc]
    exact (Leads.self.wrappedIf _).followed (by simp +decide)
  | unary s operator argument before =>
    cases before with
    | true => cases h
    | false =>
      cases h
      refine (Yields.self _).bind fun x hx => .ok ⟨x, hx, ?_⟩
      exact (Leads.self.wrappedIf _).followed (hn operator rfl)
  | conditional s test consequent alternate =>
    cases h
    refine (Yields.self _).bind fun x hx => .skip fun y => .skip fun z => .ok ⟨x, hx, ?_⟩
    simp only [looseText, String.append_assoc]
    exact (Leads.self.wrappedIf _).followed (by simp +decide)
  | call s callee arguments =>
    cases h
    refine .skip fun xs => (Yields.self _).bind fun x hx => .ok ⟨x, hx, ?_⟩
    exact (Leads.self.wrappedIf _).followed (by simp [begins_parenthesized])
  | member s owner field computed =>
    cases h
    cases computed with
    | true =>
      refine (Yields.self _).bind fun x hx => .skip fun y => .ok ⟨x, hx, ?_⟩
      simp only [operandText, String.append_assoc]
      exact (Leads.self.wrappedIf _).followed (by simp +decide)
    | false =>
      refine (Yields.self _).bind fun x hx => .skip fun bare => .skip fun y => .ok ⟨x, hx, ?_⟩
      simp only [operandText, String.append_assoc]
      -- A bare integer is put in parentheses too.
      exact ((Leads.self.wrappedIf _).wrappedIf bare).followed (by simp +decide)
  | _ => cases h

/-! ## Nodes without a leftmost operand -/

theorem not_begins_number {raw : String} (h : ¬ Begins '\x7b' raw) (k : Number) :
    Yields (¬ Begins '\x7b' ·) (numberOr raw k) := by
  unfold numberOr
  split
  · exact fun text htext => not_begins_of_numeric (numeric_numberText k text htext) rfl
  · exact .ok h

theorem not_begins_literal {s : Span} {value : Value} {raw : String} (template : Bool)
    (h : ∀ x ∈ (Node.literal s value raw template).mark?, ¬ Begins '\x7b' x) :
    Yields (¬ Begins '\x7b' ·) (literal value raw template) := by
  apply yields_literal
  · intro x _
    simp +decide [quote, Script.template, between, Begins]
  · decide
  · rintro k rfl
    exact not_begins_number (h raw rfl) k

/-- A node without a leftmost operand begins with a brace if it is an object, and only then. -/
theorem begins_of_leftmost?_none (hoperator : ∀ x ∈ n.operator?, x ≠ "")
    (hn : ∀ x ∈ n.mark?, ¬ Begins '\x7b' x) (h : n.leftmost? = none) :
    Yields (fun text => Begins '\x7b' text ↔ startsWithObject n = true) (Script.expression n) := by
  cases n with
  | literal s value raw template =>
    intro text htext
    simpa [startsWithObject] using not_begins_literal template hn text htext
  | identifier s x => exact .ok (by simpa [startsWithObject] using hn x rfl)
  | unary s operator argument before =>
    cases before with
    | true =>
      have hne := hoperator operator rfl
      have hfirst := hn operator rfl
      exact .skip fun x => .ok (by simp [unaryText, startsWithObject, hne, hfirst])
    | false => cases h
  | array s items => exact .skip fun xs => .ok (by simp +decide [elements, startsWithObject])
  | object s properties =>
    refine .skip fun xs => .ok ?_
    cases xs <;> simp +decide [braced, startsWithObject]
  | element s name attributes items b =>
    refine .skip fun x => .skip fun ys => .skip fun zs => .ok ?_
    simp +decide [createElement, startsWithObject]
  | fragment s items => exact .skip fun xs => .ok (by simp +decide [createElement, startsWithObject])
  | binary | assignment | conditional | call | member => cases h
  | _ => exact .error _

/-! ## Expressions -/

/-- The text of an expression is led by a text that begins with a brace just if the expression is said
to start with an object. -/
theorem led_expression {r : Role} (h : n.Unbraced r) :
    Yields (fun text => ∃ inner, Leads inner text ∧ (Begins '\x7b' inner ↔ startsWithObject n = true))
      (Script.expression n) := by
  induction h with
  | @mk r n hn _ ih =>
    obtain ⟨hoperator, hmark⟩ := hn
    intro whole hwhole
    cases hleft : n.leftmost? with
    | none => exact ⟨whole, .self, begins_of_leftmost?_none hoperator hmark hleft whole hwhole⟩
    | some m =>
      obtain ⟨text, htext, hleads⟩ := leads_of_leftmost? hmark hleft whole hwhole
      obtain ⟨inner, hinner, hbrace⟩ := ih _ (mem_parts_of_leftmost? hleft) text htext
      rw [startsWithObject_of_leftmost? hleft]
      exact ⟨inner, hinner.trans hleads, hbrace⟩

/-- An expression that begins with a brace is said to start with an object, and one that is said to do
so begins with a brace or with a parenthesis. -/
theorem begins_expression {r : Role} (h : n.Unbraced r) (htext : Script.expression n = .ok text) :
    (Begins '\x7b' text → startsWithObject n = true) ∧
      (startsWithObject n = true → Begins '\x7b' text ∨ Begins '(' text) := by
  obtain ⟨inner, hinner, hbrace⟩ := led_expression h text htext
  exact ⟨fun hbegins => hbrace.mp (hinner.begins_inner hbegins), fun hstart =>
    hinner.begins_text (hbrace.mpr hstart)⟩

/-! ## Statements -/

/-- In parentheses, or without an object to start with, a statement does not begin with a brace. -/
theorem not_begins_statement (h : Begins '\x7b' text → startsWithObject n = true) :
    ¬ Begins '\x7b' (parenthesizedIf (startsWithObject n) text ++ ";") := by
  cases hstart : startsWithObject n with
  | true => simp +decide [parenthesizedIf, parenthesized]
  | false =>
    have hbegins : ¬ Begins '\x7b' text := fun hb => absurd (h hb) (by simp [hstart])
    simp +decide [parenthesizedIf, hbegins]

end

/-- If no operator is empty and no operator, name or raw number in an expression begins with a brace,
its text begins with a brace only if it is said to start with an object; and if so, the text begins
with a brace or with a parenthesis. Hence the statement that is made of it, which has a text if the
expression has one, never begins with a brace. -/
theorem no_expression_statement_begins_with_brace {r : Role} {e : Node} (h : e.Unbraced r) :
    (∀ text, Script.expression e = .ok text → Begins '\x7b' text → startsWithObject e = true) ∧
      (∀ text, startsWithObject e = true → Script.expression e = .ok text →
        Begins '\x7b' text ∨ Begins '(' text) ∧
      ∀ (s : Span) (depth : Int),
        (∀ text, Script.expression e = .ok text →
          ∃ line, statement (.expressionStatement s e) depth = .ok line) ∧
        ∀ line, statement (.expressionStatement s e) depth = .ok line → ¬ Begins '\x7b' line := by
  refine ⟨fun text htext => (begins_expression h htext).1, fun text hstart htext =>
    (begins_expression h htext).2 hstart, fun s depth => ⟨fun text htext => ?_, fun line hline => ?_⟩⟩
  · exact ⟨_, bind_eq_ok_iff.mpr ⟨text, htext, rfl⟩⟩
  · obtain ⟨text, htext, hline⟩ := bind_eq_ok_iff.mp hline
    cases hline
    exact not_begins_statement (begins_expression h htext).1

/-- A condition that counts up a member of what the call of an object gives. -/
def countedMember : Node :=
  .conditional {} (.unary {} "++" (.member {} (.call {} (.object {} []) []) (.identifier {} "x") false) false)
    (.identifier {} "y") (.literal {} (.number (.integer 1)) "1" false)

theorem countedMember_is_wrapped :
    countedMember.Unbraced .expression ∧
      Script.expression countedMember = .ok "\x7b\x7d().x++ ? y : 1" ∧
      startsWithObject countedMember = true ∧
      statement (.expressionStatement {} countedMember) 0 = .ok "(\x7b\x7d().x++ ? y : 1);" ∧
      ¬ Begins '\x7b' "(\x7b\x7d().x++ ? y : 1);" := by
  have hcall : (Node.call {} (.object {} []) []).Unbraced .expression :=
    .mk (by decide) (List.forall_mem_singleton.mpr (.leaf (by decide) rfl))
  have hmember : (Node.member {} (.call {} (.object {} []) []) (.identifier {} "x") false).Unbraced
      .expression :=
    .mk (by decide) (List.forall_mem_cons.mpr ⟨hcall, List.forall_mem_singleton.mpr
      (.leaf (by decide) rfl)⟩)
  have htest : (Node.unary {} "++" (.member {} (.call {} (.object {} []) []) (.identifier {} "x") false)
      false).Unbraced .expression := .mk (by decide) (List.forall_mem_singleton.mpr hmember)
  have hall : countedMember.Unbraced .expression :=
    .mk (by decide) (List.forall_mem_cons.mpr ⟨htest, List.forall_mem_cons.mpr
      ⟨.leaf (by decide) rfl, List.forall_mem_singleton.mpr (.leaf (by decide) rfl)⟩⟩)
  obtain ⟨hstart, -, hlines⟩ := no_expression_statement_begins_with_brace hall
  have htext : Script.expression countedMember = .ok "\x7b\x7d().x++ ? y : 1" := by rfl
  have hline : statement (.expressionStatement {} countedMember) 0 = .ok "(\x7b\x7d().x++ ? y : 1);" := by
    rfl
  exact ⟨hall, htext, hstart _ htext (by decide), hline, (hlines {} 0).2 _ hline⟩

end HanScript
