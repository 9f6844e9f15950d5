-- What the grammar makes. Every node of a tree that tokens form plays its role,
-- and what it is made of goes back to the tokens: its names, its operators, its
-- literals.
import HanScript.Proofs.Conformance.Role
import HanScript.Proofs.Grammar.Statement

namespace HanScript

open Grammar

namespace Node

/-- The last statement inside is an `if` without an `else`, so that an `else` after the
statement would belong to it. -/
def endsOpen : Node → Bool
  | ifElse _ _ _ alternate => alternate.isAbsent || endsOpen alternate
  | whileLoop _ _ body | forLoop _ _ _ _ body => endsOpen body
  | exporting _ exported _ => endsOpen exported
  | _ => false

theorem endsOpen_bare (n : Node) : n.bare.endsOpen = n.endsOpen := by
  fun_induction endsOpen n with
  | case5 n hi hw hf he =>
    cases n with
    | ifElse => exact absurd rfl (hi _ _ _ _)
    | whileLoop => exact absurd rfl (hw _ _ _)
    | forLoop => exact absurd rfl (hf _ _ _ _ _)
    | exporting => exact absurd rfl (he _ _ _)
    | _ => rfl
  | _ => simp_all [bare, endsOpen, isAbsent_bare]

end Node

/-- The roles of expressions, in which a name may also be `undefined`. -/
def Role.isOperand (r : Role) : Bool := r = .expression || r = .optional || r = .initial

/-- What the grammar says of a node and its parts, if all it knows of tokens is `T`. -/
def Node.FormedOf (T : Terminal → Prop) (r : Role) : Node → Prop
  | .identifier _ x => T ⟨.identifier, x⟩ ∨ r.isOperand ∧ x = "undefined"
  | .tagName _ x => T ⟨.identifier, x⟩
  | .literal _ (.number k) raw _ => T ⟨.number, raw⟩ ∧ Numeral.value? raw = some k
  | .literal _ (.text s) raw template => raw = s ∧ (template → r.isOperand)
  | .literal _ (.truth b) raw _ => T ⟨if b then .trueWord else .falseWord, raw⟩
  | .binary _ op _ _ => ∃ kind, T ⟨kind, op⟩ ∧ (kind = .power ∨ ∃ l : Level, kind ∈ l.operators)
  | .unary _ op _ before => before ∧ ∃ kind ∈ unaryOperators, T ⟨kind, op⟩
  | .assignment _ op _ _ => ∃ kind ∈ assignmentOperators, T ⟨kind, op⟩
  | .member _ _ field computed => computed ∨ ∃ s x, field = .identifier s x ∧ T ⟨.identifier, x⟩
  | .declaration _ keyword declarators => keyword ∈ ["let", "const"] ∧ declarators ≠ []
  | .ifElse _ _ consequent alternate => alternate.isAbsent ∨ consequent.endsOpen = false
  | .importSpecifier _ imported localName =>
    ∃ s t x, imported = .identifier s x ∧ localName = .identifier t x
  | _ => True

/-- A node plays its role and is what the grammar makes. -/
def Formed (T : Terminal → Prop) (r : Role) (n : Node) : Prop := r.admits n ∧ n.FormedOf T r

/-- A text that is no text at all has no value as a number. -/
theorem Numeral.ne_empty {text : String} {k : Number} (h : Numeral.value? text = some k) :
    text ≠ "" := by
  rintro rfl
  cases h

theorem Role.admits_operand {r : Role} {n : Node} (hr : r.isOperand) (hn : n.isExpression) :
    r.admits n := by
  cases r with
  | expression => exact hn
  | optional => simp [Role.admits, hn]
  | initial => cases n <;> first | exact hn | rfl
  | _ => cases hr

theorem Node.FormedOf.operand {T : Terminal → Prop} {r q : Role} {n : Node} (hr : r.isOperand)
    (h : n.FormedOf T q) : n.FormedOf T r := by
  cases n with
  | identifier => exact h.imp_right fun hx => ⟨hr, hx.2⟩
  | literal _ value =>
    cases value with
    | text => exact ⟨h.1, fun _ => hr⟩
    | _ => exact h
  | _ => exact h

/-- An expression may also stand where it might have been left out. -/
theorem Node.Everywhere.operand {T : Terminal → Prop} {r : Role} {n : Node} (hr : r.isOperand)
    (h : Everywhere (Formed T) .expression n) : Everywhere (Formed T) r n :=
  h.elsewhere ⟨Role.admits_operand hr h.here.1, h.here.2.operand hr⟩

/-- What the grammar says of a node says nothing of spans. -/
theorem Formed.of_bare {T : Terminal → Prop} {r : Role} {n : Node} (h : Formed T r n.bare) :
    Formed T r n := by
  refine ⟨by rw [← Node.admits_bare]; exact h.1, ?_⟩
  have hf := h.2
  cases n with
  | literal _ value => cases value <;> exact hf
  | member _ owner field computed =>
    refine hf.imp_right fun ⟨s, x, hx, hT⟩ => ?_
    cases field with
    | identifier t y =>
      cases hx
      exact ⟨t, x, rfl, hT⟩
    | _ => cases hx
  | declaration _ keyword declarators => exact ⟨hf.1, by simpa [Node.bare] using hf.2⟩
  | ifElse _ test consequent alternate =>
    simpa [Node.bare, Node.FormedOf, Node.isAbsent_bare, Node.endsOpen_bare] using hf
  | importSpecifier _ imported localName =>
    obtain ⟨s, t, x, hs, ht⟩ := hf
    cases imported with
    | identifier u y =>
      cases localName with
      | identifier v z =>
        cases hs
        cases ht
        exact ⟨u, v, _, rfl, rfl⟩
      | _ => cases ht
    | _ => cases hs
  | _ => exact hf

namespace Grammar

variable {T : Terminal → Prop}

/-! ## Expressions -/

/-- The role that the grammar makes something of a form for. -/
def Form.role : Form → Role
  | expression _ | markup => .expression
  | property => .property
  | container => .attributeValue
  | .tagAttribute => .tagAttribute
  | child => .child

theorem TagName.formed {w : List Terminal} {n : Node} (h : TagName w n) (hw : ∀ t ∈ w, T t) :
    Node.Everywhere (Formed T) .tagName n := by
  induction h with
  | word => exact .leaf ⟨rfl, hw _ (List.mem_singleton_self _)⟩ rfl
  | member _ ih =>
    simp only [List.forall_mem_append, List.forall_mem_cons] at hw
    refine .mk ⟨rfl, trivial⟩ ?_
    simp only [Node.parts, List.forall_mem_cons]
    exact ⟨ih hw.1, .leaf ⟨rfl, hw.2.2.1⟩ rfl, by simp⟩

/-- Every node that the grammar makes of tokens is formed of them. -/
theorem Phrase.formed {f : Form} {w : List Terminal} {n : Node} (h : Phrase f w n)
    (hw : ∀ t ∈ w, T t) : Node.Everywhere (Formed T) f.role n := by
  induction h using Phrase.induction with
  | tighter _ _ ih => exact ih hw
  | assignment _ ho _ iha ihb =>
    simp only [List.forall_mem_append, List.forall_mem_cons] at hw
    refine .mk ⟨rfl, _, ho, hw.2.1⟩ ?_
    simpa [Node.parts, Form.role] using ⟨iha hw.1, ihb hw.2.2⟩
  | conditional _ _ _ iha ihb ihc =>
    simp only [List.forall_mem_append, List.forall_mem_cons] at hw
    refine .mk ⟨rfl, trivial⟩ ?_
    simpa [Node.parts, Form.role] using ⟨iha hw.1.1, ihb hw.1.2.2, ihc hw.2.2⟩
  | binary _ _ ho _ iha ihb =>
    simp only [List.forall_mem_append, List.forall_mem_cons] at hw
    refine .mk ⟨rfl, _, hw.2.1, .inr ⟨_, ho⟩⟩ ?_
    simpa [Node.parts, Form.role] using ⟨iha hw.1, ihb hw.2.2⟩
  | power _ _ iha ihb =>
    simp only [List.forall_mem_append, List.forall_mem_cons] at hw
    refine .mk ⟨rfl, _, hw.2.1, .inl rfl⟩ ?_
    simpa [Node.parts, Form.role] using ⟨iha hw.1, ihb hw.2.2⟩
  | unary ho _ iha =>
    rw [List.forall_mem_cons] at hw
    refine .mk ⟨rfl, rfl, _, ho, hw.1⟩ ?_
    simpa [Node.parts, Form.role] using iha hw.2
  | call _ _ ihf ihas =>
    simp only [List.forall_mem_append, List.forall_mem_cons] at hw
    refine .mk ⟨rfl, trivial⟩ ?_
    simp only [Node.parts, List.forall_mem_cons, List.forall_mem_map]
    refine ⟨ihf hw.1.1, fun a ha => ?_⟩
    obtain ⟨v, hv, _, ih⟩ := ihas.of_mem ha
    exact ih fun t ht => hw.1.2.2 t (hv ht)
  | member _ iho =>
    simp only [List.forall_mem_append, List.forall_mem_cons] at hw
    refine .mk ⟨rfl, .inr ⟨_, _, rfl, hw.2.2.1⟩⟩ ?_
    simp only [Node.parts, List.forall_mem_cons]
    exact ⟨iho hw.1, .leaf ⟨rfl, .inl hw.2.2.1⟩ rfl, by simp⟩
  | computed _ _ iho ihf =>
    simp only [List.forall_mem_append, List.forall_mem_cons] at hw
    refine .mk ⟨rfl, .inl rfl⟩ ?_
    simpa [Node.parts, Form.role] using ⟨iho hw.1.1, ihf hw.1.2.2⟩
  | number hk =>
    refine .leaf ⟨?_, hw _ (List.mem_singleton_self _), hk⟩ rfl
    simpa [Form.role, Role.admits, Node.isExpression, Node.isSoundLiteral] using Numeral.ne_empty hk
  | string => exact .leaf ⟨rfl, rfl, fun _ => rfl⟩ rfl
  | template => exact .leaf ⟨rfl, rfl, fun _ => rfl⟩ rfl
  | trueWord => exact .leaf ⟨rfl, hw _ (List.mem_singleton_self _)⟩ rfl
  | falseWord => exact .leaf ⟨rfl, hw _ (List.mem_singleton_self _)⟩ rfl
  | nullWord => exact .leaf ⟨rfl, trivial⟩ rfl
  | undefinedWord => exact .leaf ⟨rfl, .inr ⟨rfl, rfl⟩⟩ rfl
  | name => exact .leaf ⟨rfl, .inl (hw _ (List.mem_singleton_self _))⟩ rfl
  | array _ ihs =>
    simp only [List.forall_mem_append, List.forall_mem_cons] at hw
    refine .mk ⟨rfl, trivial⟩ ?_
    simp only [Node.parts, List.forall_mem_map]
    intro a ha
    rcases ihs.of_mem ha with rfl | ⟨v, hv, _, ih⟩
    · exact .leaf ⟨rfl, trivial⟩ rfl
    · exact (ih fun t ht => hw.1.2 t (hv ht)).operand rfl
  | object _ ihs =>
    simp only [List.forall_mem_append, List.forall_mem_cons] at hw
    refine .mk ⟨rfl, trivial⟩ ?_
    simp only [Node.parts, List.forall_mem_map]
    intro a ha
    obtain ⟨v, hv, _, ih⟩ := ihs.of_mem ha
    exact ih fun t ht => hw.1.2 t (hv ht)
  | parenthesized _ ih =>
    simp only [List.forall_mem_append, List.forall_mem_cons] at hw
    exact ih hw.1.2
  | element _ ih => exact ih hw
  | property _ ih =>
    simp only [List.forall_mem_cons] at hw
    refine .mk ⟨rfl, trivial⟩ ?_
    simp only [Node.parts, List.forall_mem_cons]
    exact ⟨.leaf ⟨rfl, .inl hw.1⟩ rfl, ih hw.2.2, by simp⟩
  | container _ ih =>
    simp only [List.forall_mem_append, List.forall_mem_cons] at hw
    refine .mk ⟨rfl, trivial⟩ ?_
    simpa [Node.parts, Form.role] using ih hw.1.2
  | bareAttribute =>
    refine .mk ⟨rfl, trivial⟩ ?_
    simp only [Node.parts, List.forall_mem_cons]
    exact ⟨.leaf ⟨rfl, hw _ (List.mem_singleton_self _)⟩ rfl, .leaf ⟨rfl, trivial⟩ rfl, by simp⟩
  | textAttribute =>
    refine .mk ⟨rfl, trivial⟩ ?_
    simp only [Node.parts, List.forall_mem_cons]
    exact ⟨.leaf ⟨rfl, hw _ List.mem_cons_self⟩ rfl,
      .leaf ⟨rfl, rfl, by simp⟩ rfl, by simp⟩
  | givenAttribute _ ih =>
    simp only [List.forall_mem_cons] at hw
    refine .mk ⟨rfl, trivial⟩ ?_
    simp only [Node.parts, List.forall_mem_cons]
    exact ⟨.leaf ⟨rfl, hw.1⟩ rfl, ih hw.2.2, by simp⟩
  | wordChild => exact .leaf ⟨rfl, trivial⟩ rfl
  | textChild => exact .leaf ⟨rfl, trivial⟩ rfl
  | givenChild hc ih =>
    cases hc with
    | container => exact (ih hw).elsewhere ⟨rfl, trivial⟩
  | nestedChild hm ih =>
    cases hm <;> exact (ih hw).elsewhere ⟨rfl, trivial⟩
  | fragment _ ihs =>
    simp only [List.forall_mem_append, List.forall_mem_cons] at hw
    refine .mk ⟨rfl, trivial⟩ ?_
    simp only [Node.parts, List.forall_mem_map]
    intro a ha
    obtain ⟨v, hv, _, ih⟩ := ihs.of_mem ha
    exact ih fun t ht => hw.1.2.2 t (hv ht)
  | taggedFragment _ ihs =>
    simp only [List.forall_mem_append, List.forall_mem_cons] at hw
    refine .mk ⟨rfl, trivial⟩ ?_
    simp only [Node.parts, List.forall_mem_map]
    intro a ha
    obtain ⟨v, hv, _, ih⟩ := ihs.of_mem ha
    exact ih fun t ht => hw.1.2.2 t (hv ht)
  | closedElement hn _ ihas =>
    simp only [List.forall_mem_append, List.forall_mem_cons] at hw
    refine .mk ⟨rfl, trivial⟩ ?_
    simp only [Node.parts, List.forall_mem_append, List.forall_mem_cons, List.forall_mem_map]
    refine ⟨⟨hn.formed hw.1.1.2, fun a ha => ?_⟩, by simp⟩
    obtain ⟨_, v, hv, _, ih⟩ := ihas.of_mem ha
    exact ih fun t ht => hw.1.2 t (hv ht)
  | openElement hn _ _ _ ihas ihs =>
    simp only [List.forall_mem_append, List.forall_mem_cons] at hw
    refine .mk ⟨rfl, trivial⟩ ?_
    simp only [Node.parts, List.forall_mem_append, List.forall_mem_cons, List.forall_mem_map]
    refine ⟨⟨hn.formed hw.1.1.1.1.2, fun a ha => ?_⟩, fun a ha => ?_⟩
    · obtain ⟨_, v, hv, _, ih⟩ := ihas.of_mem ha
      exact ih fun t ht => hw.1.1.1.2 t (hv ht)
    · obtain ⟨v, hv, _, ih⟩ := ihs.of_mem ha
      exact ih fun t ht => hw.1.1.2.2 t (hv ht)

theorem Phrase.not_absent {l : Level} {w : List Terminal} {n : Node} (h : Phrase (.expression l) w n) :
    n.isAbsent = false := by
  have hformed := h.formed (T := fun _ => True) fun _ _ => trivial
  exact Node.not_absent_of_expression hformed.here.1

/-! ## Parts of statements -/

section

variable {w : List Terminal} {n : Node}

/-- A name may play every role that names can play. -/
theorem Word.formed {r : Role} (hr : ∀ s x, r.admits (.identifier s x)) (h : Word w n)
    (hw : ∀ t ∈ w, T t) : Node.Everywhere (Formed T) r n := by
  cases h with
  | mk => exact .leaf ⟨hr _ _, .inl (hw _ (List.mem_singleton_self _))⟩ rfl

theorem Target.formed (h : Target w n) (hw : ∀ t ∈ w, T t) :
    Node.Everywhere (Formed T) .target n := by
  cases h with
  | name h => exact h.formed (fun _ _ => rfl) hw
  | pattern hs =>
    simp only [List.forall_mem_append, List.forall_mem_cons] at hw
    refine .mk ⟨rfl, trivial⟩ ?_
    simp only [Node.parts, List.forall_mem_map]
    intro a ha
    rcases hs.of_mem ha with rfl | ⟨v, hv, hi⟩
    · exact .leaf ⟨rfl, trivial⟩ rfl
    · exact hi.formed (fun _ _ => rfl) fun t ht => hw.1.2 t (hv ht)

theorem Optional.formed (h : Optional w n) (hw : ∀ t ∈ w, T t) :
    Node.Everywhere (Formed T) .optional n := by
  cases h with
  | leftOut => exact .leaf ⟨rfl, trivial⟩ rfl
  | given h => exact (h.formed hw).operand rfl

theorem Declarator.formed (h : Declarator w n) (hw : ∀ t ∈ w, T t) :
    Node.Everywhere (Formed T) .declarator n := by
  cases h with
  | plain ht =>
    refine .mk ⟨rfl, trivial⟩ ?_
    simp only [Node.parts, List.forall_mem_cons]
    exact ⟨ht.formed hw, .leaf ⟨rfl, trivial⟩ rfl, by simp⟩
  | given ht he =>
    simp only [List.forall_mem_append, List.forall_mem_cons] at hw
    refine .mk ⟨rfl, trivial⟩ ?_
    simp only [Node.parts, List.forall_mem_cons]
    exact ⟨ht.formed hw.1, (he.formed hw.2.2).operand rfl, by simp⟩

theorem Separated.ne_nil {Item : List Terminal → Node → Prop} {ns : List Node}
    (h : Separated Item w ns) : ns ≠ [] := by
  cases h <;> simp

theorem Declaration.formed (h : Declaration w n) (hw : ∀ t ∈ w, T t) :
    Node.Everywhere (Formed T) .statement n := by
  cases h with
  | changing hs =>
    rw [List.forall_mem_cons] at hw
    refine .mk ⟨rfl, by simp, hs.ne_nil⟩ ?_
    simp only [Node.parts, List.forall_mem_map]
    intro a ha
    obtain ⟨v, hv, hi⟩ := hs.of_mem ha
    exact hi.formed fun t ht => hw.2 t (hv ht)
  | constant hs =>
    rw [List.forall_mem_cons] at hw
    refine .mk ⟨rfl, by simp, hs.ne_nil⟩ ?_
    simp only [Node.parts, List.forall_mem_map]
    intro a ha
    obtain ⟨v, hv, hi⟩ := hs.of_mem ha
    exact hi.formed fun t ht => hw.2 t (hv ht)

theorem Initial.formed (h : Initial w n) (hw : ∀ t ∈ w, T t) :
    Node.Everywhere (Formed T) .initial n := by
  cases h with
  | declaration h =>
    have hn := h.formed hw
    cases h <;> exact hn.elsewhere ⟨rfl, hn.here.2⟩
  | expression h =>
    cases h with
    | leftOut => exact .leaf ⟨rfl, trivial⟩ rfl
    | given h => exact (h.formed hw).operand rfl

theorem Specifier.formed (h : Specifier w n) (hw : ∀ t ∈ w, T t) :
    Node.Everywhere (Formed T) .specifier n := by
  cases h with
  | mk =>
    refine .mk ⟨rfl, _, _, _, rfl, rfl⟩ ?_
    have hx := hw _ (List.mem_singleton_self _)
    simp only [Node.parts, List.forall_mem_cons]
    exact ⟨.leaf ⟨rfl, .inl hx⟩ rfl, .leaf ⟨rfl, .inl hx⟩ rfl, by simp⟩

theorem Condition.formed (h : Condition w n) (hw : ∀ t ∈ w, T t) :
    Node.Everywhere (Formed T) .expression n := by
  cases h with
  | mk h =>
    simp only [List.forall_mem_append, List.forall_mem_cons] at hw
    exact h.formed hw.1.2

end

/-! ## Statements -/

theorem Statement.isStatement {part : Part} {next : TokenKind} {w : List Terminal} {n : Node}
    (h : Statement part next w n) : n.isStatement := by
  induction h using Statement.induction with
  | declaration hw => cases hw <;> rfl
  | ifElse _ ih => exact ih
  | _ => rfl

theorem Statement.not_absent {part : Part} {next : TokenKind} {w : List Terminal} {n : Node}
    (h : Statement part next w n) : n.isAbsent = false := by
  have hn := h.isStatement
  cases n with
  | absent => cases hn
  | _ => rfl

/-- Before an `else`, no `if` is left open. -/
theorem Statement.closed {part : Part} {next : TokenKind} {w : List Terminal} {n : Node}
    (h : Statement part next w n) (hnext : next = .elseWord ∨ next = .elseIfWord) :
    n.endsOpen = false := by
  induction h using Statement.induction with
  | declaration hw => cases hw <;> rfl
  | ifElse _ ih => exact ih hnext
  | whileLoop _ _ ih => exact ih hnext
  | forLoop _ _ _ _ ih => exact ih hnext
  | exporting _ ih => exact ih hnext
  | exportingDefault _ ih => exact ih hnext
  | alone _ _ he hi => exact absurd hnext (not_or.mpr ⟨he, hi⟩)
  | orElse _ _ hu _ ih => simp [Node.endsOpen, hu.not_absent, ih hnext]
  | orElseIf _ _ hu _ ih => simp [Node.endsOpen, hu.not_absent, ih hnext]
  | _ => rfl

theorem Statement.alternative {part : Part} {next : TokenKind} {w : List Terminal} {n : Node}
    (h : Statement part next w n) (hn : Node.Everywhere (Formed T) .statement n) :
    Node.Everywhere (Formed T) .alternative n := by
  have hs := h.isStatement
  refine hn.elsewhere ⟨by simp [Role.admits, hs], ?_⟩
  cases n with
  | identifier | literal => cases hs
  | _ => exact hn.here.2

/-- The statements of a block or of a program. -/
theorem Sequence.formed {w : List Terminal} {ns : List Node} {next : TokenKind}
    (h : Sequence (fun k w n => ∃ _ : Statement .statement k w n,
      (∀ t ∈ w, T t) → Node.Everywhere (Formed T) .statement n) next w ns)
    (hw : ∀ t ∈ w, T t) : ∀ n ∈ ns, Node.Everywhere (Formed T) .statement n := by
  intro n hn
  obtain ⟨_, v, hv, _, ih⟩ := h.of_mem hn
  exact ih fun t ht => hw t (hv ht)

theorem Statement.formed {part : Part} {next : TokenKind} {w : List Terminal} {n : Node}
    (h : Statement part next w n) (hw : ∀ t ∈ w, T t) :
    Node.Everywhere (Formed T) .statement n := by
  induction h using Statement.induction with
  | declaration h _ => exact h.formed (List.forall_mem_append.mp hw).1
  | function _ hps _ ih =>
    simp only [List.forall_mem_append, List.forall_mem_cons] at hw
    refine .mk ⟨rfl, trivial⟩ ?_
    simp only [Node.parts, List.forall_mem_cons, List.forall_mem_map]
    refine ⟨.leaf ⟨rfl, .inl hw.1.1.2.1⟩ rfl, .mk ⟨rfl, trivial⟩ ?_, fun a ha => ?_⟩
    · simpa only [Node.parts, List.forall_mem_map] using Sequence.formed ih hw.1.2.2.2
    · obtain ⟨v, hv, hi⟩ := hps.of_mem ha
      exact hi.formed (fun _ _ => rfl) fun t ht => hw.1.1.2.2.2 t (hv ht)
  | block _ ih =>
    simp only [List.forall_mem_append, List.forall_mem_cons] at hw
    refine .mk ⟨rfl, trivial⟩ ?_
    simpa only [Node.parts, List.forall_mem_map] using Sequence.formed ih hw.1.2
  | ifElse _ ih => exact ih (List.forall_mem_cons.mp hw).2
  | whileLoop hc _ ih =>
    simp only [List.forall_mem_append, List.forall_mem_cons] at hw
    refine .mk ⟨rfl, trivial⟩ ?_
    simpa [Node.parts] using ⟨hc.formed hw.1.2, ih hw.2⟩
  | forLoop hi ht hu _ ih =>
    simp only [List.forall_mem_append, List.forall_mem_cons] at hw
    refine .mk ⟨rfl, trivial⟩ ?_
    simpa [Node.parts] using
      ⟨hi.formed hw.1.1.1.2.2, ht.formed hw.1.1.2.2, hu.formed hw.1.2.2, ih hw.2.2⟩
  | returning ho _ =>
    simp only [List.forall_mem_append, List.forall_mem_cons] at hw
    refine .mk ⟨rfl, trivial⟩ ?_
    simpa [Node.parts] using ho.formed hw.1.2
  | breaking => exact .leaf ⟨rfl, trivial⟩ rfl
  | continuing => exact .leaf ⟨rfl, trivial⟩ rfl
  | importing hs _ =>
    simp only [List.forall_mem_append, List.forall_mem_cons] at hw
    refine .mk ⟨rfl, trivial⟩ ?_
    simp only [Node.parts, List.forall_mem_cons, List.forall_mem_map]
    refine ⟨.leaf ⟨rfl, rfl, by simp⟩ rfl, fun a ha => ?_⟩
    obtain ⟨v, hv, hi⟩ := hs.of_mem ha
    exact hi.formed fun t ht => hw.1.2.2 t (hv ht)
  | exporting _ ih =>
    refine .mk ⟨rfl, trivial⟩ ?_
    simpa [Node.parts] using ih (List.forall_mem_cons.mp hw).2
  | exportingDefault _ ih =>
    simp only [List.forall_mem_cons] at hw
    refine .mk ⟨rfl, trivial⟩ ?_
    simpa [Node.parts] using ih hw.2.2
  | expression he _ _ =>
    refine .mk ⟨rfl, trivial⟩ ?_
    simpa [Node.parts, Form.role] using he.formed (List.forall_mem_append.mp hw).1
  | alone hc _ _ _ ih =>
    rw [List.forall_mem_append] at hw
    refine .mk ⟨rfl, .inl rfl⟩ ?_
    simpa [Node.parts] using ⟨hc.formed hw.1, ih hw.2, .leaf ⟨rfl, trivial⟩ rfl⟩
  | orElse hc hv hu ihv ihu =>
    simp only [List.forall_mem_append, List.forall_mem_cons] at hw
    refine .mk ⟨rfl, .inr (hv.closed (.inl rfl))⟩ ?_
    simpa [Node.parts] using ⟨hc.formed hw.1.1, ihv hw.1.2, hu.alternative (ihu hw.2.2)⟩
  | orElseIf hc hv hu ihv ihu =>
    simp only [List.forall_mem_append, List.forall_mem_cons] at hw
    refine .mk ⟨rfl, .inr (hv.closed (.inr rfl))⟩ ?_
    simpa [Node.parts] using ⟨hc.formed hw.1.1, ihv hw.1.2, hu.alternative (ihu hw.2.2)⟩

/-- Every node of a program that tokens form is formed of them. -/
theorem Program.formed {w : List Terminal} {n : Node} (h : Program w n) (hw : ∀ t ∈ w, T t) :
    Node.Everywhere (Formed T) .program n := by
  cases h with
  | mk hs =>
    refine .mk ⟨rfl, trivial⟩ ?_
    simp only [Node.parts, List.forall_mem_map]
    intro a ha
    obtain ⟨_, v, hv, hi⟩ := hs.of_mem ha
    exact hi.formed fun t ht => hw t (hv ht)

end Grammar

end HanScript
