-- Conforming trees have a text. Each role has its own part of the renderer, and
-- that part gives a text for every tree that conforms in the role.
import HanScript.Compile
import HanScript.Proofs.Conformance.Formed
import HanScript.Proofs.Parsing.Exact
import HanScript.Proofs.Printing.Each

namespace HanScript

open Script

/-! ## Success -/

/-- The computation gives a value. -/
def Succeeds {ε α : Type} (x : Except ε α) : Prop := ∃ a, x = .ok a

namespace Succeeds

variable {ε α β γ : Type}

theorem ok (a : α) : Succeeds (.ok a : Except ε α) := ⟨a, rfl⟩

theorem after {x : Except ε α} {f : α → Except ε β} {a : α} (hx : x = .ok a)
    (hf : Succeeds (f a)) : Succeeds (x >>= f) := by
  rw [hx]
  exact hf

theorem bind {x : Except ε α} {f : α → Except ε β} (hx : Succeeds x) (hf : ∀ a, Succeeds (f a)) :
    Succeeds (x >>= f) := by
  obtain ⟨a, ha⟩ := hx
  exact after ha (hf a)

/-- If all computations of a list give values of some form, the list gives a list of them. -/
theorem mapM {as : List α} {f : α → Except ε β} {g : γ → β} (h : ∀ a ∈ as, ∃ c, f a = .ok (g c)) :
    ∃ cs : List γ, as.mapM f = .ok (cs.map g) := by
  induction as with
  | nil => exact ⟨[], rfl⟩
  | cons a as ih =>
    rw [List.forall_mem_cons] at h
    obtain ⟨⟨c, hc⟩, hrest⟩ := h
    obtain ⟨cs, hcs⟩ := ih hrest
    exact ⟨c :: cs, by rw [List.mapM_cons, hc, hcs]; rfl⟩

theorem each {as : List α} {f : α → Except ε β} (h : ∀ a ∈ as, Succeeds (f a)) :
    Succeeds (as.mapM f) := by
  obtain ⟨cs, hcs⟩ := mapM (g := id) h
  exact ⟨_, hcs⟩

end Succeeds

/-! ## Roles -/

/-- The renderer has a text for the node in its role. -/
def Role.Rendered : Role → Node → Prop
  | program, n => Succeeds (render n)
  | statement, n | block, n => ∀ depth, Succeeds (Script.statement n depth)
  | alternative, n => n = .absent ∨ ∀ depth, Succeeds (Script.statement n depth)
  | declarator, n => Succeeds (Script.declarator n)
  | target, n => Succeeds (pattern n)
  | word, n => ∃ s x, n = .identifier s x
  | wordOrHole, n => n = .absent ∨ ∃ s x, n = .identifier s x
  | initial, n => Succeeds (initialPart n)
  | optional, n => n = .absent ∨ Succeeds (Script.expression n)
  | specifier, n => ∃ x, importSpecifier n = .ok (.text x)
  | source, n => Succeeds (importSource n)
  | expression, n => Succeeds (Script.expression n)
  | property, n => Succeeds (pair n)
  | tagName, n => Succeeds (reference n)
  | tagWord, n => ∃ s x, n = .tagName s x
  | tagAttribute, n => Succeeds (prop n)
  | attributeValue, n => Succeeds (propValue n)
  | child, n => Succeeds (Script.child n)

theorem optional_rendered {n : Node} (h : Role.optional.Rendered n) : Succeeds (Script.optional n) := by
  rcases h with rfl | h
  · exact .ok _
  · unfold Script.optional
    split
    · exact .ok _
    · exact h

theorem slot_rendered {n : Node} (h : Role.optional.Rendered n) : Succeeds (slot n) := by
  cases n with
  | absent => exact .ok _
  | _ => exact (h.resolve_left nofun).bind fun _ => .ok _

theorem word_named {n : Node} (h : Role.word.Rendered n) : ∃ x, nameOf n = .ok (.text x) := by
  obtain ⟨s, x, rfl⟩ := h
  exact ⟨x, rfl⟩

/-- Names that are texts can be listed. -/
theorem names_listed (xs : List String) : Succeeds ((xs.map Name.text).mapM listedName) := by
  refine .each fun name hname => ?_
  obtain ⟨x, _, rfl⟩ := List.mem_map.mp hname
  exact .ok x

theorem tag_rendered {n : Node} (h : Role.tagName.Rendered n) : Succeeds (tag n) := by
  cases n with
  | tagName => exact .ok _
  | _ => exact h

theorem numberOr_rendered {raw : String} (h : raw.isEmpty = false) (k : Number) :
    Succeeds (numberOr raw k) := by
  simp [numberOr, h, Succeeds]

theorem literal_rendered {value : Value} {raw : String} {template : Bool}
    (h : Node.isSoundLiteral value raw template) : Succeeds (literal value raw template) := by
  cases value with
  | text => exact .ok _
  | number =>
    simp only [Node.isSoundLiteral, Bool.and_eq_true, Bool.not_eq_true'] at h
    simpa [literal, h.1] using numberOr_rendered h.2 _
  | truth =>
    simp only [Node.isSoundLiteral, Bool.not_eq_true'] at h
    simp [literal, h, Succeeds]
  | nothing =>
    simp only [Node.isSoundLiteral, Bool.not_eq_true'] at h
    simp [literal, h, Succeeds]

theorem isBareInteger_rendered {n : Node} (h : n.isExpression) : Succeeds (isBareInteger n) := by
  cases n with
  | literal _ value =>
    cases value with
    | number =>
      simp only [Node.isExpression, Node.isSoundLiteral, Bool.and_eq_true, Bool.not_eq_true'] at h
      exact (numberOr_rendered h.2 _).bind fun _ => .ok _
    | _ => exact .ok _
  | _ => exact .ok _

/-! ## Expressions and markup -/

/-- The parts of a node have their texts. -/
def PartsRendered (n : Node) : Prop := ∀ part ∈ n.parts, part.1.Rendered part.2

theorem element_rendered {s : Span} {name : Node} {attributes items : List Node} {b : Bool}
    (h : PartsRendered (.element s name attributes items b)) :
    Succeeds (Script.expression (.element s name attributes items b)) := by
  simp only [PartsRendered, Node.parts, List.forall_mem_append, List.forall_mem_cons,
    List.forall_mem_map] at h
  obtain ⟨⟨hname, hattributes⟩, hitems⟩ := h
  have hprops : Succeeds (props attributes) := by
    rw [props_eq_mapM]
    exact .each hattributes
  have hchildren : Succeeds (children items) := by
    rw [children_eq_mapM]
    exact .each hitems
  exact (tag_rendered hname).bind fun _ => hprops.bind fun _ => hchildren.bind fun _ => .ok _

theorem fragment_rendered {s : Span} {items : List Node} (h : PartsRendered (.fragment s items)) :
    Succeeds (Script.expression (.fragment s items)) := by
  simp only [PartsRendered, Node.parts, List.forall_mem_map] at h
  have hchildren : Succeeds (children items) := by
    rw [children_eq_mapM]
    exact .each h
  exact hchildren.bind fun _ => .ok _

theorem expression_rendered {n : Node} (hn : n.isExpression) (hparts : PartsRendered n)
    (hconforms : ∀ part ∈ n.parts, part.1.admits part.2) : Role.expression.Rendered n := by
  cases n with
  | literal => exact literal_rendered hn
  | identifier => exact .ok _
  | binary | assignment =>
    simp only [PartsRendered, Node.parts, List.forall_mem_cons] at hparts
    exact hparts.1.bind fun _ => hparts.2.1.bind fun _ => .ok _
  | unary =>
    simp only [PartsRendered, Node.parts, List.forall_mem_cons] at hparts
    exact hparts.1.bind fun _ => .ok _
  | conditional =>
    simp only [PartsRendered, Node.parts, List.forall_mem_cons] at hparts
    exact hparts.1.bind fun _ => hparts.2.1.bind fun _ => hparts.2.2.1.bind fun _ => .ok _
  | call _ callee arguments =>
    simp only [PartsRendered, Node.parts, List.forall_mem_cons, List.forall_mem_map] at hparts
    have harguments : Succeeds (expressions arguments) := by
      rw [expressions_eq_mapM]
      exact .each hparts.2
    exact harguments.bind fun _ => hparts.1.bind fun _ => .ok _
  | member _ owner field computed =>
    simp only [PartsRendered, Node.parts, List.forall_mem_cons] at hparts hconforms
    cases computed with
    | true => exact hparts.1.bind fun _ => hparts.2.1.bind fun _ => .ok _
    | false =>
      exact hparts.1.bind fun _ => (isBareInteger_rendered hconforms.1).bind fun _ =>
        hparts.2.1.bind fun _ => .ok _
  | array _ items =>
    simp only [PartsRendered, Node.parts, List.forall_mem_map] at hparts
    have hslots : Succeeds (slots items) := by
      rw [slots_eq_mapM]
      exact .each fun item hitem => slot_rendered (hparts item hitem)
    exact hslots.bind fun _ => .ok _
  | object _ properties =>
    simp only [PartsRendered, Node.parts, List.forall_mem_map] at hparts
    have hpairs : Succeeds (pairs properties) := by
      rw [pairs_eq_mapM]
      exact .each hparts
    exact hpairs.bind fun _ => .ok _
  | element => exact element_rendered hparts
  | fragment => exact fragment_rendered hparts
  | _ => cases hn

theorem attributeValue_rendered {n : Node} (hn : Role.attributeValue.admits n)
    (hparts : PartsRendered n) : Role.attributeValue.Rendered n := by
  cases n with
  | absent => exact .ok _
  | literal _ value =>
    cases value with
    | text => exact .ok _
    | _ => cases hn
  | container =>
    simp only [PartsRendered, Node.parts, List.forall_mem_cons] at hparts
    exact hparts.1
  | _ => cases hn

theorem child_rendered {n : Node} (hn : Role.child.admits n) (hparts : PartsRendered n) :
    Role.child.Rendered n := by
  cases n with
  | markupText => exact .ok _
  | container =>
    simp only [PartsRendered, Node.parts, List.forall_mem_cons] at hparts
    exact hparts.1
  | element => exact element_rendered hparts
  | fragment => exact fragment_rendered hparts
  | _ => cases hn

/-! ## Statements -/

theorem pattern_rendered {n : Node} (hn : Role.target.admits n) (hparts : PartsRendered n) :
    Role.target.Rendered n := by
  cases n with
  | identifier => exact .ok _
  | arrayPattern _ items =>
    simp only [PartsRendered, Node.parts, List.forall_mem_map] at hparts
    have hnames : ∃ xs : List (Option String),
        items.mapM slotName? = .ok (xs.map (Option.map Name.text)) := by
      refine Succeeds.mapM fun item hitem => ?_
      rcases hparts item hitem with rfl | ⟨s, x, rfl⟩
      · exact ⟨none, rfl⟩
      · exact ⟨some x, rfl⟩
    obtain ⟨xs, hxs⟩ := hnames
    have hlisted : Succeeds ((xs.map (Option.map Name.text)).mapM fun name? => name?.mapM listedName) := by
      refine .each fun name? hname => ?_
      obtain ⟨x?, _, rfl⟩ := List.mem_map.mp hname
      cases x? <;> exact .ok _
    exact .after hxs (hlisted.bind fun _ => .ok _)
  | _ => cases hn

theorem declarator_rendered {n : Node} (hn : Role.declarator.admits n) (hparts : PartsRendered n) :
    Role.declarator.Rendered n := by
  cases n with
  | declarator _ target initial =>
    simp only [PartsRendered, Node.parts, List.forall_mem_cons] at hparts
    refine hparts.1.bind fun _ => ?_
    rcases hparts.2.1 with rfl | hinitial
    · exact .ok _
    · split
      · exact .ok _
      · exact hinitial.bind fun _ => .ok _
  | _ => cases hn

theorem declaration_rendered {s : Span} {keyword : String} {declarators : List Node}
    (hparts : PartsRendered (.declaration s keyword declarators)) :
    Succeeds (declaration (.declaration s keyword declarators)) := by
  simp only [PartsRendered, Node.parts, List.forall_mem_map] at hparts
  exact (Succeeds.each hparts).bind fun _ => .ok _

theorem initial_rendered {n : Node} (hn : Role.initial.admits n) (hparts : PartsRendered n)
    (hconforms : ∀ part ∈ n.parts, part.1.admits part.2) : Role.initial.Rendered n := by
  cases n with
  | absent => exact .ok _
  | declaration => exact declaration_rendered hparts
  | _ => exact expression_rendered hn hparts hconforms

theorem specifier_rendered {n : Node} (hn : Role.specifier.admits n) (hparts : PartsRendered n) :
    Role.specifier.Rendered n := by
  cases n with
  | importSpecifier _ imported localName =>
    simp only [PartsRendered, Node.parts, List.forall_mem_cons] at hparts
    obtain ⟨⟨_, x, rfl⟩, ⟨_, y, rfl⟩, -⟩ := hparts
    by_cases hsame : (Name.text x).same (.text y)
    · exact ⟨y, if_pos hsame⟩
    · exact ⟨x ++ " as " ++ y, if_neg hsame⟩
  | _ => cases hn

theorem source_rendered {n : Node} (hn : Role.source.admits n) : Role.source.Rendered n := by
  cases n with
  | literal _ value =>
    cases value with
    | text => exact .ok _
    | _ => cases hn
  | _ => cases hn

theorem lines_rendered {body : List Node} (h : ∀ n ∈ body, Role.statement.Rendered n) (depth : Int) :
    Succeeds (lines body depth) := by
  rw [lines_eq_mapM]
  exact .each fun n hn => (h n hn depth).bind fun _ => .ok _

theorem block_rendered {s : Span} {body : List Node} (hparts : PartsRendered (.block s body)) :
    Role.block.Rendered (.block s body) := by
  simp only [PartsRendered, Node.parts, List.forall_mem_map] at hparts
  intro depth
  cases body with
  | nil => exact .ok _
  | cons => exact (lines_rendered hparts _).bind fun _ => .ok _

theorem ifElse_rendered {s : Span} {test consequent alternate : Node}
    (hparts : PartsRendered (.ifElse s test consequent alternate)) :
    Role.statement.Rendered (.ifElse s test consequent alternate) := by
  simp only [PartsRendered, Node.parts, List.forall_mem_cons] at hparts
  obtain ⟨htest, hconsequent, halternate, -⟩ := hparts
  intro depth
  cases alternate with
  | absent => exact htest.bind fun _ => (hconsequent depth).bind fun _ => .ok _
  | _ =>
    exact htest.bind fun _ => (hconsequent depth).bind fun _ =>
      ((halternate.resolve_left (by intro h; cases h)) depth).bind fun _ => .ok _

theorem returning_rendered {s : Span} {argument : Node}
    (hparts : PartsRendered (.returning s argument)) :
    Role.statement.Rendered (.returning s argument) := by
  simp only [PartsRendered, Node.parts, List.forall_mem_cons] at hparts
  intro depth
  cases argument with
  | absent => exact .ok _
  | _ => exact (hparts.1.resolve_left (by intro h; cases h)).bind fun _ => .ok _

theorem function_rendered {s : Span} {name : Node} {params : List Node} {body : Node}
    (hparts : PartsRendered (.function s name params body)) :
    Role.statement.Rendered (.function s name params body) := by
  simp only [PartsRendered, Node.parts, List.forall_mem_cons, List.forall_mem_map] at hparts
  obtain ⟨⟨_, x, rfl⟩, hbody, hparams⟩ := hparts
  intro depth
  obtain ⟨xs, hxs⟩ := Succeeds.mapM fun param hparam => word_named (hparams param hparam)
  exact .after hxs ((names_listed xs).bind fun _ => (hbody depth).bind fun _ => .ok _)

theorem importing_rendered {s : Span} {specifiers : List Node} {source : Node}
    (hparts : PartsRendered (.importing s specifiers source)) :
    Role.statement.Rendered (.importing s specifiers source) := by
  simp only [PartsRendered, Node.parts, List.forall_mem_cons, List.forall_mem_map] at hparts
  intro depth
  obtain ⟨xs, hxs⟩ := Succeeds.mapM hparts.2
  exact .after hxs ((names_listed xs).bind fun _ => hparts.1.bind fun _ => .ok _)

theorem statement_rendered {n : Node} (hn : n.isStatement) (hparts : PartsRendered n) :
    Role.statement.Rendered n := by
  cases n with
  | declaration => exact fun _ => (declaration_rendered hparts).bind fun _ => .ok _
  | function => exact function_rendered hparts
  | block => exact block_rendered hparts
  | ifElse => exact ifElse_rendered hparts
  | whileLoop =>
    simp only [PartsRendered, Node.parts, List.forall_mem_cons] at hparts
    exact fun depth => hparts.1.bind fun _ => (hparts.2.1 depth).bind fun _ => .ok _
  | forLoop =>
    simp only [PartsRendered, Node.parts, List.forall_mem_cons] at hparts
    obtain ⟨hinitial, htest, hupdate, hbody, -⟩ := hparts
    exact fun depth => hinitial.bind fun _ => (optional_rendered htest).bind fun _ =>
      (optional_rendered hupdate).bind fun _ => (hbody depth).bind fun _ => .ok _
  | returning => exact returning_rendered hparts
  | breaking => exact fun _ => .ok _
  | continuing => exact fun _ => .ok _
  | importing => exact importing_rendered hparts
  | exporting =>
    simp only [PartsRendered, Node.parts, List.forall_mem_cons] at hparts
    exact fun depth => (hparts.1 depth).bind fun _ => .ok _
  | expressionStatement =>
    simp only [PartsRendered, Node.parts, List.forall_mem_cons] at hparts
    exact fun _ => hparts.1.bind fun _ => .ok _
  | _ => cases hn

/-! ## All roles -/

/-- The renderer has a text for every tree that conforms. -/
theorem rendered_of_conforms {r : Role} {n : Node} (h : Node.Conforms r n) : r.Rendered n := by
  induction h with
  | @mk r n hn hparts ih =>
    have hconforms : ∀ part ∈ n.parts, part.1.admits part.2 := fun part hp => (hparts part hp).here
    cases r with
    | program =>
      cases n with
      | program =>
        simp only [Node.parts, List.forall_mem_map] at ih
        exact (lines_rendered ih 0).bind fun _ => .ok _
      | _ => cases hn
    | statement => exact statement_rendered hn ih
    | alternative =>
      cases n with
      | absent => exact .inl rfl
      | _ => exact .inr (statement_rendered hn ih)
    | block =>
      cases n with
      | block => exact block_rendered ih
      | _ => cases hn
    | declarator => exact declarator_rendered hn ih
    | target => exact pattern_rendered hn ih
    | word =>
      cases n with
      | identifier => exact ⟨_, _, rfl⟩
      | _ => cases hn
    | wordOrHole =>
      cases n with
      | absent => exact .inl rfl
      | identifier => exact .inr ⟨_, _, rfl⟩
      | _ => cases hn
    | initial => exact initial_rendered hn ih hconforms
    | optional =>
      cases n with
      | absent => exact .inl rfl
      | _ => exact .inr (expression_rendered hn ih hconforms)
    | specifier => exact specifier_rendered hn ih
    | source => exact source_rendered hn
    | expression => exact expression_rendered hn ih hconforms
    | property =>
      cases n with
      | property =>
        simp only [Node.parts, List.forall_mem_cons] at ih
        obtain ⟨⟨_, _, rfl⟩, hvalue, -⟩ := ih
        exact hvalue.bind fun _ => .ok _
      | _ => cases hn
    | tagName =>
      cases n with
      | tagName => exact .ok _
      | tagMember =>
        simp only [Node.parts, List.forall_mem_cons] at ih
        obtain ⟨howner, ⟨_, _, rfl⟩, -⟩ := ih
        exact howner.bind fun _ => .ok _
      | _ => cases hn
    | tagWord =>
      cases n with
      | tagName => exact ⟨_, _, rfl⟩
      | _ => cases hn
    | tagAttribute =>
      cases n with
      | tagAttribute =>
        simp only [Node.parts, List.forall_mem_cons] at ih
        obtain ⟨⟨_, _, rfl⟩, hvalue, -⟩ := ih
        exact hvalue.bind fun _ => .ok _
      | _ => cases hn
    | attributeValue => exact attributeValue_rendered hn ih
    | child => exact child_rendered hn ih

/-! ## Compiling -/

/-- What the parser returns is formed of the tokens. -/
theorem formed_of_tokens {T : Terminal → Prop} {tokens : List Token} {p : Node}
    (h : parse tokens = .ok p) (hT : ∀ t ∈ sentence tokens, T t) :
    Node.Everywhere (Formed T) .program p := by
  have hprogram : Grammar.Program (sentence tokens) p.bare := parse_ok_iff_program.mp ⟨p, h, rfl⟩
  exact .of_bare (fun _ _ => Formed.of_bare) (hprogram.formed hT)

theorem formed_of_parse {tokens : List Token} {p : Node} (h : parse tokens = .ok p) :
    Node.Everywhere (Formed fun _ => True) .program p := formed_of_tokens h fun _ _ => trivial

/-- What the parser returns conforms, whatever the tokens are. -/
theorem conforms_of_parse {tokens : List Token} {p : Node} (h : parse tokens = .ok p) :
    Node.Conforms .program p := (formed_of_parse h).mono fun _ _ hn => hn.1

theorem compile_of_parse {source : String} {p : Node} (h : parseSource source = .ok p) {text : String}
    (ht : render p = .ok text) : compile source = .ok text := by
  unfold compile
  simp only [h, ht]

theorem compile_of_parse_error {source : String} {e : ParseError}
    (h : parseSource source = .error e) : compile source = .error (.parse e) := by
  unfold compile
  rw [h]

/-- Compiling a source text gives a text, or fails because the source does not parse: what
the parser returns conforms, and whatever conforms has a text. -/
theorem compile_fails_only_by_parsing :
    (∀ tokens p, parse tokens = .ok p → Node.Conforms .program p) ∧
      (∀ n, Node.Conforms .program n → ∃ text, render n = .ok text) ∧
      ∀ source, (∃ text, compile source = .ok text) ∨
        ∃ e, parseSource source = .error e ∧ e.misfit ≠ .overrun ∧
          compile source = .error (.parse e) := by
  refine ⟨fun _ _ => conforms_of_parse, fun n hn => rendered_of_conforms hn, fun source => ?_⟩
  cases hp : parseSource source with
  | error e => exact .inr ⟨e, rfl, parse_ne_overrun _ e hp, compile_of_parse_error hp⟩
  | ok p =>
    obtain ⟨text, ht⟩ : Succeeds (render p) := rendered_of_conforms (conforms_of_parse hp)
    exact .inl ⟨text, compile_of_parse hp ht⟩

/-- The tokens of an element with an attribute, a text and a value in it. -/
def greeting : List Token :=
  [⟨.less, "<", {}⟩, ⟨.identifier, "p", {}⟩, ⟨.identifier, "id", {}⟩, ⟨.assign, "=", {}⟩,
   ⟨.string, "top", {}⟩, ⟨.greater, ">", {}⟩, ⟨.identifier, "hello", {}⟩, ⟨.leftBrace, "\x7b", {}⟩,
   ⟨.identifier, "name", {}⟩, ⟨.rightBrace, "\x7d", {}⟩, ⟨.closeTag, "</", {}⟩,
   ⟨.identifier, "p", {}⟩, ⟨.greater, ">", {}⟩]

/-- The element conforms, so it has a text. -/
theorem greeting_conforms :
    ∃ p, parse greeting = .ok p ∧ Node.Conforms .program p ∧ ∃ text, render p = .ok text := by
  have hconforms := compile_fails_only_by_parsing.1 greeting _ rfl
  exact ⟨_, rfl, hconforms, compile_fails_only_by_parsing.2.1 _ hconforms⟩

end HanScript
