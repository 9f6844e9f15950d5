-- The texts of statements, with names read as keywords, are read as the
-- statements without their markup.
import HanScript.Proofs.Printing.Keywords

namespace HanScript

open Grammar Script
open Terminal (rekeyed)

/-- The kinds of tokens that go on with an `if`. -/
def elseKinds : List TokenKind := [.elseWord, .elseIfWord]

/-- The text spells the statement, before anything but an `else` that would belong to it. -/
def SpeltStatement (text : String) (n : Node) : Prop :=
  ∃ w, Spells rekeyed text w ∧
    ∀ next, (n.endsOpen → next ∉ elseKinds) → Statement .statement next w n.lowered.bare

/-- What the renderer says of a node in its role is read as what the node stands for. -/
def Role.Stated : Role → Node → Prop
  | statement, n => ∀ depth, ∃ text, Script.statement n depth = .ok text ∧
    SpeltStatement text n
  | alternative, n => n = .absent ∨ ∀ depth, ∃ text, Script.statement n depth = .ok text ∧
    SpeltStatement text n
  | block, n => ∃ ns, n.lowered.bare = .block {} ns ∧
    ∀ depth, ∃ text w, Script.statement n depth = .ok text ∧
      Spells rekeyed text (⟨.leftBrace, "\x7b"⟩ :: w ++ [⟨.rightBrace, "\x7d"⟩]) ∧
      Sequence (Statement .statement) .rightBrace w ns
  | declarator, n => Written rekeyed (Script.declarator n) (Declarator · n.lowered.bare)
  | target, n => Written rekeyed (pattern n) (Grammar.Target · n.lowered.bare)
  | wordOrHole, n => n = .absent ∨ Role.word.Shown rekeyed n
  | initial, n => Written rekeyed (initialPart n) (Initial · n.lowered.bare)
  | specifier, n => ∃ x, Named rekeyed x ∧ Script.importSpecifier n = .ok (.text x) ∧
    n.lowered.bare = .importSpecifier {} (.identifier {} x) (.identifier {} x)
  | source, n => ∃ x, '\\' ∉ x.toList ∧ importSource n = .ok (quote x) ∧
    n.lowered.bare = .literal {} (.text x) x false
  | r, n => r.Shown rekeyed n

/-! ## Declarations -/

theorem stated_target {n : Node} (hn : Role.target.admits n)
    (hf : n.FormedOf (Faithful rekeyed) .target)
    (hparts : ∀ part ∈ n.parts, part.1.Stated part.2) : Role.target.Stated n := by
  cases n with
  | identifier s x =>
    have hx := (hf.resolve_right (by rintro ⟨h, -⟩; cases h)).named
    exact ⟨x, _, rfl, hx.spells, .name .mk⟩
  | arrayPattern s items =>
    simp only [Node.parts, List.forall_mem_map] at hparts
    have hitems : ∀ n ∈ items, (((slotName? n >>= fun name? => name?.mapM listedName) = .ok none) ∧
        n.lowered.bare = .absent) ∨
        ∃ text w, (slotName? n >>= fun name? => name?.mapM listedName) = .ok (some text) ∧
          Spells rekeyed text w ∧ Word w n.lowered.bare := by
      intro n hn
      rcases hparts n hn with rfl | ⟨t, x, rfl, hx⟩
      · exact .inl ⟨rfl, rfl⟩
      · exact .inr ⟨x, _, rfl, hx.spells, .mk⟩
    obtain ⟨texts, htexts, w, hspells, hw⟩ := written_slotted keepsSigns_rekeyed hitems
    obtain ⟨names, hnames, htexts⟩ := mapM_of_bind htexts
    rw [← Node.bareList_lowered] at hw
    exact ⟨_, _, bind_eq_ok hnames (bind_eq_ok htexts rfl), hspells, .pattern hw⟩
  | _ => cases hn

theorem stated_declarator {n : Node} (hn : Role.declarator.admits n)
    (hparts : ∀ part ∈ n.parts, part.1.Stated part.2) : Role.declarator.Stated n := by
  cases n with
  | declarator s target initial =>
    simp only [Node.parts, List.forall_mem_cons] at hparts
    obtain ⟨⟨text, w, htext, hspells, hw⟩, hinitial, -⟩ := hparts
    rcases hinitial with rfl | hprints
    · exact ⟨text, w, bind_eq_ok htext rfl, hspells, .plain hw⟩
    · obtain ⟨value, v, hvalue, hvspells, hv⟩ := hprints.written
      have hequals : ("=", TokenKind.assign) ∈ signs := by decide
      have habsent : initial.isAbsent = false := by
        cases initial with
        | absent => cases hvalue
        | _ => rfl
      refine ⟨text ++ " = " ++ value, w ++ ⟨.assign, "="⟩ :: v, ?_, ?_, .given hw hv⟩
      · refine bind_eq_ok htext ?_
        simp [habsent, hvalue]
      · exact (hspells.operator keepsSigns_rekeyed hequals hvspells).of_toList (by simp)
  | _ => cases hn

theorem written_declaration {s : Span} {keyword : String} {declarators : List Node}
    (hf : (Node.declaration s keyword declarators).FormedOf (Faithful rekeyed) .statement)
    (hparts : ∀ n ∈ declarators, Role.declarator.Stated n) :
    Written rekeyed (declaration (.declaration s keyword declarators))
      (Declaration · (Node.declaration s keyword declarators).lowered.bare) := by
  obtain ⟨hkeyword, hne⟩ := hf
  obtain ⟨texts, htexts, hspelt⟩ := spelt_of_written hparts
  obtain ⟨w, hspells, hw⟩ := spelt_separated keepsSigns_rekeyed hspelt (by simpa using hne)
  rw [← Node.bareList_lowered] at hw
  rcases List.mem_pair.mp hkeyword with rfl | rfl
  · exact ⟨_, _, bind_eq_ok htexts rfl,
      (spells_keyword (by decide : ("let", .letWord) ∈ statementWords)).spaced hspells, .changing hw⟩
  · exact ⟨_, _, bind_eq_ok htexts rfl,
      (spells_keyword (by decide : ("const", .constWord) ∈ statementWords)).spaced hspells, .constant hw⟩

theorem written_optional {n : Node} (h : n = .absent ∨ Prints rekeyed n) :
    Written rekeyed (Script.optional n) (Optional · n.lowered.bare) := by
  rcases h with rfl | hprints
  · exact ⟨"", [], rfl, spells_nothing, .leftOut⟩
  · obtain ⟨text, w, htext, hspells, hw⟩ := hprints.written
    refine ⟨text, w, ?_, hspells, .given hw⟩
    cases n with
    | absent => cases htext
    | _ => exact htext

theorem stated_initial {n : Node} (hn : Role.initial.admits n)
    (hf : n.FormedOf (Faithful rekeyed) .initial) (hq : n.Quotable)
    (hshown : ∀ part ∈ n.parts, part.1.Shown rekeyed part.2)
    (hparts : ∀ part ∈ n.parts, part.1.Stated part.2) : Role.initial.Stated n := by
  cases n with
  | declaration s keyword declarators =>
    simp only [Node.parts, List.forall_mem_map] at hparts
    obtain ⟨text, w, htext, hspells, hw⟩ := written_declaration hf hparts
    exact ⟨text, w, htext, hspells, .declaration hw⟩
  | absent => exact ⟨"", [], rfl, spells_nothing, .expression .leftOut⟩
  | _ =>
    have hprints := prints_of_parts transparent_rekeyed (by exact hn) (hf.operand rfl) hq hshown
    obtain ⟨text, w, htext, hspells, hw⟩ := written_optional (.inr hprints)
    exact ⟨text, w, htext, hspells, .expression hw⟩

/-! ## Imports -/

theorem stated_specifier {n : Node} (hn : Role.specifier.admits n)
    (hf : n.FormedOf (Faithful rekeyed) .specifier)
    (hparts : ∀ part ∈ n.parts, part.1.Stated part.2) : Role.specifier.Stated n := by
  cases n with
  | importSpecifier s imported localName =>
    obtain ⟨t, u, x, rfl, rfl⟩ := hf
    simp only [Node.parts, List.forall_mem_cons] at hparts
    obtain ⟨⟨_, _, hx, hnamed⟩, -⟩ := hparts
    cases hx
    exact ⟨x, hnamed, if_pos (by simp [Name.same]), rfl⟩
  | _ => cases hn

theorem stated_source {n : Node} (hn : Role.source.admits n)
    (hf : n.FormedOf (Faithful rekeyed) .source) (hq : n.Quotable) : Role.source.Stated n := by
  cases n with
  | literal s value raw isTemplate =>
    cases value with
    | text x =>
      obtain ⟨rfl, htemplate⟩ := hf
      cases isTemplate with
      | true => cases htemplate rfl
      | false => exact ⟨raw, hq, rfl, rfl⟩
    | _ => cases hn
  | _ => cases hn

/-! ## Blocks -/

/-- The statements of a sequence do not begin with an `else`. -/
theorem sequence_follower {next : TokenKind} {w : List Terminal} {ns : List Node}
    (h : Sequence (Statement .statement) next w ns) (hnext : next ∉ elseKinds) :
    follower w next ∉ elseKinds := by
  cases h with
  | nil => exact hnext
  | cons hw _ =>
    obtain ⟨t, v, rfl, ht⟩ := hw.avoids (by decide : ∀ kind ∈ elseKinds, kind ∈ followingKinds)
    exact ht

/-- Statements, each on a line of its own. -/
theorem spelt_sequence {texts : List String} {ns : List Node}
    (h : List.Forall₂ SpeltStatement texts ns) :
    ∃ w, Spells rekeyed (joined "\n" texts) w ∧ ∀ next ∉ elseKinds,
      Sequence (Statement .statement) next w (ns.map fun n => n.lowered.bare) := by
  induction h with
  | nil => exact ⟨[], spells_nothing, fun _ _ => .nil⟩
  | cons hn hrest ih =>
    obtain ⟨w, hspells, hw⟩ := hn
    cases hrest with
    | nil => exact ⟨w ++ [], by simpa [joined] using hspells, fun _ hnext => .cons (hw _ fun _ => hnext) .nil⟩
    | cons =>
      obtain ⟨v, hlines, hv⟩ := ih
      refine ⟨w ++ v, hspells.nextLine hlines, fun next hnext => ?_⟩
      have hrest := hv next hnext
      exact .cons (hw _ fun _ => sequence_follower hrest hnext) hrest

theorem spelt_lines {body : List Node} (h : ∀ n ∈ body, Role.statement.Stated n) (depth : Int) :
    ∃ texts, lines body depth = .ok texts ∧ List.Forall₂ SpeltStatement texts body := by
  rw [lines_eq_mapM]
  induction body with
  | nil => exact ⟨[], rfl, .nil⟩
  | cons n body ih =>
    rw [List.forall_mem_cons] at h
    obtain ⟨text, htext, w, hspells, hw⟩ := h.1 depth
    obtain ⟨texts, htexts, hspelt⟩ := ih h.2
    have hline : line n depth = .ok (indent depth ++ text) := bind_eq_ok htext rfl
    exact ⟨_ :: texts, by rw [List.mapM_cons, hline, htexts]; rfl,
      .cons ⟨w, hspells.indented depth, hw⟩ hspelt⟩

theorem stated_block {s : Span} {body : List Node} (h : ∀ n ∈ body, Role.statement.Stated n) :
    Role.block.Stated (.block s body) := by
  refine ⟨_, rfl, fun depth => ?_⟩
  rw [Node.bareList_lowered]
  cases body with
  | nil =>
    refine ⟨_, [], rfl, fun r _ => ?_, .nil⟩
    simp (disch := decide) [keepsSigns_rekeyed.sign]
  | cons =>
    obtain ⟨texts, htexts, hspelt⟩ := spelt_lines h (depth + 1)
    obtain ⟨w, hspells, hw⟩ := spelt_sequence hspelt
    refine ⟨_, w, bind_eq_ok htexts rfl, fun r _ => ?_, hw _ (by decide)⟩
    simp (disch := decide) [hspells.before, terminals_indent, keepsSigns_rekeyed.sign]

/-! ## Statements -/

theorem condition_of_prints {n : Node} (h : Prints rekeyed n) :
    ∃ text w, Script.expression n = .ok text ∧ Spells rekeyed (parenthesized text) w ∧
      Condition w n.lowered.bare := by
  obtain ⟨text, w, htext, hspells, hw⟩ := h.written
  exact ⟨text, _, htext, hspells.parenthesized keepsSigns_rekeyed, .mk hw⟩

theorem stated_function {s : Span} {name body : Node} {params : List Node}
    (hname : Role.word.Stated name) (hbody : Role.block.Stated body)
    (hparams : ∀ n ∈ params, Role.word.Stated n) :
    Role.statement.Stated (.function s name params body) := by
  intro depth
  obtain ⟨t, x, rfl, hx⟩ := hname
  obtain ⟨ns, hns, hblock⟩ := hbody
  obtain ⟨text, v, htext, htextSpells, hv⟩ := hblock depth
  have hwords : ∀ n ∈ params, Written rekeyed (nameOf n >>= listedName) (Word · n.lowered.bare) := by
    intro n hn
    obtain ⟨u, y, rfl, hy⟩ := hparams n hn
    exact ⟨y, _, rfl, hy.spells, .mk⟩
  obtain ⟨texts, htexts, hspelt⟩ := spelt_of_written hwords
  obtain ⟨w, hspells, hw⟩ := spelt_separatedOrNone keepsSigns_rekeyed hspelt
  obtain ⟨names, hnames, htexts⟩ := mapM_of_bind htexts
  rw [← Node.bareList_lowered] at hw
  have hword := spells_keyword (by decide : ("function", .functionWord) ∈ statementWords)
  have hall := ((hword.spaced hx.spells).applied keepsSigns_rekeyed hspells).spaced htextSpells
  refine ⟨_, bind_eq_ok hnames (bind_eq_ok htexts (bind_eq_ok rfl (bind_eq_ok htext rfl))),
    ⟨.functionWord, "function"⟩ :: ⟨.identifier, x⟩ :: ⟨.leftParen, "("⟩ :: w
      ++ ⟨.rightParen, ")"⟩ :: ⟨.leftBrace, "\x7b"⟩ :: v ++ [⟨.rightBrace, "\x7d"⟩],
    by simpa using hall, fun next _ => ?_⟩
  have htree : (Node.function s (.identifier t x) params body).lowered.bare =
      .function {} (.identifier {} x) (Node.bareList (Node.rewrittenList Node.loweredRoot params)) (.block {} ns) := by
    rw [← hns]
    rfl
  rw [htree]
  exact .function (.inl rfl) hw hv

theorem stated_ifElse {s : Span} {test consequent alternate : Node}
    (hf : (Node.ifElse s test consequent alternate).FormedOf (Faithful rekeyed) .statement)
    (htest : Prints rekeyed test) (hconsequent : Role.statement.Stated consequent)
    (halternate : Role.alternative.Stated alternate) :
    Role.statement.Stated (.ifElse s test consequent alternate) := by
  intro depth
  obtain ⟨condition, w, hcondition, hw, htest⟩ := condition_of_prints htest
  obtain ⟨text, htext, v, hv, hconsequent⟩ := hconsequent depth
  have hif := ((spells_keyword (by decide : ("if", .ifWord) ∈ statementWords)).spaced hw).spaced hv
  rcases halternate with rfl | halternate
  · refine ⟨_, bind_eq_ok hcondition (bind_eq_ok htext rfl), ⟨.ifWord, "if"⟩ :: (w ++ v),
      by simpa using hif, fun next hnext => ?_⟩
    have hnone : next ≠ .elseWord ∧ next ≠ .elseIfWord := by simpa [elseKinds] using hnext rfl
    exact .ifElse (.alone htest (hconsequent next fun _ => hnext rfl) hnone.1 hnone.2)
  · obtain ⟨other, hother, u, hu, halternate⟩ := halternate depth
    have hopen : consequent.endsOpen = false := hf.resolve_left fun habsent => by
      cases alternate with
      | absent => cases hother
      | _ => cases habsent
    have helse := (spells_keyword (by decide : ("else", .elseWord) ∈ statementWords)).spaced hu
    refine ⟨"if " ++ parenthesized condition ++ " " ++ text ++ " else " ++ other, ?_,
      ⟨.ifWord, "if"⟩ :: (w ++ v ++ ⟨.elseWord, "else"⟩ :: u),
      (hif.spaced helse).of_toList (by simp), fun next hnext => ?_⟩
    · cases alternate with
      | absent => cases hother
      | _ => exact bind_eq_ok hcondition (bind_eq_ok htext (bind_eq_ok hother rfl))
    · have helse : alternate.endsOpen → next ∉ elseKinds := fun ho =>
        hnext (by simp [Node.endsOpen, ho])
      exact .ifElse (.orElse htest (hconsequent .elseWord (by simp [hopen])) (halternate next helse))

theorem stated_whileLoop {s : Span} {test body : Node} (htest : Prints rekeyed test)
    (hbody : Role.statement.Stated body) : Role.statement.Stated (.whileLoop s test body) := by
  intro depth
  obtain ⟨condition, w, hcondition, hw, htest⟩ := condition_of_prints htest
  obtain ⟨text, htext, v, hv, hbody⟩ := hbody depth
  have hwhile := spells_keyword (by decide : ("while", .whileWord) ∈ statementWords)
  exact ⟨_, bind_eq_ok hcondition (bind_eq_ok htext rfl), ⟨.whileWord, "while"⟩ :: w ++ v,
    by simpa using (hwhile.spaced hw).spaced hv, fun next hnext => .whileLoop htest (hbody next hnext)⟩

theorem stated_forLoop {s : Span} {initial test update body : Node}
    (hinitial : Role.initial.Stated initial) (htest : test = .absent ∨ Prints rekeyed test)
    (hupdate : update = .absent ∨ Prints rekeyed update) (hbody : Role.statement.Stated body) :
    Role.statement.Stated (.forLoop s initial test update body) := by
  intro depth
  obtain ⟨first, i, hfirst, hi, hinitial⟩ := hinitial
  obtain ⟨second, t, hsecond, ht, htest⟩ := written_optional htest
  obtain ⟨third, u, hthird, hu, hupdate⟩ := written_optional hupdate
  obtain ⟨text, htext, w, hw, hbody⟩ := hbody depth
  have hhead := hi.semicolon keepsSigns_rekeyed (ht.semicolon keepsSigns_rekeyed hu)
  have hfor := spells_keyword (by decide : ("for", .forWord) ∈ statementWords)
  refine ⟨_, bind_eq_ok hfirst (bind_eq_ok hsecond (bind_eq_ok hthird (bind_eq_ok htext rfl))),
    ⟨.forWord, "for"⟩ :: ⟨.leftParen, "("⟩ :: i ++ ⟨.semicolon, ";"⟩ :: t ++ ⟨.semicolon, ";"⟩ :: u
      ++ ⟨.rightParen, ")"⟩ :: w, ?_, fun next hnext => .forLoop hinitial htest hupdate (hbody next hnext)⟩
  simpa [joined] using (hfor.spaced (hhead.parenthesized keepsSigns_rekeyed)).spaced hw

theorem stated_returning {s : Span} {argument : Node}
    (hargument : argument = .absent ∨ Prints rekeyed argument) :
    Role.statement.Stated (.returning s argument) := by
  intro depth
  have hreturn := spells_keyword (by decide : ("return", .returnWord) ∈ statementWords)
  rcases hargument with rfl | hargument
  · exact ⟨_, rfl, _, (hreturn.ended keepsSigns_rekeyed).of_toList (by simp), fun _ _ =>
      .returning .leftOut .semicolon⟩
  · obtain ⟨text, w, htext, hw, hargument⟩ := hargument.written
    refine ⟨"return " ++ text ++ ";", ?_, ⟨.returnWord, "return"⟩ :: w ++ [⟨.semicolon, ";"⟩],
      by simpa using (hreturn.spaced hw).ended keepsSigns_rekeyed, fun _ _ =>
        .returning (.given hargument) .semicolon⟩
    cases argument with
    | absent => cases htext
    | _ => exact bind_eq_ok htext rfl

theorem stated_importing {s : Span} {specifiers : List Node} {source : Node}
    (hspecifiers : ∀ n ∈ specifiers, Role.specifier.Stated n) (hsource : Role.source.Stated source) :
    Role.statement.Stated (.importing s specifiers source) := by
  intro depth
  obtain ⟨x, hx, hpath, htree⟩ := hsource
  have hnames : ∀ n ∈ specifiers,
      Written rekeyed (Script.importSpecifier n >>= listedName) (Specifier · n.lowered.bare) := by
    intro n hn
    obtain ⟨y, hy, htext, hbare⟩ := hspecifiers n hn
    refine ⟨y, _, bind_eq_ok htext rfl, hy.spells, ?_⟩
    rw [hbare]
    exact .mk
  obtain ⟨texts, htexts, hspelt⟩ := spelt_of_written hnames
  obtain ⟨w, hspells, hw⟩ := spelt_separatedOrNone keepsSigns_rekeyed hspelt
  obtain ⟨names, hnames, htexts⟩ := mapM_of_bind htexts
  rw [← Node.bareList_lowered] at hw
  have hbraces : Spells rekeyed ("\x7b " ++ listed texts ++ " \x7d")
      (⟨.leftBrace, "\x7b"⟩ :: w ++ [⟨.rightBrace, "\x7d"⟩]) := by
    intro r _
    simp (disch := decide) [hspells.before, keepsSigns_rekeyed.sign]
  have himport := spells_keyword (by decide : ("import", .importWord) ∈ statementWords)
  have hfrom := spells_keyword (by decide : ("from", .fromWord) ∈ statementWords)
  have hall := ((himport.spaced hbraces).spaced
    (hfrom.spaced (spells_quote keepsSigns_rekeyed hx))).ended keepsSigns_rekeyed
  refine ⟨_, bind_eq_ok hnames (bind_eq_ok htexts (bind_eq_ok hpath rfl)),
    ⟨.importWord, "import"⟩ :: ⟨.leftBrace, "\x7b"⟩ :: w ++ ⟨.rightBrace, "\x7d"⟩
      :: ⟨.fromWord, "from"⟩ :: ⟨.string, x⟩ :: [⟨.semicolon, ";"⟩], ?_, fun next _ => ?_⟩
  · have hall := hall.of_toList (b := "import \x7b " ++ listed texts ++ " \x7d from " ++ quote x ++ ";")
      (by simp)
    simpa using hall
  · have hnode : (Node.importing s specifiers source).lowered.bare =
        .importing {} (Node.bareList (Node.rewrittenList Node.loweredRoot specifiers)) (.literal {} (.text x) x false) := by
      rw [← htree]
      rfl
    rw [hnode]
    exact .importing hw.listed .semicolon

theorem stated_exporting {s : Span} {exported : Node} {isDefault : Bool}
    (hexported : Role.statement.Stated exported) :
    Role.statement.Stated (.exporting s exported isDefault) := by
  intro depth
  obtain ⟨text, htext, w, hw, hexported⟩ := hexported depth
  have hexport := spells_keyword (by decide : ("export", .exportWord) ∈ statementWords)
  cases isDefault with
  | false =>
    exact ⟨_, bind_eq_ok htext rfl, ⟨.exportWord, "export"⟩ :: w, by simpa using hexport.spaced hw,
      fun next hnext => .exporting (hexported next hnext)⟩
  | true =>
    have hdefault := spells_keyword (by decide : ("default", .defaultWord) ∈ statementWords)
    exact ⟨_, bind_eq_ok htext rfl, ⟨.exportWord, "export"⟩ :: ⟨.defaultWord, "default"⟩ :: w,
      by simpa using (hexport.spaced hdefault).spaced hw,
      fun next hnext => .exportingDefault (hexported next hnext)⟩

/-- A statement that begins with no brace is no other statement than an expression. -/
theorem Reading.not_statementKind {ρ : Terminal → Terminal} {n : Node} {text : String}
    {w : List Terminal} (h : Reading ρ .assignment false n text w) :
    follower w .eof ∉ statementKinds := by
  have hall : ∀ kind ∈ (Form.expression .assignment).openers, kind ∈ statementKinds →
      kind = .leftBrace := by decide
  obtain ⟨t, u, rfl, ht⟩ := h.phrase.opens
  exact fun hmem => h.opens rfl (hall _ ht hmem)

theorem stated_expressionStatement {s : Span} {e : Node} (he : Prints rekeyed e) :
    Role.statement.Stated (.expressionStatement s e) := by
  intro depth
  obtain ⟨text, w, l, htext, -, hread⟩ := he
  have hwrapped : ∃ v, Reading rekeyed .assignment false e.lowered
      (parenthesizedIf (startsWithObject e) text) v := by
    cases hobject : startsWithObject e with
    | true => exact ⟨_, (hread.parenthesized keepsSigns_rekeyed).loosen (by decide)⟩
    | false =>
      rw [hobject] at hread
      exact ⟨w, hread.loosen l.one_le_rank⟩
  obtain ⟨v, hv⟩ := hwrapped
  exact ⟨_, bind_eq_ok htext rfl, _, hv.spells.ended keepsSigns_rekeyed, fun _ _ =>
    .expression hv.phrase hv.not_statementKind .semicolon⟩

/-! ## All the way down -/

theorem stated_statement {n : Node} (hn : n.isStatement)
    (hf : n.FormedOf (Faithful rekeyed) .statement)
    (hparts : ∀ part ∈ n.parts, part.1.Stated part.2) : Role.statement.Stated n := by
  cases n with
  | declaration s keyword declarators =>
    simp only [Node.parts, List.forall_mem_map] at hparts
    obtain ⟨text, w, htext, hw, hdeclaration⟩ := written_declaration hf hparts
    exact fun depth => ⟨_, bind_eq_ok htext rfl, _, hw.ended keepsSigns_rekeyed, fun _ _ =>
      .declaration hdeclaration .semicolon⟩
  | function s name params body =>
    simp only [Node.parts, List.forall_mem_cons, List.forall_mem_map] at hparts
    exact stated_function hparts.1 hparts.2.1 hparts.2.2
  | block s body =>
    simp only [Node.parts, List.forall_mem_map] at hparts
    obtain ⟨ns, hns, hblock⟩ := stated_block (s := s) hparts
    intro depth
    obtain ⟨text, w, htext, hspells, hw⟩ := hblock depth
    refine ⟨text, htext, _, hspells, fun _ _ => ?_⟩
    rw [hns]
    exact .block hw
  | ifElse s test consequent alternate =>
    simp only [Node.parts, List.forall_mem_cons] at hparts
    exact stated_ifElse hf hparts.1 hparts.2.1 hparts.2.2.1
  | whileLoop s test body =>
    simp only [Node.parts, List.forall_mem_cons] at hparts
    exact stated_whileLoop hparts.1 hparts.2.1
  | forLoop s initial test update body =>
    simp only [Node.parts, List.forall_mem_cons] at hparts
    exact stated_forLoop hparts.1 hparts.2.1 hparts.2.2.1 hparts.2.2.2.1
  | returning s argument =>
    simp only [Node.parts, List.forall_mem_cons] at hparts
    exact stated_returning hparts.1
  | breaking s =>
    have hbreak := spells_keyword (by decide : ("break", .breakWord) ∈ statementWords)
    exact fun _ => ⟨_, rfl, _, (hbreak.ended keepsSigns_rekeyed).of_toList (by simp), fun _ _ =>
      .breaking .semicolon⟩
  | continuing s =>
    have hcontinue := spells_keyword (by decide : ("continue", .continueWord) ∈ statementWords)
    exact fun _ => ⟨_, rfl, _, (hcontinue.ended keepsSigns_rekeyed).of_toList (by simp), fun _ _ =>
      .continuing .semicolon⟩
  | importing s specifiers source =>
    simp only [Node.parts, List.forall_mem_cons, List.forall_mem_map] at hparts
    exact stated_importing hparts.2 hparts.1
  | exporting s exported isDefault =>
    simp only [Node.parts, List.forall_mem_cons] at hparts
    exact stated_exporting hparts.1
  | expressionStatement s e =>
    simp only [Node.parts, List.forall_mem_cons] at hparts
    exact stated_expressionStatement hparts.1
  | _ => cases hn

/-- In each role, a printable tree is read as what it stands for. -/
theorem stated_of_printable {r : Role} {n : Node} (h : Printable rekeyed r n) : r.Stated n := by
  have hshown := shown_of_printable transparent_rekeyed h
  induction h with
  | @mk r n hn hparts ih =>
    obtain ⟨⟨hadmits, hf⟩, hq⟩ := hn
    have hshownParts : ∀ part ∈ n.parts, part.1.Shown rekeyed part.2 := fun part hpart =>
      shown_of_printable transparent_rekeyed (hparts part hpart)
    have ih : ∀ part ∈ n.parts, part.1.Stated part.2 := fun part hpart =>
      ih part hpart (hshownParts part hpart)
    cases r with
    | statement => exact stated_statement hadmits hf ih
    | alternative =>
      cases n with
      | absent => exact .inl rfl
      | _ => exact .inr (stated_statement hadmits hf ih)
    | block =>
      cases n with
      | block =>
        simp only [Node.parts, List.forall_mem_map] at ih
        exact stated_block ih
      | _ => cases hadmits
    | declarator => exact stated_declarator hadmits ih
    | target => exact stated_target hadmits hf ih
    | wordOrHole =>
      cases n with
      | absent => exact .inl rfl
      | identifier s x => exact .inr ⟨s, x, rfl, (hf.resolve_right (by rintro ⟨h, -⟩; cases h)).named⟩
      | _ => cases hadmits
    | initial => exact stated_initial hadmits hf hq hshownParts ih
    | specifier => exact stated_specifier hadmits hf ih
    | source => exact stated_source hadmits hf hq
    | _ => exact hshown

end HanScript
