-- What the rules of statements take is what the grammar says, and so is what
-- the parser takes of a whole program.
import HanScript.Proofs.Parsing.Soundness.Expression

namespace HanScript.Parser

open Grammar

/-! ## Parts of statements -/

theorem terminator_reads : Reads terminator fun next w _ => Terminator next w := by
  intro c u d h
  simp only [terminator, bind_gives, accept_gives] at h
  obtain ⟨_, _, ⟨rfl, hk, rfl⟩ | ⟨rfl, hk, rfl⟩, h⟩ := h
  · obtain ⟨-, rfl⟩ := pure_gives.mp h
    exact ⟨_, Cursor.passes_kind hk (by decide), .semicolon⟩
  · simp only [Bool.false_eq_true, if_false, bind_gives, isAtAny_gives] at h
    obtain ⟨_, _, ⟨rfl, rfl⟩, h⟩ := h
    split at h
    · rename_i hn
      obtain ⟨-, rfl⟩ := pure_gives.mp h
      exact ⟨[], by simp, .leftOut (by simpa using hn)⟩
    · simp (disch := decide) only [bind_gives, expect_gives] at h
      obtain ⟨_, _, ⟨rfl, hp⟩, -⟩ := h
      exact absurd hp.kind hk

theorem declared_forms : Forms declared Grammar.Target := by
  intro c n d h
  simp only [declared, bind_gives, isAt_gives] at h
  obtain ⟨_, _, ⟨rfl, rfl⟩, h⟩ := h
  split at h
  · simp only [arrayPattern, bind_gives, pure_gives] at h
    obtain ⟨⟨span, qs⟩, d', hb, rfl, rfl⟩ := h
    obtain ⟨_, hw, v, x, y, rfl, hs⟩ := bracketed_reads identifier_forms hb
    exact ⟨_, hw, by simpa [Node.bare] using Grammar.Target.pattern hs⟩
  · obtain ⟨w, hw, hn⟩ := identifier_forms h
    exact ⟨w, hw, .name hn⟩

theorem declarator_forms : Forms declarator Declarator := by
  intro c n d h
  simp only [declarator, initializer, bind_gives, peek_gives, accept_gives, spanFrom_gives,
    pure_gives] at h
  obtain ⟨_, _, ⟨rfl, rfl⟩, target, _, ht, e, _,
    ⟨_, _, ⟨rfl, hk, rfl⟩ | ⟨rfl, -, rfl⟩, he⟩, _, _, ⟨rfl, rfl⟩, rfl, rfl⟩ := h
  · obtain ⟨w, hw, ht⟩ := declared_forms ht
    obtain ⟨v, hv, he⟩ := expression_forms he
    have ha := Cursor.passes_kind hk (by decide)
    exact ⟨_, hw.append (ha.cons hv), .given ht he⟩
  · obtain ⟨w, hw, ht⟩ := declared_forms ht
    obtain ⟨rfl, rfl⟩ := pure_gives.mp he
    exact ⟨w, hw, .plain ht⟩

/-- The word that a declaration begins with is the one that says what it declares. -/
theorem declaration_reads {c d : Cursor} {n : Node}
    (hk : c.current.kind = .letWord ∨ c.current.kind = .constWord)
    (h : declaration.Gives c n d) : ∃ w, c.Passes w d ∧ Declaration w n.bare := by
  simp only [declaration, bind_gives, advance_gives, spanFrom_gives, pure_gives] at h
  obtain ⟨_, _, ⟨rfl, rfl⟩, qs, _, hq, _, _, ⟨rfl, rfl⟩, rfl, rfl⟩ := h
  obtain ⟨w, hw, hs⟩ := separated_reads declarator_forms hq
  rcases hk with hk | hk
  · refine ⟨_, (Cursor.passes_kind hk (by decide)).cons hw, ?_⟩
    simpa [Node.bare, hk] using Declaration.changing hs
  · refine ⟨_, (Cursor.passes_kind hk (by decide)).cons hw, ?_⟩
    simpa [Node.bare, hk] using Declaration.constant hs

theorem returned_forms : Forms returned Optional := by
  intro c n d h
  simp only [returned, bind_gives, isAtAny_gives] at h
  obtain ⟨_, _, ⟨rfl, rfl⟩, h⟩ := h
  split at h
  · obtain ⟨rfl, rfl⟩ := pure_gives.mp h
    exact ⟨[], by simp, .leftOut⟩
  · obtain ⟨w, hw, hp⟩ := expression_forms h
    exact ⟨w, hw, .given hp⟩

theorem optional_forms {close : TokenKind} : Forms (Rule.optional close) Optional := by
  intro c n d h
  simp only [Rule.optional, bind_gives, isAt_gives] at h
  obtain ⟨_, _, ⟨rfl, rfl⟩, h⟩ := h
  split at h
  · obtain ⟨rfl, rfl⟩ := pure_gives.mp h
    exact ⟨[], by simp, .leftOut⟩
  · obtain ⟨w, hw, hp⟩ := expression_forms h
    exact ⟨w, hw, .given hp⟩

theorem initialPart_forms : Forms Rule.initialPart Initial := by
  intro c n d h
  simp only [Rule.initialPart, bind_gives, isAtAny_gives] at h
  obtain ⟨_, _, ⟨rfl, rfl⟩, h⟩ := h
  split at h
  · rename_i hk
    obtain ⟨w, hw, hd⟩ := declaration_reads (by simpa using hk) h
    exact ⟨w, hw, .declaration hd⟩
  · obtain ⟨w, hw, ho⟩ := optional_forms h
    exact ⟨w, hw, .expression ho⟩

theorem importSpecifier_forms : Forms importSpecifier Specifier := by
  intro c n d h
  simp only [importSpecifier, bind_gives, identifier_gives, spanFrom_gives, pure_gives] at h
  obtain ⟨_, _, ⟨x, hx, rfl⟩, _, _, ⟨rfl, rfl⟩, rfl, rfl⟩ := h
  exact ⟨_, hx, .mk⟩

theorem condition_forms : Forms Rule.condition Condition := by
  intro c n d h
  simp (disch := decide) only [Rule.condition, bind_gives, expect_gives, pure_gives] at h
  obtain ⟨_, _, ⟨rfl, hl⟩, e, _, he, _, _, ⟨rfl, hr⟩, rfl, rfl⟩ := h
  obtain ⟨w, hw, hp⟩ := expression_forms he
  exact ⟨_, hl.cons (hw.append hr), .mk hp⟩

/-! ## Statements -/

/-- The tokens form the bare tree as a statement, before a token of kind `next`. -/
def IsStatement (next : TokenKind) (w : List Terminal) (n : Node) : Prop :=
  Statement .statement next w n.bare

/-- The rules of statements one level further in read what the grammar says. The word before
a branch is the one that leads to it. -/
structure InnerStatement.Sound (inner : InnerStatement) : Prop where
  statement : Reads inner.statement IsStatement
  ifElse : ∀ ⦃c n d⦄, c.current.kind ≠ .eof → inner.ifElse.Gives c n d →
    ∃ w, c.Passes (c.current.terminal :: w) d ∧ Statement .branch d.current.kind w n.bare

theorem importing_reads {c d : Cursor} {n : Node} (hk : c.current.kind = .importWord)
    (h : importing.Gives c n d) : ∃ w, c.Passes w d ∧ IsStatement d.current.kind w n := by
  simp (disch := decide) only [importing, bind_gives, advance_gives, expect_gives, spanFrom_gives,
    pure_gives] at h
  obtain ⟨_, _, ⟨rfl, rfl⟩, _, _, ⟨rfl, hl⟩, qs, _, hq, _, _, ⟨rfl, hr⟩, _, _, ⟨rfl, hf⟩, _, _,
    ⟨rfl, hs⟩, _, _, ⟨rfl, rfl⟩, _, _, ht, _, _, ⟨rfl, rfl⟩, rfl, rfl⟩ := h
  obtain ⟨w, hw, hn⟩ := listUntil_reads importSpecifier_forms hq
  obtain ⟨v, hv, ht⟩ := terminator_reads ht
  have hi := Cursor.passes_kind hk (by decide)
  refine ⟨_, hi.cons (hl.cons (hw.append (hr.cons (hf.cons (hs.cons hv))))), ?_⟩
  simpa [IsStatement, Node.bare] using Statement.importing hn ht

theorem returning_reads {c d : Cursor} {n : Node} (hk : c.current.kind = .returnWord)
    (h : returning.Gives c n d) : ∃ w, c.Passes w d ∧ IsStatement d.current.kind w n := by
  simp only [returning, bind_gives, advance_gives, spanFrom_gives, pure_gives] at h
  obtain ⟨_, _, ⟨rfl, rfl⟩, a, _, ha, _, _, ht, _, _, ⟨rfl, rfl⟩, rfl, rfl⟩ := h
  obtain ⟨w, hw, hn⟩ := returned_forms ha
  obtain ⟨v, hv, ht⟩ := terminator_reads ht
  have hr := Cursor.passes_kind hk (by decide)
  exact ⟨_, hr.cons (hw.append hv), .returning hn ht⟩

theorem single_reads {node : Span → Node} {c d : Cursor} {n : Node} {kind : TokenKind}
    (hk : c.current.kind = kind) (he : kind ≠ .eof)
    (hn : ∀ {s next v x}, Terminator next v →
      Statement .statement next (⟨kind, x⟩ :: v) (node s).bare)
    (h : (single node).Gives c n d) : ∃ w, c.Passes w d ∧ IsStatement d.current.kind w n := by
  simp only [single, bind_gives, advance_gives, spanFrom_gives, pure_gives] at h
  obtain ⟨_, _, ⟨rfl, rfl⟩, _, _, ht, _, _, ⟨rfl, rfl⟩, rfl, rfl⟩ := h
  obtain ⟨v, hv, ht⟩ := terminator_reads ht
  exact ⟨_, (Cursor.passes_kind hk he).cons hv, hn ht⟩

theorem expressionStatement_reads {c d : Cursor} {n : Node}
    (hk : c.current.kind ∉ statementKinds) (h : expressionStatement.Gives c n d) :
    ∃ w, c.Passes w d ∧ IsStatement d.current.kind w n := by
  simp only [expressionStatement, bind_gives, spanFrom_gives, pure_gives] at h
  obtain ⟨e, _, he, _, _, ht, _, _, ⟨rfl, rfl⟩, rfl, rfl⟩ := h
  obtain ⟨w, hw, hp⟩ := expression_forms he
  obtain ⟨v, hv, ht⟩ := terminator_reads ht
  rw [hw.current, follower_of_ne_nil hp.ne_nil _ .eof] at hk
  exact ⟨_, hw.append hv, .expression hp hk ht⟩

section Rules

variable {inner : InnerStatement} (sound : inner.Sound)

include sound

theorem block_reads : Reads (Rule.block inner) fun _ w n => ∃ v ns x y,
    w = ⟨.leftBrace, x⟩ :: v ++ [⟨.rightBrace, y⟩] ∧ n.bare = .block {} ns ∧
      Sequence (Statement .statement) .rightBrace v ns := by
  intro c n d h
  simp (disch := decide) only [Rule.block, bind_gives, expect_gives, spanFrom_gives, pure_gives] at h
  obtain ⟨_, _, ⟨rfl, hl⟩, qs, _, hq, _, _, ⟨rfl, hr⟩, _, _, ⟨rfl, rfl⟩, rfl, rfl⟩ := h
  obtain ⟨v, hv, hs, -⟩ := manyWhile_reads (G := IsStatement) (fun _ _ _ _ h => sound.statement h) hq
  rw [hr.kind] at hs
  exact ⟨_, hl.cons (hv.append hr), v, _, _, _, rfl, by simp [Node.bare], sequence_map hs⟩

theorem function_reads {c d : Cursor} {n : Node}
    (hk : c.current.kind = .functionWord ∨ c.current.kind = .componentWord)
    (h : (Rule.function inner).Gives c n d) :
    ∃ w, c.Passes w d ∧ IsStatement d.current.kind w n := by
  simp (disch := decide) only [Rule.function, bind_gives, advance_gives, identifier_gives,
    expect_gives, spanFrom_gives, pure_gives] at h
  obtain ⟨_, _, ⟨rfl, rfl⟩, _, _, ⟨name, hname, rfl⟩, _, _, ⟨rfl, hl⟩, ps, _, hps, _, _, ⟨rfl, hr⟩,
    body, _, hb, _, _, ⟨rfl, rfl⟩, rfl, rfl⟩ := h
  obtain ⟨v, hv, hs⟩ := separatedUntil_reads identifier_forms hps
  obtain ⟨_, hw, u, ns, x, y, rfl, hbody, hu⟩ := block_reads sound hb
  have hf := Cursor.passes_current (c := c) (by rcases hk with hk | hk <;> simp [hk])
  refine ⟨_, hf.cons (hname.cons (hl.cons (hv.append (hr.cons hw)))), ?_⟩
  simpa [IsStatement, Node.bare, hbody, Token.terminal] using Statement.function hk hs hu

theorem ifElse_reads {c d : Cursor} {n : Node} (hk : c.current.kind ≠ .eof)
    (h : (Rule.ifElse inner).Gives c n d) :
    ∃ w, c.Passes (c.current.terminal :: w) d ∧ Statement .branch d.current.kind w n.bare := by
  simp only [Rule.ifElse, bind_gives, advance_gives, spanFrom_gives, pure_gives] at h
  obtain ⟨_, _, ⟨rfl, rfl⟩, test, _, ht, yes, _, hy, no, _, hno, _, _, ⟨rfl, rfl⟩, rfl, rfl⟩ := h
  obtain ⟨w, hw, ht⟩ := condition_forms ht
  obtain ⟨v, hv, hy⟩ := sound.statement hy
  have hi := Cursor.passes_current hk
  simp only [Rule.alternate, bind_gives, isAt_gives] at hno
  obtain ⟨_, _, ⟨rfl, rfl⟩, hno⟩ := hno
  split at hno
  · rename_i he
    replace he := of_decide_eq_true he
    obtain ⟨u, hu, hno⟩ := sound.ifElse (by simp [he]) hno
    refine ⟨w ++ v ++ _, hi.cons ((hw.append hv).append hu), ?_⟩
    rw [Token.terminal_of_kind he]
    rw [IsStatement, he] at hy
    exact .orElseIf ht hy hno
  · rename_i hei
    simp only [bind_gives, accept_gives] at hno
    obtain ⟨_, _, ⟨rfl, he, rfl⟩ | ⟨rfl, he, rfl⟩, hno⟩ := hno
    · obtain ⟨u, hu, hno⟩ := sound.statement hno
      have hp := Cursor.passes_kind he (by decide)
      refine ⟨w ++ v ++ _, hi.cons ((hw.append hv).append (hp.cons hu)), ?_⟩
      rw [IsStatement, he] at hy
      exact .orElse ht hy hno
    · obtain ⟨rfl, rfl⟩ := pure_gives.mp hno
      exact ⟨w ++ v, hi.cons (hw.append hv), .alone ht hy he fun h => hei (decide_eq_true h)⟩

theorem whileLoop_reads {c d : Cursor} {n : Node} (hk : c.current.kind = .whileWord)
    (h : (Rule.whileLoop inner).Gives c n d) :
    ∃ w, c.Passes w d ∧ IsStatement d.current.kind w n := by
  simp only [Rule.whileLoop, bind_gives, advance_gives, spanFrom_gives, pure_gives] at h
  obtain ⟨_, _, ⟨rfl, rfl⟩, test, _, ht, body, _, hb, _, _, ⟨rfl, rfl⟩, rfl, rfl⟩ := h
  obtain ⟨w, hw, ht⟩ := condition_forms ht
  obtain ⟨v, hv, hb⟩ := sound.statement hb
  have hp := Cursor.passes_kind hk (by decide)
  exact ⟨_, hp.cons (hw.append hv), .whileLoop ht hb⟩

theorem forLoop_reads {c d : Cursor} {n : Node} (hk : c.current.kind = .forWord)
    (h : (Rule.forLoop inner).Gives c n d) :
    ∃ w, c.Passes w d ∧ IsStatement d.current.kind w n := by
  simp (disch := decide) only [Rule.forLoop, bind_gives, advance_gives, expect_gives, spanFrom_gives,
    pure_gives] at h
  obtain ⟨_, _, ⟨rfl, rfl⟩, _, _, ⟨rfl, hl⟩, a, _, ha, _, _, ⟨rfl, hs⟩, b, _, hb, _, _, ⟨rfl, hs'⟩,
    e, _, he, _, _, ⟨rfl, hr⟩, body, _, hbody, _, _, ⟨rfl, rfl⟩, rfl, rfl⟩ := h
  obtain ⟨i, hi, ha⟩ := initialPart_forms ha
  obtain ⟨t, ht, hb⟩ := optional_forms hb
  obtain ⟨u, hu, he⟩ := optional_forms he
  obtain ⟨w, hw, hbody⟩ := sound.statement hbody
  have hp := Cursor.passes_kind hk (by decide)
  refine ⟨_, hp.cons (hl.cons (hi.append (hs.cons (ht.append (hs'.cons
    (hu.append (hr.cons hw))))))), ?_⟩
  simpa [IsStatement, Node.bare] using Statement.forLoop ha hb he hbody

theorem exporting_reads {c d : Cursor} {n : Node} (hk : c.current.kind = .exportWord)
    (h : (Rule.exporting inner).Gives c n d) :
    ∃ w, c.Passes w d ∧ IsStatement d.current.kind w n := by
  simp only [Rule.exporting, bind_gives, advance_gives, accept_gives, spanFrom_gives, pure_gives] at h
  obtain ⟨_, _, ⟨rfl, rfl⟩, _, _, ⟨rfl, hd, rfl⟩ | ⟨rfl, hd, rfl⟩, s, _, hs, _, _, ⟨rfl, rfl⟩, rfl,
    rfl⟩ := h
  · obtain ⟨w, hw, hs⟩ := sound.statement hs
    have hp := Cursor.passes_kind hk (by decide)
    have hq := Cursor.passes_kind hd (by decide)
    exact ⟨_, hp.cons (hq.cons hw), .exportingDefault hs⟩
  · obtain ⟨w, hw, hs⟩ := sound.statement hs
    have hp := Cursor.passes_kind hk (by decide)
    exact ⟨_, hp.cons hw, .exporting hs⟩

theorem statement_reads : Reads (Rule.statement inner) IsStatement := by
  intro c n d h
  simp only [Rule.statement, bind_gives, peek_gives] at h
  obtain ⟨_, _, ⟨rfl, rfl⟩, h⟩ := h
  split at h
  case h_1 hk =>
    obtain ⟨n, d', hn, h⟩ := bind_gives.mp h
    simp only [bind_gives, pure_gives] at h
    obtain ⟨_, _, ht, rfl, rfl⟩ := h
    obtain ⟨w, hw, hn⟩ := declaration_reads (.inl hk) hn
    obtain ⟨v, hv, ht⟩ := terminator_reads ht
    exact ⟨_, hw.append hv, .declaration hn ht⟩
  case h_2 hk =>
    obtain ⟨n, d', hn, h⟩ := bind_gives.mp h
    simp only [bind_gives, pure_gives] at h
    obtain ⟨_, _, ht, rfl, rfl⟩ := h
    obtain ⟨w, hw, hn⟩ := declaration_reads (.inr hk) hn
    obtain ⟨v, hv, ht⟩ := terminator_reads ht
    exact ⟨_, hw.append hv, .declaration hn ht⟩
  case h_3 hk => exact function_reads sound (.inl hk) h
  case h_4 hk => exact function_reads sound (.inr hk) h
  case h_5 =>
    obtain ⟨_, hw, v, ns, x, y, rfl, hn, hv⟩ := block_reads sound h
    exact ⟨_, hw, by simpa [IsStatement, hn] using Statement.block hv⟩
  case h_6 hk =>
    obtain ⟨w, hw, hn⟩ := ifElse_reads sound (by simp [hk]) h
    rw [Token.terminal_of_kind hk] at hw
    exact ⟨_, hw, .ifElse hn⟩
  case h_7 hk => exact whileLoop_reads sound hk h
  case h_8 hk => exact forLoop_reads sound hk h
  case h_9 hk => exact returning_reads hk h
  case h_10 hk => exact single_reads hk (by decide) .breaking h
  case h_11 hk => exact single_reads hk (by decide) .continuing h
  case h_12 hk => exact importing_reads hk h
  case h_13 hk => exact exporting_reads sound hk h
  case h_14 =>
    refine expressionStatement_reads ?_ h
    simp only [statementKinds, List.mem_cons, List.not_mem_nil, or_false, not_or]
    refine ⟨?_, ?_, ?_, ?_, ?_, ?_, ?_, ?_, ?_, ?_, ?_, ?_, ?_⟩ <;> assumption

end Rules

/-- The rules of statements at every depth read what the grammar says. -/
theorem sound_innerStatement (budget : List Token) : (innerStatement budget).Sound := by
  induction budget with
  | nil =>
    exact ⟨fun _ _ _ h => absurd h not_misfit_gives, fun _ _ _ _ h => absurd h not_misfit_gives⟩
  | cons t budget ih =>
    rw [innerStatement]
    exact ⟨statement_reads ih, fun _ _ _ => ifElse_reads ih⟩

theorem reads_statement : Reads statement IsStatement := by
  intro c n d h
  rw [statement_gives] at h
  exact statement_reads (sound_innerStatement c.budget) h

/-! ## Programs -/

/-- What the parser takes of a list of tokens forms the bare tree of the program that it gives,
and the end comes next. -/
theorem program_reads {c d : Cursor} {n : Node} (h : program.Gives c n d) :
    d.current.kind = .eof ∧ ∃ w, c.Passes w d ∧ Program w n.bare := by
  simp only [program, bind_gives, peek_gives, spanFrom_gives, pure_gives] at h
  obtain ⟨_, _, ⟨rfl, rfl⟩, qs, d, hq, _, _, ⟨rfl, rfl⟩, rfl, rfl⟩ := h
  obtain ⟨w, hw, hs, he⟩ := manyWhile_reads (fun _ _ _ _ h => reads_statement h) hq
  replace he : d.current.kind = .eof := by simpa using he
  rw [he] at hs
  exact ⟨he, w, hw, by simpa [Node.bare] using Program.mk (sequence_map hs)⟩

end HanScript.Parser
