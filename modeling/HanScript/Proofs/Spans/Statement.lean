-- Where statements lie, and the nodes in them: between the token at which their
-- rule begins and the one before which it ends.
import HanScript.Proofs.Parsing.Soundness.Statement
import HanScript.Proofs.Spans.Expression

namespace HanScript

/-- A cursor shares all its tokens with itself. -/
theorem Cursor.shares_self (c : Cursor) : c.Shares (c.position + c.left) c :=
  ⟨rfl, c.ahead, c.last, rfl, by simp [c.closed], List.prefix_rfl, List.prefix_rfl⟩

namespace Parser

theorem nestedStatement_gives {rule : InnerStatement → Parser Node} {n : Node} {c d : Cursor} :
    (nestedStatement rule).Gives c n d ↔ (rule (innerStatement c.budget)).Gives c n d := by
  rw [Gives, Gives, nestedStatement]

/-- What a rule gives with some levels further in, it gives with all of them. -/
theorem gives_nestedStatement {rule : InnerStatement → Parser Node}
    (halike : ∀ {i i' : InnerStatement}, i.Alike i' → Alike (rule i) (rule i'))
    (hstep : ∀ {i i' : InnerStatement}, i.InStep i' → InStep unseen (rule i) (rule i'))
    (htakes : ∀ {n : Nat} {i : InnerStatement}, BelowStatement n i → Takes n (rule i))
    {levels : List Token} {c d : Cursor} {n : Node}
    (h : (rule (innerStatement levels)).Gives c n d) :
    ∃ d', (nestedStatement rule).Gives c n d' := by
  have hends : Ends (nestedStatement rule) c _ :=
    takes_nestedStatement htakes c.left c (Nat.le_refl _)
  have hprecedes := (hstep (inStep_innerStatement levels levels)).precedes c
  have hrun := (halike (alike_innerStatement levels c.budget) c).2 c.shares_self
  unfold Gives at h ⊢
  rw [h] at hprecedes hrun
  rcases hrun with hlt | hagree
  · obtain ⟨w, hw⟩ : c.Precedes d := hprecedes
    replace hlt : c.position + c.left < d.position := hlt
    have hposition := hw.position
    have hleft := hw.left
    omega
  · unfold Ends at hends
    unfold nestedStatement at hends ⊢
    generalize rule (innerStatement c.budget) c = r at hagree hends ⊢
    cases hagree with
    | ok => exact ⟨_, rfl⟩
    | secondOverrun he => exact absurd he hends

/-! ## Parts of statements -/

theorem terminator_precedes {c d : Cursor} {u : Unit} (h : terminator.Gives c u d) :
    c.Precedes d := by
  obtain ⟨w, hw, -⟩ := terminator_reads h
  exact ⟨w, hw⟩

theorem declared_places : Places declared := by
  intro c n d h
  simp only [declared, bind_gives, isAt_gives] at h
  obtain ⟨_, _, ⟨rfl, rfl⟩, h⟩ := h
  split at h
  · simp only [arrayPattern, bind_gives, pure_gives] at h
    obtain ⟨⟨s, ns⟩, _, hb, rfl, rfl⟩ := h
    obtain ⟨d', t, ht, hk, hrow, rfl⟩ := bracketed_rows identifier_places.rows hb
    exact .ofToken ht (by simp [hk]) hrow rfl (.inl rfl) trivial
  · exact identifier_places h

theorem initializer_rows : Rows initializer ([·]) := by
  intro c n d h
  simp only [initializer, bind_gives, accept_gives] at h
  obtain ⟨_, _, ⟨rfl, -, rfl⟩ | ⟨rfl, -, rfl⟩, h⟩ := h
  · exact .skip (Cursor.precedes_advance c) (expression_places h).row
  · obtain ⟨rfl, rfl⟩ := pure_gives.mp h
    exact .hole .done

/-- A declarator begins where its target does. -/
theorem declarator_places : Places declarator := by
  intro c n d h
  simp only [declarator, bind_gives, peek_gives, spanFrom_gives, pure_gives] at h
  obtain ⟨_, _, ⟨rfl, rfl⟩, target, d₁, ht, e, d₂, he, _, _, ⟨rfl, rfl⟩, rfl, rfl⟩ := h
  have hinitial := initializer_rows he
  have htarget := declared_places ht
  obtain ⟨w, hw, hopen⟩ := declared_forms ht
  obtain ⟨t, v, rfl, hk⟩ : ∃ t v, w = t :: v ∧ t.kind ≠ .leftParen := by
    generalize target.bare = bare at hopen
    cases hopen with
    | name hn =>
      cases hn
      exact ⟨_, _, rfl, by simp⟩
    | pattern => exact ⟨_, _, rfl, by simp⟩
  obtain ⟨d₀, hfirst, hrest⟩ := Cursor.passes_head.mp hw
  have honward : d₀.Precedes d₂ := Cursor.Precedes.trans ⟨v, hrest⟩ hinitial.precedes
  exact .ofSpan hfirst honward hk (htarget.cons hinitial) .token (.inl rfl) trivial

theorem optional_rows {close : TokenKind} : Rows (Rule.optional close) ([·]) := by
  intro c n d h
  simp only [Rule.optional, bind_gives, isAt_gives] at h
  obtain ⟨_, _, ⟨rfl, rfl⟩, h⟩ := h
  split at h
  · obtain ⟨rfl, rfl⟩ := pure_gives.mp h
    exact .hole .done
  · exact (expression_places h).row

theorem returned_rows : Rows returned ([·]) := by
  intro c n d h
  simp only [returned, bind_gives, isAtAny_gives] at h
  obtain ⟨_, _, ⟨rfl, rfl⟩, h⟩ := h
  split at h
  · obtain ⟨rfl, rfl⟩ := pure_gives.mp h
    exact .hole .done
  · exact (expression_places h).row

/-- A specifier has one word for both its names. -/
theorem importSpecifier_places : Places importSpecifier := by
  intro c n d h
  simp only [importSpecifier, bind_gives, spanFrom_gives, pure_gives] at h
  obtain ⟨name, _, hname, _, _, ⟨rfl, rfl⟩, rfl, rfl⟩ := h
  exact .ofNode (identifier_places hname) .done rfl rfl (.inl rfl) rfl

theorem condition_rows : Rows Rule.condition ([·]) := by
  intro c n d h
  simp (disch := decide) only [Rule.condition, bind_gives, expect_gives, pure_gives] at h
  obtain ⟨_, _, ⟨rfl, hl⟩, e, _, he, _, _, ⟨rfl, hr⟩, rfl, rfl⟩ := h
  exact .passed hl ((expression_places he).row.onward ⟨_, hr⟩)

/-! ## Statements -/

section Words

variable {c d : Cursor} {n : Node} {kind : TokenKind} (hk : c.current.kind = kind)
  (he : kind ∉ [.eof, .leftParen]) (ht : StatementAt c n)

include ht

/-- A statement that is an expression is the only one that may begin with a parenthesis. -/
theorem expressionStatement_lies (h : expressionStatement.Gives c n d) : Lies c n d := by
  simp only [expressionStatement, bind_gives, spanFrom_gives, pure_gives] at h
  obtain ⟨e, _, he, _, _, hend, _, _, ⟨rfl, rfl⟩, rfl, rfl⟩ := h
  exact .ofNode (expression_places he) (.ended (terminator_precedes hend)) rfl rfl (.inr ht) trivial

include hk he

/-- A statement that begins with a word of its own. -/
theorem lies_of_word (hrow : Row c.advance n.row d) (hspan : n.span = d.spanFrom c.current.span)
    (hname : n.SharesName) : Lies c n d := by
  simp only [List.mem_cons, List.not_mem_nil, or_false, not_or] at he
  exact .ofToken (Cursor.passes_kind hk he.1) he.2 hrow hspan (.inr ht) hname

theorem declaration_lies (h : declaration.Gives c n d) : Lies c n d := by
  simp only [declaration, bind_gives, advance_gives, spanFrom_gives, pure_gives] at h
  obtain ⟨_, _, ⟨rfl, rfl⟩, ns, _, hns, _, _, ⟨rfl, rfl⟩, rfl, rfl⟩ := h
  exact lies_of_word hk he ht (separated_rows declarator_places.rows hns) rfl trivial

theorem returning_lies (h : returning.Gives c n d) : Lies c n d := by
  simp only [returning, bind_gives, advance_gives, spanFrom_gives, pure_gives] at h
  obtain ⟨_, _, ⟨rfl, rfl⟩, a, _, ha, _, _, hend, _, _, ⟨rfl, rfl⟩, rfl, rfl⟩ := h
  exact lies_of_word hk he ht ((returned_rows ha).onward (terminator_precedes hend)) rfl trivial

theorem single_lies (node : Span → Node) (hrow : ∀ s, (node s).row = [])
    (hspan : ∀ s, (node s).span = s) (hname : ∀ s, (node s).SharesName)
    (h : (single node).Gives c n d) : Lies c n d := by
  simp only [single, bind_gives, advance_gives, spanFrom_gives, pure_gives] at h
  obtain ⟨_, _, ⟨rfl, rfl⟩, _, _, hend, _, _, ⟨rfl, rfl⟩, rfl, rfl⟩ := h
  refine lies_of_word hk he ht ?_ (hspan _) (hname _)
  rw [hrow]
  exact .ended (terminator_precedes hend)

theorem importing_lies (h : importing.Gives c n d) : Lies c n d := by
  simp (disch := decide) only [importing, bind_gives, advance_gives, expect_gives, spanFrom_gives,
    pure_gives] at h
  obtain ⟨_, _, ⟨rfl, rfl⟩, _, _, ⟨rfl, hl⟩, ns, _, hns, _, _, ⟨rfl, hr⟩, _, d₀, ⟨rfl, hf⟩, _, d₁,
    ⟨rfl, hs⟩, _, _, ⟨rfl, rfl⟩, _, _, hend, _, _, ⟨rfl, rfl⟩, rfl, rfl⟩ := h
  have hspecifiers := listUntil_rows importSpecifier_places.rows hns
  have hsource : Lies d₀ (.literal (d₁.spanFrom d₀.current.span) (.text d₀.current.value)
      d₀.current.value false) d₁ := .ofToken hs (by simp) .done rfl (.inl rfl) trivial
  have hend' := hsource.row.onward (terminator_precedes hend)
  have hrow := Row.passed hl (hspecifiers.append (.passed hr (.passed hf hend')))
  exact lies_of_word hk he ht hrow rfl trivial

end Words

theorem initialPart_rows : Rows Rule.initialPart ([·]) := by
  intro c n d hn
  simp only [Rule.initialPart, bind_gives, isAtAny_gives] at hn
  obtain ⟨_, _, ⟨rfl, rfl⟩, hn⟩ := hn
  split at hn
  · rename_i hk
    replace hk : c.current.kind = .letWord ∨ c.current.kind = .constWord := by simpa using hk
    have ht := StatementAt.initial hk hn
    rcases hk with hk | hk
    · exact (declaration_lies hk (by decide) ht hn).row
    · exact (declaration_lies hk (by decide) ht hn).row
  · exact optional_rows hn

/-- What the rules of statements one level further in give lies between where they begin and where
they end. -/
structure InnerStatement.Places (inner : InnerStatement) : Prop where
  statement : Parser.Places inner.statement
  ifElse : ∀ ⦃c n d⦄, c.current.kind = .elseIfWord → inner.ifElse.Gives c n d → Lies c n d

section Rules

variable {levels : List Token} (h : (innerStatement levels).Places) {c d : Cursor} {n : Node}
  {kind : TokenKind} (hk : c.current.kind = kind) (he : kind ∉ [.eof, .leftParen])
  (ht : StatementAt c n)

include h

theorem alternate_rows : Rows (Rule.alternate (innerStatement levels)) ([·]) := by
  intro c n d hn
  simp only [Rule.alternate, bind_gives, isAt_gives] at hn
  obtain ⟨_, _, ⟨rfl, rfl⟩, hn⟩ := hn
  split at hn
  · rename_i hk
    exact (h.ifElse (of_decide_eq_true hk) hn).row
  · simp only [bind_gives, accept_gives] at hn
    obtain ⟨_, _, ⟨rfl, -, rfl⟩ | ⟨rfl, -, rfl⟩, hn⟩ := hn
    · exact .skip (Cursor.precedes_advance c) (h.statement hn).row
    · obtain ⟨rfl, rfl⟩ := pure_gives.mp hn
      exact .hole .done

include ht

theorem block_lies (hn : (Rule.block (innerStatement levels)).Gives c n d) : Lies c n d := by
  simp (disch := decide) only [Rule.block, bind_gives, expect_gives, spanFrom_gives, pure_gives]
    at hn
  obtain ⟨_, d₁, ⟨rfl, hl⟩, ns, d₂, hns, _, _, ⟨rfl, hr⟩, _, _, ⟨rfl, rfl⟩, rfl, rfl⟩ := hn
  have hrow : Row d₁ ns d₂ := by simpa using manyWhile_rows h.statement.rows hns
  exact .ofToken hl (by simp) (hrow.onward ⟨_, hr⟩) rfl (.inr ht) trivial

include hk he

theorem function_lies (hn : (Rule.function (innerStatement levels)).Gives c n d) : Lies c n d := by
  simp (disch := decide) only [Rule.function, bind_gives, advance_gives, expect_gives,
    spanFrom_gives, pure_gives] at hn
  obtain ⟨_, _, ⟨rfl, rfl⟩, name, _, hname, _, _, ⟨rfl, hl⟩, ps, _, hps, _, _, ⟨rfl, hr⟩,
    body, _, hb, _, _, ⟨rfl, rfl⟩, rfl, rfl⟩ := hn
  obtain ⟨_, hbody⟩ := gives_nestedStatement alike_block inStep_block takes_block hb
  have hparams := separatedUntil_rows identifier_places.rows hps
  have hblock := (block_lies h (.body hbody) hb).row
  have hrow := (identifier_places hname).cons (.passed hl (hparams.append (.passed hr hblock)))
  exact lies_of_word hk he ht hrow rfl trivial

theorem ifElse_lies (hn : (Rule.ifElse (innerStatement levels)).Gives c n d) : Lies c n d := by
  simp only [Rule.ifElse, bind_gives, advance_gives, spanFrom_gives, pure_gives] at hn
  obtain ⟨_, _, ⟨rfl, rfl⟩, test, _, htest, yes, _, hyes, no, _, hno, _, _, ⟨rfl, rfl⟩, rfl,
    rfl⟩ := hn
  have hrow := (condition_rows htest).append ((h.statement hyes).cons (alternate_rows h hno))
  exact lies_of_word hk he ht hrow rfl trivial

theorem whileLoop_lies (hn : (Rule.whileLoop (innerStatement levels)).Gives c n d) :
    Lies c n d := by
  simp only [Rule.whileLoop, bind_gives, advance_gives, spanFrom_gives, pure_gives] at hn
  obtain ⟨_, _, ⟨rfl, rfl⟩, test, _, htest, body, _, hb, _, _, ⟨rfl, rfl⟩, rfl, rfl⟩ := hn
  have hrow := (condition_rows htest).append (h.statement hb).row
  exact lies_of_word hk he ht hrow rfl trivial

theorem forLoop_lies (hn : (Rule.forLoop (innerStatement levels)).Gives c n d) : Lies c n d := by
  simp (disch := decide) only [Rule.forLoop, bind_gives, advance_gives, expect_gives,
    spanFrom_gives, pure_gives] at hn
  obtain ⟨_, _, ⟨rfl, rfl⟩, _, _, ⟨rfl, hl⟩, a, _, ha, _, _, ⟨rfl, hs⟩, b, _, hb, _, _, ⟨rfl, hs'⟩,
    e, _, hu, _, _, ⟨rfl, hr⟩, body, _, hbody, _, _, ⟨rfl, rfl⟩, rfl, rfl⟩ := hn
  have hupdate := (optional_rows hu).append (.passed hr (h.statement hbody).row)
  have htest := (optional_rows hb).append (.passed hs' hupdate)
  have hrow := Row.passed hl ((initialPart_rows ha).append (.passed hs htest))
  exact lies_of_word hk he ht hrow rfl trivial

theorem exporting_lies (hn : (Rule.exporting (innerStatement levels)).Gives c n d) :
    Lies c n d := by
  simp only [Rule.exporting, bind_gives, advance_gives, accept_gives, spanFrom_gives, pure_gives]
    at hn
  obtain ⟨_, _, ⟨rfl, rfl⟩, _, _, ⟨rfl, -, rfl⟩ | ⟨rfl, -, rfl⟩, s, _, hs, _, _, ⟨rfl, rfl⟩, rfl,
    rfl⟩ := hn
  · have hrow := Row.skip (Cursor.precedes_advance _) (h.statement hs).row
    exact lies_of_word hk he ht hrow rfl trivial
  · exact lies_of_word hk he ht (h.statement hs).row rfl trivial

end Rules

theorem statement_places {levels : List Token} (h : (innerStatement levels).Places) :
    Places (Rule.statement (innerStatement levels)) := by
  intro c n d hn
  have ht : StatementAt c n := by
    obtain ⟨_, hn'⟩ :=
      gives_nestedStatement alike_ruleStatement inStep_ruleStatement takes_ruleStatement hn
    exact .statement hn'
  simp only [Rule.statement, bind_gives, peek_gives] at hn
  obtain ⟨_, _, ⟨rfl, rfl⟩, hn⟩ := hn
  split at hn
  case h_1 hk =>
    simp only [bind_gives, pure_gives] at hn
    obtain ⟨n, _, hn, _, _, hend, rfl, rfl⟩ := hn
    exact (declaration_lies hk (by decide) ht hn).onward (terminator_precedes hend)
  case h_2 hk =>
    simp only [bind_gives, pure_gives] at hn
    obtain ⟨n, _, hn, _, _, hend, rfl, rfl⟩ := hn
    exact (declaration_lies hk (by decide) ht hn).onward (terminator_precedes hend)
  case h_3 hk => exact function_lies h hk (by decide) ht hn
  case h_4 hk => exact function_lies h hk (by decide) ht hn
  case h_5 => exact block_lies h ht hn
  case h_6 hk => exact ifElse_lies h hk (by decide) ht hn
  case h_7 hk => exact whileLoop_lies h hk (by decide) ht hn
  case h_8 hk => exact forLoop_lies h hk (by decide) ht hn
  case h_9 hk => exact returning_lies hk (by decide) ht hn
  case h_10 hk =>
    exact single_lies hk (by decide) ht .breaking (fun _ => rfl) (fun _ => rfl) (fun _ => trivial)
      hn
  case h_11 hk =>
    exact single_lies hk (by decide) ht .continuing (fun _ => rfl) (fun _ => rfl) (fun _ => trivial)
      hn
  case h_12 hk => exact importing_lies hk (by decide) ht hn
  case h_13 hk => exact exporting_lies h hk (by decide) ht hn
  case h_14 => exact expressionStatement_lies ht hn

theorem places_innerStatement (levels : List Token) : (innerStatement levels).Places := by
  induction levels with
  | nil =>
    exact ⟨fun _ _ _ h => absurd h not_misfit_gives, fun _ _ _ _ h => absurd h not_misfit_gives⟩
  | cons t levels ih =>
    rw [innerStatement]
    refine ⟨statement_places ih, fun c n d hk hn => ?_⟩
    obtain ⟨_, hn'⟩ := gives_nestedStatement alike_ifElse inStep_ifElse takes_ifElse hn
    exact ifElse_lies ih hk (by decide) (.elseIf hk hn') hn

theorem places_statement : Places statement := by
  intro c n d h
  rw [statement_gives] at h
  exact statement_places (places_innerStatement c.budget) h

end Parser

/-- A statement that a rule gives lies from where the rule begins. -/
theorem StatementAt.lies {c : Cursor} {n : Node} (h : StatementAt c n) : ∃ d, Lies c n d := by
  have hinner := Parser.places_innerStatement c.budget
  cases id h with
  | statement hn => exact ⟨_, Parser.places_statement hn⟩
  | elseIf hk hn =>
    exact ⟨_, Parser.ifElse_lies hinner hk (by decide) h (Parser.nestedStatement_gives.mp hn)⟩
  | body hn => exact ⟨_, Parser.block_lies hinner h (Parser.nestedStatement_gives.mp hn)⟩
  | initial hk hn =>
    rcases hk with hk | hk
    · exact ⟨_, Parser.declaration_lies hk (by decide) h hn⟩
    · exact ⟨_, Parser.declaration_lies hk (by decide) h hn⟩

/-! ## Programs -/

theorem Parser.program_row {c d : Cursor} {p : Node} (h : program.Gives c p d) :
    ∃ body, p = .program (d.spanFrom c.current.span) body ∧ Row c body d := by
  simp only [program, bind_gives, peek_gives, spanFrom_gives, pure_gives] at h
  obtain ⟨_, _, ⟨rfl, rfl⟩, ns, d, hns, _, _, ⟨rfl, rfl⟩, rfl, rfl⟩ := h
  have hrow : Row c ns d := by simpa using manyWhile_rows places_statement.rows hns
  exact ⟨ns, rfl, hrow⟩

/-- The statements of a program stand in a row from the first token on, and its span is drawn from
there. -/
theorem row_of_parse {tokens : List Token} {p : Node} (h : parse tokens = .ok p) :
    ∃ d body, p = .program (d.spanFrom (Cursor.ofTokens tokens).current.span) body ∧
      Row (Cursor.ofTokens tokens) body d := by
  have hgives : Parser.program.Gives (Cursor.ofTokens tokens) p
      (Parser.program (Cursor.ofTokens tokens)).2 := Prod.ext h rfl
  obtain ⟨body, hp, hrow⟩ := Parser.program_row hgives
  exact ⟨_, body, hp, hrow⟩

end HanScript
