-- What a rule of statements has taken where it fails can be completed to a
-- statement, and what the parser has taken of a program to a program. A
-- completed statement stands before a closing brace, where it has no need of a
-- semicolon.
import HanScript.Proofs.Parsing.Soundness.Statement
import HanScript.Proofs.Parsing.Viability.Expression

namespace HanScript

namespace Grammar

/-! ## Statements before a closing brace and at the end -/

/-- Whatever forms a statement somewhere also does before a closing brace and at the end. -/
theorem Statement.settle {part : Part} {next next' : TokenKind} {w : List Terminal} {n : Node}
    (h : Statement part next w n) (hnext : next' = .rightBrace ∨ next' = .eof) :
    Statement part next' w n := by
  have terminator : ∀ {next v}, Terminator next v → Terminator next' v := by
    intro next v hv
    cases hv with
    | semicolon => exact .semicolon
    | leftOut => exact .leftOut hnext
  induction h using Statement.induction with
  | declaration hw hv => exact .declaration hw (terminator hv)
  | function hk hv hw => exact .function hk hv hw
  | block hw => exact .block hw
  | ifElse _ ih => exact .ifElse ih
  | whileLoop hw _ ih => exact .whileLoop hw ih
  | forLoop hi ht hu _ ih => exact .forLoop hi ht hu ih
  | returning hw hv => exact .returning hw (terminator hv)
  | breaking hv => exact .breaking (terminator hv)
  | continuing hv => exact .continuing (terminator hv)
  | importing hw hv => exact .importing hw (terminator hv)
  | exporting _ ih => exact .exporting ih
  | exportingDefault _ ih => exact .exportingDefault ih
  | expression hw hs hv => exact .expression hw hs (terminator hv)
  | alone hw _ _ _ ih => rcases hnext with rfl | rfl <;> exact .alone hw ih (by decide) (by decide)
  | orElse hw hv _ _ ih => exact .orElse hw hv ih
  | orElseIf hw hv _ _ ih => exact .orElseIf hw hv ih

theorem Statement.ofName (x : String) :
    Statement .statement .rightBrace [⟨.identifier, x⟩]
      (.expressionStatement {} (.identifier {} x)) := by
  have opens : follower [⟨.identifier, x⟩] .eof ∉ statementKinds := by simp [statementKinds]
  simpa using Statement.expression (.ofName _ x) opens (.leftOut (.inl rfl))

end Grammar

namespace Parser

open Grammar

variable {c s : Cursor} {e : ParseError}

/-! ## Parts of statements -/

theorem terminator_viable :
    Viable terminator fun w (_ : Unit) => Terminator .rightBrace w := by
  intro c e s h
  simp only [terminator, bind_fails, not_accept_fails, false_or, accept_gives] at h
  obtain ⟨_, _, ⟨rfl, -, rfl⟩ | ⟨rfl, -, rfl⟩, h⟩ := h
  · exact absurd h not_pure_fails
  · rw [if_neg (by decide), isAtAny_bind_fails] at h
    split at h
    · exact absurd h not_pure_fails
    · rw [bind_pure_fails] at h
      exact .atOnce (expect_fails h) [] (List.forall_mem_nil _) (b := ()) (.leftOut (.inl rfl))

theorem declared_viable : Viable declared Grammar.Target := by
  intro c e s h
  rw [declared, isAt_bind_fails] at h
  split at h
  · simp only [arrayPattern, bind_fails] at h
    rcases h with h | ⟨⟨span, qs⟩, d, -, h⟩
    · refine (bracketed_viable identifier_forms identifier_viable h).mono ?_
      rintro _ ns ⟨v, x, y, rfl, hs⟩
      exact ⟨_, .pattern hs⟩
    · exact absurd h not_pure_fails
  · exact (identifier_viable h).mono fun _ _ hw => ⟨_, .name hw⟩

theorem declarator_viable : Viable declarator Declarator := by
  intro c e s h
  rw [declarator, peek_bind_fails] at h
  simp only [initializer, bind_fails, not_accept_fails, accept_gives, not_spanFrom_fails,
    not_pure_fails, and_false, exists_false, or_false, false_or] at h
  rcases h with h | ⟨target, _, ht, _, _, ⟨rfl, hk, rfl⟩ | ⟨rfl, -, rfl⟩, h⟩
  · exact (declared_viable h).mono fun _ _ hw => ⟨_, .plain hw⟩
  · obtain ⟨w, hw, ht⟩ := declared_forms ht
    have ha := Cursor.passes_kind hk (by decide)
    exact (expression_viable h).after (hw.append ha) fun _ _ hv =>
      ⟨_, by simpa using Declarator.given ht hv⟩
  · exact absurd h not_pure_fails

theorem declaration_viable (hk : c.current.kind = .letWord ∨ c.current.kind = .constWord)
    (h : declaration.Fails c e s) : Stalls c e s Declaration := by
  rw [declaration, advance_bind_fails, bind_span_fails] at h
  have declarators := separated_viable declarator_forms declarator_viable h
  rcases hk with hk | hk
  · exact declarators.after (Cursor.passes_kind hk (by decide)) fun _ _ hw => ⟨_, .changing hw⟩
  · exact declarators.after (Cursor.passes_kind hk (by decide)) fun _ _ hw => ⟨_, .constant hw⟩

theorem returned_viable : Viable returned Optional := by
  intro c e s h
  rw [returned, isAtAny_bind_fails] at h
  split at h
  · exact absurd h not_pure_fails
  · exact (expression_viable h).mono fun _ _ hw => ⟨_, .given hw⟩

theorem optional_viable {close : TokenKind} : Viable (Rule.optional close) Optional := by
  intro c e s h
  rw [Rule.optional, isAt_bind_fails] at h
  split at h
  · exact absurd h not_pure_fails
  · exact (expression_viable h).mono fun _ _ hw => ⟨_, .given hw⟩

theorem initialPart_viable : Viable Rule.initialPart Initial := by
  intro c e s h
  rw [Rule.initialPart, isAtAny_bind_fails] at h
  split at h
  · rename_i hk
    exact (declaration_viable (by simpa using hk) h).mono fun _ _ hw => ⟨_, .declaration hw⟩
  · exact (optional_viable h).mono fun _ _ hw => ⟨_, .expression hw⟩

theorem importSpecifier_viable : Viable importSpecifier Specifier := by
  intro c e s h
  rw [importSpecifier, bind_span_fails] at h
  exact .atOnce (identifier_fails h) [⟨.identifier, ""⟩] (by decide) .mk

theorem condition_viable : Viable Rule.condition Condition := by
  intro c e s h
  simp (disch := decide) only [Rule.condition, bind_fails, expect_gives, not_pure_fails, and_false,
    exists_false, or_false] at h
  rcases h with h | ⟨_, _, ⟨rfl, hl⟩, h | ⟨n, _, hn, h⟩⟩
  · exact .atOnce (expect_fails h) [⟨.leftParen, ""⟩, ⟨.identifier, ""⟩, ⟨.rightParen, ""⟩]
      (by decide) (.mk (.ofName _ _))
  · exact (expression_viable h).within hl [⟨.rightParen, ""⟩] (by decide) fun _ _ hw => ⟨_, .mk hw⟩
  · obtain ⟨w, hw, hp⟩ := expression_forms hn
    exact .here (expect_fails h) (hl.cons hw) [⟨.rightParen, ""⟩] (by decide) (.mk hp)

/-! ## Statements -/

/-- The tokens form a statement that a closing brace comes after. -/
abbrev LastStatement : List Terminal → Node → Prop := Statement .statement .rightBrace

/-- Where the rules of statements one level further in fail, what they have taken can be
completed. What comes after the word that leads to a branch becomes a branch. -/
structure InnerStatement.Completable (inner : InnerStatement) : Prop where
  statement : Viable inner.statement LastStatement
  ifElse : ∀ ⦃c e s⦄, inner.ifElse.Fails c e s →
    Stalls c.advance e s (Statement .branch .rightBrace)

/-- A declaration with its terminator. -/
theorem declarationStatement_viable (hk : c.current.kind = .letWord ∨ c.current.kind = .constWord)
    (h : (do let node ← declaration
             terminator
             return node : Parser Node).Fails c e s) : Stalls c e s LastStatement := by
  rw [bind_fails] at h
  rcases h with h | ⟨n, d, hn, h⟩
  · exact (declaration_viable hk h).mono fun _ _ hw =>
      ⟨_, by simpa using Statement.declaration hw (.leftOut (.inl rfl))⟩
  · rw [bind_pure_fails] at h
    obtain ⟨w, hw, hn⟩ := declaration_reads hk hn
    exact (terminator_viable h).after hw fun _ _ hv => ⟨_, .declaration hn hv⟩

theorem importing_viable (hk : c.current.kind = .importWord) (h : importing.Fails c e s) :
    Stalls c e s LastStatement := by
  simp (disch := decide) only [importing, bind_fails, not_advance_fails, advance_gives,
    expect_gives, spanFrom_gives, not_spanFrom_fails, not_pure_fails, and_false, exists_false,
    or_false, false_or] at h
  obtain ⟨_, _, ⟨rfl, rfl⟩, h⟩ := h
  have hi := Cursor.passes_kind hk (by decide)
  have leftOut : Terminator .rightBrace [] := .leftOut (.inl rfl)
  rcases h with h | ⟨_, _, ⟨rfl, hl⟩, h | ⟨qs, _, hq, h⟩⟩
  · exact .here (expect_fails h) hi
      [⟨.leftBrace, ""⟩, ⟨.rightBrace, ""⟩, ⟨.fromWord, ""⟩, ⟨.string, ""⟩] (by decide)
      (.importing .nil leftOut)
  · exact (listUntil_viable importSpecifier_forms importSpecifier_viable h).within (hi.cons hl)
      [⟨.rightBrace, ""⟩, ⟨.fromWord, ""⟩, ⟨.string, ""⟩] (by decide)
      fun _ _ hw => ⟨_, .importing hw leftOut⟩
  · obtain ⟨w, hw, hn⟩ := listUntil_reads importSpecifier_forms hq
    have names := hi.cons (hl.cons hw)
    rcases h with h | ⟨_, _, ⟨rfl, hr⟩, h | ⟨_, _, ⟨rfl, hf⟩, h |
      ⟨_, _, ⟨rfl, hs⟩, _, _, ⟨rfl, rfl⟩, h⟩⟩⟩
    · exact .here (expect_fails h) names [⟨.rightBrace, ""⟩, ⟨.fromWord, ""⟩, ⟨.string, ""⟩]
        (by decide) (.importing hn leftOut)
    · exact .here (expect_fails h) (names.append hr) [⟨.fromWord, ""⟩, ⟨.string, ""⟩] (by decide)
        (by simpa using Statement.importing hn leftOut)
    · exact .here (expect_fails h) (names.append (hr.cons hf)) [⟨.string, ""⟩] (by decide)
        (by simpa using Statement.importing hn leftOut)
    · exact (terminator_viable h).after (names.append (hr.cons (hf.cons hs))) fun _ _ hv =>
        ⟨_, by simpa using Statement.importing hn hv⟩

theorem returning_viable (hk : c.current.kind = .returnWord) (h : returning.Fails c e s) :
    Stalls c e s LastStatement := by
  rw [returning, advance_bind_fails, bind_fails] at h
  have hr := Cursor.passes_kind hk (by decide)
  rcases h with h | ⟨a, d, ha, h⟩
  · exact (returned_viable h).after hr fun _ _ hw =>
      ⟨_, by simpa using Statement.returning hw (.leftOut (.inl rfl))⟩
  · rw [bind_span_fails] at h
    obtain ⟨w, hw, hn⟩ := returned_forms ha
    exact (terminator_viable h).after (hr.cons hw) fun _ _ hv => ⟨_, .returning hn hv⟩

theorem single_viable {node : Span → Node} {kind : TokenKind} {n : Node}
    (hk : c.current.kind = kind) (he : kind ≠ .eof)
    (hn : ∀ {v x}, Terminator .rightBrace v → LastStatement (⟨kind, x⟩ :: v) n)
    (h : (single node).Fails c e s) : Stalls c e s LastStatement := by
  rw [single, advance_bind_fails, bind_span_fails] at h
  exact (terminator_viable h).after (Cursor.passes_kind hk he) fun _ _ hv => ⟨_, hn hv⟩

theorem expressionStatement_viable (hk : c.current.kind ∉ statementKinds)
    (h : expressionStatement.Fails c e s) : Stalls c e s LastStatement := by
  rw [expressionStatement, bind_fails] at h
  rcases h with h | ⟨n, d, hn, h⟩
  · obtain ⟨d, w, v, n, hat, hw, hv, hn⟩ := expression_viable h
    cases w with
    | nil =>
      -- The completion may begin like another statement, but a name does not.
      obtain rfl := Cursor.passes_nil.mp hw
      exact .atOnce hat [⟨.identifier, ""⟩] (by decide) (.ofName _)
    | cons t w =>
      rw [hw.kind] at hk
      exact .here hat hw v hv (by simpa using Statement.expression hn hk (.leftOut (.inl rfl)))
  · rw [bind_span_fails] at h
    obtain ⟨w, hw, hp⟩ := expression_forms hn
    rw [hw.current, follower_of_ne_nil hp.ne_nil _ .eof] at hk
    exact (terminator_viable h).after hw fun _ _ hv => ⟨_, .expression hp hk hv⟩

/-- Statements, and one that fails. If that one has taken no token it is left out, and what
comes before it then stands at the end. -/
theorem statements_stall {next : TokenKind} {d : Cursor} {u : List Terminal} {ns : List Node}
    (hnext : next = .rightBrace ∨ next = .eof) (hu : c.Passes u d)
    (hs : Sequence (Statement .statement) d.current.kind u ns) (h : Stalls d e s LastStatement) :
    Stalls c e s (Sequence (Statement .statement) next) := by
  obtain ⟨d', w, v, n, hat, hw, hv, hn⟩ := h
  cases w with
  | nil =>
    obtain rfl := Cursor.passes_nil.mp hw
    have settled := hs.before fun h => h.settle hnext
    exact .here hat hu [] (List.forall_mem_nil _) (by simpa using settled)
  | cons t w =>
    rw [hw.kind] at hs
    have whole := Sequence.append (v := t :: w ++ v) hs (.single (hn.settle hnext))
    exact .here hat (hu.append hw) v hv (by simpa using whole)

section Rules

variable {inner : InnerStatement} (sound : inner.Sound) (viable : inner.Completable)

include sound viable

theorem block_viable : Viable (Rule.block inner) fun w ns => ∃ v x y,
    w = ⟨.leftBrace, x⟩ :: v ++ [⟨.rightBrace, y⟩] ∧
      Sequence (Statement .statement) .rightBrace v ns := by
  intro c e s h
  simp (disch := decide) only [Rule.block, bind_fails, expect_gives, not_spanFrom_fails,
    not_pure_fails, and_false, exists_false, or_false] at h
  rcases h with h | ⟨_, _, ⟨rfl, hl⟩, h | ⟨qs, d, hq, h⟩⟩
  · exact .atOnce (expect_fails h) [⟨.leftBrace, ""⟩, ⟨.rightBrace, ""⟩] (by decide) (b := [])
      ⟨[], _, _, rfl, .nil⟩
  · obtain ⟨u, qs, d, hu, hs, -, h⟩ := manyWhile_fails (G := IsStatement)
      (fun _ _ _ _ h => sound.statement h) h
    exact (statements_stall (.inl rfl) hu (sequence_map hs) (viable.statement h)).within hl
      [⟨.rightBrace, ""⟩] (by decide) fun v ns hv => ⟨ns, v, _, _, rfl, hv⟩
  · obtain ⟨u, hu, hs, -⟩ := manyWhile_reads (G := IsStatement)
      (fun _ _ _ _ h => sound.statement h) hq
    replace hs : Sequence (Statement .statement) _ u (qs.map Node.bare) := sequence_map hs
    exact .here (expect_fails h) (hl.cons hu) [⟨.rightBrace, ""⟩] (by decide)
      ⟨u, _, _, rfl, hs.before fun h => h.settle (.inl rfl)⟩

theorem function_viable (hk : c.current.kind = .functionWord ∨ c.current.kind = .componentWord)
    (h : (Rule.function inner).Fails c e s) : Stalls c e s LastStatement := by
  simp (disch := decide) only [Rule.function, bind_fails, not_advance_fails, advance_gives,
    identifier_gives, expect_gives, not_spanFrom_fails, not_pure_fails, and_false, exists_false,
    or_false, false_or] at h
  obtain ⟨_, _, ⟨rfl, rfl⟩, h⟩ := h
  have hf : c.Passes [⟨c.current.kind, c.current.value⟩] c.advance :=
    Cursor.passes_kind rfl (by rcases hk with hk | hk <;> simp [hk])
  rcases h with h | ⟨_, _, ⟨name, hname, rfl⟩, h | ⟨_, _, ⟨rfl, hl⟩, h | ⟨ps, _, hps, h⟩⟩⟩
  · exact .here (identifier_fails h) hf [⟨.identifier, ""⟩, ⟨.leftParen, ""⟩, ⟨.rightParen, ""⟩,
      ⟨.leftBrace, ""⟩, ⟨.rightBrace, ""⟩] (by decide) (.function hk .none .nil)
  · exact .here (expect_fails h) (hf.cons hname) [⟨.leftParen, ""⟩, ⟨.rightParen, ""⟩,
      ⟨.leftBrace, ""⟩, ⟨.rightBrace, ""⟩] (by decide) (.function hk .none .nil)
  · exact (separatedUntil_viable identifier_forms identifier_viable h).within
      (hf.cons (hname.cons hl)) [⟨.rightParen, ""⟩, ⟨.leftBrace, ""⟩, ⟨.rightBrace, ""⟩] (by decide)
      fun _ _ hv => ⟨_, by simpa using Statement.function hk hv .nil⟩
  · obtain ⟨v, hv, hs⟩ := separatedUntil_reads identifier_forms hps
    have head := hf.cons (hname.cons (hl.cons hv))
    rcases h with h | ⟨_, _, ⟨rfl, hr⟩, h⟩
    · exact .here (expect_fails h) head [⟨.rightParen, ""⟩, ⟨.leftBrace, ""⟩, ⟨.rightBrace, ""⟩]
        (by decide) (by simpa using Statement.function hk hs .nil)
    · refine (block_viable sound viable h).after (head.append hr) ?_
      rintro _ ns ⟨w, x, y, rfl, hw⟩
      exact ⟨_, by simpa using Statement.function hk hs hw⟩

theorem ifElse_viable (h : (Rule.ifElse inner).Fails c e s) :
    Stalls c.advance e s (Statement .branch .rightBrace) := by
  rw [Rule.ifElse, advance_bind_fails, bind_fails] at h
  rcases h with h | ⟨test, d, ht, h⟩
  · exact (condition_viable h).within (u := []) rfl [⟨.identifier, ""⟩] (by decide)
      fun _ _ hw => ⟨_, .alone hw (.ofName _) (by decide) (by decide)⟩
  · obtain ⟨w, hw, ht⟩ := condition_forms ht
    rcases bind_fails.mp h with h | ⟨yes, d', hy, h⟩
    · exact (viable.statement h).after hw fun _ _ hv =>
        ⟨_, .alone ht hv (by decide) (by decide)⟩
    · obtain ⟨v, hv, hy⟩ := sound.statement hy
      rw [bind_span_fails, Rule.alternate, isAt_bind_fails] at h
      split at h
      · rename_i he
        replace he := of_decide_eq_true he
        have hp := Cursor.passes_kind he (by decide)
        rw [IsStatement, he] at hy
        exact (viable.ifElse h).after ((hw.append hv).append hp) fun _ _ hu =>
          ⟨_, by simpa using Statement.orElseIf ht hy hu⟩
      · simp only [bind_fails, not_accept_fails, false_or, accept_gives] at h
        obtain ⟨_, _, ⟨rfl, he, rfl⟩ | ⟨rfl, -, rfl⟩, h⟩ := h
        · have hp := Cursor.passes_kind he (by decide)
          rw [IsStatement, he] at hy
          exact (viable.statement h).after ((hw.append hv).append hp) fun _ _ hu =>
            ⟨_, by simpa using Statement.orElse ht hy hu⟩
        · exact absurd h not_pure_fails

omit sound in
theorem whileLoop_viable (hk : c.current.kind = .whileWord)
    (h : (Rule.whileLoop inner).Fails c e s) : Stalls c e s LastStatement := by
  rw [Rule.whileLoop, advance_bind_fails, bind_fails] at h
  have hp := Cursor.passes_kind hk (by decide)
  rcases h with h | ⟨test, d, ht, h⟩
  · exact (condition_viable h).within hp [⟨.identifier, ""⟩] (by decide)
      fun _ _ hw => ⟨_, .whileLoop hw (.ofName _)⟩
  · rw [bind_span_fails] at h
    obtain ⟨w, hw, ht⟩ := condition_forms ht
    exact (viable.statement h).after (hp.cons hw) fun _ _ hv => ⟨_, .whileLoop ht hv⟩

omit sound in
theorem forLoop_viable (hk : c.current.kind = .forWord) (h : (Rule.forLoop inner).Fails c e s) :
    Stalls c e s LastStatement := by
  simp (disch := decide) only [Rule.forLoop, bind_fails, not_advance_fails, advance_gives,
    expect_gives, not_spanFrom_fails, not_pure_fails, and_false, exists_false, or_false,
    false_or] at h
  obtain ⟨_, _, ⟨rfl, rfl⟩, h⟩ := h
  have hp := Cursor.passes_kind hk (by decide)
  have body := Statement.ofName ""
  rcases h with h | ⟨_, _, ⟨rfl, hl⟩, h | ⟨a, _, ha, h⟩⟩
  · exact .here (expect_fails h) hp [⟨.leftParen, ""⟩, ⟨.semicolon, ""⟩, ⟨.semicolon, ""⟩,
      ⟨.rightParen, ""⟩, ⟨.identifier, ""⟩] (by decide)
      (.forLoop (.expression .leftOut) .leftOut .leftOut body)
  · exact (initialPart_viable h).within (hp.cons hl) [⟨.semicolon, ""⟩, ⟨.semicolon, ""⟩,
      ⟨.rightParen, ""⟩, ⟨.identifier, ""⟩] (by decide)
      fun _ _ hi => ⟨_, by simpa using Statement.forLoop hi .leftOut .leftOut body⟩
  · obtain ⟨i, hi, ha⟩ := initialPart_forms ha
    have head := hp.cons (hl.cons hi)
    rcases h with h | ⟨_, _, ⟨rfl, hs⟩, h | ⟨b, _, hb, h⟩⟩
    · exact .here (expect_fails h) head [⟨.semicolon, ""⟩, ⟨.semicolon, ""⟩, ⟨.rightParen, ""⟩,
        ⟨.identifier, ""⟩] (by decide)
        (by simpa using Statement.forLoop ha .leftOut .leftOut body)
    · exact (optional_viable h).within (head.append hs) [⟨.semicolon, ""⟩, ⟨.rightParen, ""⟩,
        ⟨.identifier, ""⟩] (by decide)
        fun _ _ ht => ⟨_, by simpa using Statement.forLoop ha ht .leftOut body⟩
    · obtain ⟨t, ht, hb⟩ := optional_forms hb
      have head' := head.append (hs.cons ht)
      rcases h with h | ⟨_, _, ⟨rfl, hs'⟩, h | ⟨u, _, hu, h⟩⟩
      · exact .here (expect_fails h) head' [⟨.semicolon, ""⟩, ⟨.rightParen, ""⟩, ⟨.identifier, ""⟩]
          (by decide) (by simpa using Statement.forLoop ha hb .leftOut body)
      · exact (optional_viable h).within (head'.append hs') [⟨.rightParen, ""⟩, ⟨.identifier, ""⟩]
          (by decide) fun _ _ hu => ⟨_, by simpa using Statement.forLoop ha hb hu body⟩
      · obtain ⟨u, hu, he⟩ := optional_forms hu
        have head'' := head'.append (hs'.cons hu)
        rcases h with h | ⟨_, _, ⟨rfl, hr⟩, h⟩
        · exact .here (expect_fails h) head'' [⟨.rightParen, ""⟩, ⟨.identifier, ""⟩] (by decide)
            (by simpa using Statement.forLoop ha hb he body)
        · exact (viable.statement h).after (head''.append hr) fun _ _ hw =>
            ⟨_, by simpa using Statement.forLoop ha hb he hw⟩

omit sound in
theorem exporting_viable (hk : c.current.kind = .exportWord)
    (h : (Rule.exporting inner).Fails c e s) : Stalls c e s LastStatement := by
  simp only [Rule.exporting, bind_fails, not_advance_fails, advance_gives, not_accept_fails,
    accept_gives, not_spanFrom_fails, not_pure_fails, and_false, exists_false, or_false,
    false_or] at h
  obtain ⟨_, _, ⟨rfl, rfl⟩, _, _, ⟨rfl, hd, rfl⟩ | ⟨rfl, -, rfl⟩, h⟩ := h
  · have hp := Cursor.passes_kind hk (by decide)
    have hq := Cursor.passes_kind hd (by decide)
    exact (viable.statement h).after (hp.cons hq) fun _ _ hw => ⟨_, .exportingDefault hw⟩
  · have hp := Cursor.passes_kind hk (by decide)
    exact (viable.statement h).after hp fun _ _ hw => ⟨_, .exporting hw⟩

theorem statement_viable : Viable (Rule.statement inner) LastStatement := by
  intro c e s h
  rw [Rule.statement, peek_bind_fails] at h
  split at h
  case h_1 hk => exact declarationStatement_viable (.inl hk) h
  case h_2 hk => exact declarationStatement_viable (.inr hk) h
  case h_3 hk => exact function_viable sound viable (.inl hk) h
  case h_4 hk => exact function_viable sound viable (.inr hk) h
  case h_5 =>
    refine (block_viable sound viable h).mono ?_
    rintro _ ns ⟨v, x, y, rfl, hv⟩
    exact ⟨_, .block hv⟩
  case h_6 hk =>
    exact (ifElse_viable sound viable h).after (Cursor.passes_kind hk (by decide))
      fun _ _ hw => ⟨_, .ifElse hw⟩
  case h_7 hk => exact whileLoop_viable viable hk h
  case h_8 hk => exact forLoop_viable viable hk h
  case h_9 hk => exact returning_viable hk h
  case h_10 hk => exact single_viable hk (by decide) .breaking h
  case h_11 hk => exact single_viable hk (by decide) .continuing h
  case h_12 hk => exact importing_viable hk h
  case h_13 hk => exact exporting_viable viable hk h
  case h_14 =>
    refine expressionStatement_viable ?_ h
    simp only [statementKinds, List.mem_cons, List.not_mem_nil, or_false, not_or]
    refine ⟨?_, ?_, ?_, ?_, ?_, ?_, ?_, ?_, ?_, ?_, ?_, ?_, ?_⟩ <;> assumption

end Rules

theorem completable_innerStatement (budget : List Token) : (innerStatement budget).Completable := by
  induction budget with
  | nil =>
    exact ⟨fun _ _ _ h => absurd h not_overrun_fails, fun _ _ _ h => absurd h not_overrun_fails⟩
  | cons t budget ih =>
    have sound := sound_innerStatement budget
    rw [innerStatement]
    exact ⟨statement_viable sound ih, fun _ _ _ => ifElse_viable sound ih⟩

/-! ## Programs -/

/-- Where the parser fails, what it has taken can be completed to a program. -/
theorem program_viable : Viable program Program := by
  intro c e s h
  rw [program, peek_bind_fails, bind_span_fails] at h
  obtain ⟨u, qs, d, hu, hs, -, h⟩ := manyWhile_fails (fun _ _ _ _ h => reads_statement h) h
  rw [statement, Fails, nestedStatement] at h
  have stalls := statement_viable (sound_innerStatement d.budget)
    (completable_innerStatement d.budget) h
  exact (statements_stall (.inr rfl) hu (sequence_map hs) stalls).mono fun _ _ hw => ⟨_, .mk hw⟩

end Parser

end HanScript
