-- Where statements are recorded: at the token at which their rule begins, or,
-- for one that begins with parentheses, at the first token inside them.
import HanScript.Proofs.Spans.Nesting

namespace HanScript

/-- The span begins at the same place as the other. -/
def Span.BeginsWith (s t : Span) : Prop :=
  s.line = t.line ∧ s.column = t.column ∧ s.start = t.start

/-- Every statement below a node that stands in a row was read by a rule of statements. -/
theorem Row.statementAt {tokens : List Token} {c d : Cursor} {ns : List Node} (h : Row c ns d)
    (hc : c.tokens = tokens) {m : Node} (hm : m ∈ ns) (r : Role) :
    Node.Everywhere (fun _ n => n.isStatement = true → ∃ c, c.tokens = tokens ∧ StatementAt c n) r
      m := by
  refine h.everywhere (fun {_ n} hk hn => ?_) (fun {_ a n b} ha hspread hn => ?_) hc m hm r
  · cases n with
    | absent => cases hn
    | _ => cases hk
  · obtain ⟨-, -, -, -, hstatement, -⟩ := hspread
    rcases hstatement with hnone | ⟨c', hopen, hread⟩
    · rw [hnone] at hn
      cases hn
    · exact ⟨c', hopen.precedes.tokens.symm.trans ha, hread⟩

namespace StatementAt

variable {c : Cursor} {n : Node}

/-- A statement begins with the first token that opens no parenthesis. -/
theorem begins (h : StatementAt c n) :
    ∃ a, c.Unwraps a ∧ a.current.kind ≠ .leftParen ∧ n.span.BeginsWith a.current.span := by
  obtain ⟨d, a, b, hopen, hspread, -⟩ := h.lies
  obtain ⟨-, -, hk, hspan, -, -⟩ := hspread
  refine ⟨a, hopen, hk, ?_⟩
  rw [hspan.begins]
  exact ⟨rfl, rfl, rfl⟩

/-- Only a statement that is an expression begins with a parenthesis. -/
theorem expression_of_paren (h : StatementAt c n) (hk : c.current.kind = .leftParen) :
    ∃ s e, n = .expressionStatement s e := by
  cases h with
  | statement hn =>
    rw [Parser.statement_gives, Parser.Rule.statement, Parser.bind_gives] at hn
    obtain ⟨_, _, hpeek, hn⟩ := hn
    obtain ⟨rfl, rfl⟩ := Parser.peek_gives.mp hpeek
    rw [hk] at hn
    simp only [Parser.expressionStatement, Parser.bind_gives, Parser.spanFrom_gives,
      Parser.pure_gives] at hn
    obtain ⟨e, _, -, _, _, -, s, _, -, rfl, -⟩ := hn
    exact ⟨s, e, rfl⟩
  | elseIf hk' => simp [hk] at hk'
  | body hn =>
    rw [Parser.nestedStatement_gives, Parser.Rule.block, Parser.bind_gives] at hn
    obtain ⟨_, _, hbrace, -⟩ := hn
    obtain ⟨-, hp⟩ := (Parser.expect_gives (by decide)).mp hbrace
    have hbrace := hp.kind
    simp [hk] at hbrace
  | initial hk' => simp [hk] at hk'

/-- Where tokens stand one after the other, a statement begins with its first token unless that
opens a parenthesis. -/
theorem begins_iff {length : Int} (ho : InOrder length c.tokens) (h : StatementAt c n) :
    n.span.BeginsWith c.current.span ↔ c.current.kind ≠ .leftParen := by
  obtain ⟨a, hopen, hk, hbegins⟩ := h.begins
  constructor
  · intro hfirst hparen
    have hne : c.position ≠ a.position := by
      intro heq
      obtain ⟨w, hw, -⟩ := hopen
      have hposition := hw.position
      have hnil : w = [] := List.length_eq_zero_iff.mp (by omega)
      rw [hnil, Cursor.passes_nil] at hw
      rw [hw] at hk
      exact hk hparen
    have hle := hopen.precedes.position_le
    have ha := a.getElem?_position
    rw [hopen.precedes.tokens] at ha
    have hapart := ho.apart c.getElem?_position ha (by omega)
    have hwide := ho.start_lt_stop _ (List.mem_of_getElem? c.getElem?_position) (by simp [hparen])
    have hsame : c.current.span.start = a.current.span.start := hfirst.2.2.symm.trans hbegins.2.2
    omega
  · intro hparen
    rw [hopen.eq_of_ne hparen] at hbegins
    exact hbegins

end StatementAt

/-- Statements are recorded where they begin, unless they begin with a parenthesis. Every statement in
a program was read by a rule of statements from one of its tokens. What such a rule gives, begins at
the first token from there on that opens no parenthesis. So it begins at the token from which it was
read exactly if that opens none, and if it does, the statement is an expression. -/
theorem statements_begin_after_parentheses (source : String) :
    (∀ p, parseSource source = .ok p →
      Node.Everywhere (fun _ n => n.isStatement = true →
        ∃ c, c.tokens = tokenize source ∧ StatementAt c n) .program p) ∧
    ∀ c n, c.tokens = tokenize source → StatementAt c n →
      (∃ a, c.Unwraps a ∧ a.current.kind ≠ .leftParen ∧ n.span.BeginsWith a.current.span) ∧
      (n.span.BeginsWith c.current.span ↔ c.current.kind ≠ .leftParen) ∧
      (c.current.kind = .leftParen → ∃ s e, n = .expressionStatement s e) := by
  have ho := inOrder_tokenize source
  constructor
  · intro p hp
    obtain ⟨d, body, rfl, hrow⟩ := row_of_parse hp
    refine .mk (fun hn => by cases hn) fun part hpart => ?_
    have hmem : part.2 ∈ body := Node.mem_row_of_part (n := .program _ body) trivial hpart
    exact hrow.statementAt (tokens_ofTokens_tokenize source) hmem part.1
  · intro c n hc hn
    exact ⟨hn.begins, hn.begins_iff (hc ▸ ho), hn.expression_of_paren⟩

/-- A call whose callee stands in parentheses. -/
def wrappedCall : String := "((a))(b)"

theorem wrappedCall_begins_inside :
    let c := Cursor.ofTokens (tokenize wrappedCall)
    ∃ p n rest, parseSource wrappedCall = .ok p ∧ p.statements = n :: rest ∧
      Node.Everywhere (fun _ n => n.isStatement = true →
        ∃ c, c.tokens = tokenize wrappedCall ∧ StatementAt c n) .program p ∧
      c.tokens = tokenize wrappedCall ∧ StatementAt c n ∧
      (∃ a, c.Unwraps a ∧ a.current.kind ≠ .leftParen ∧ n.span.BeginsWith a.current.span) ∧
      ¬ n.span.BeginsWith c.current.span := by
  intro c
  obtain ⟨hall, hread⟩ := statements_begin_after_parentheses wrappedCall
  obtain ⟨p, n, rest, d, hp, hn, hgives⟩ : ∃ p n rest d, parseSource wrappedCall = .ok p ∧
    p.statements = n :: rest ∧ Parser.statement.Gives c n d := ⟨_, _, _, _, rfl, rfl, rfl⟩
  have htokens := tokens_ofTokens_tokenize wrappedCall
  obtain ⟨hbegins, hiff, -⟩ := hread c n htokens (.statement hgives)
  exact ⟨p, n, rest, hp, hn, hall p hp, htokens, .statement hgives, hbegins, fun h => hiff.mp h rfl⟩

/-- A statement in parentheses does not begin where it is read. -/
theorem parenthesized_statement_begins_late :
    ∃ p n d, parseSource "(a);" = .ok p ∧ p.statements = [n] ∧
      Parser.statement.Gives (Cursor.ofTokens (tokenize "(a);")) n d ∧
      (Cursor.ofTokens (tokenize "(a);")).current.span.start = 0 ∧ n.span.start = 1 :=
  ⟨_, _, _, rfl, rfl, rfl, rfl, rfl⟩

end HanScript
