-- One step of each repetition, taken apart: when it goes on, and what it has
-- then taken. Both directions of the grammar are proved from these.
import HanScript.Proofs.Parsing.Run

namespace HanScript.Parser

variable {α : Type}

/-! ## Items one after the other -/

/-- One step of `manyWhile`. -/
def manyStep (more : Parser Bool) (item : Parser α) (items : List α) : Parser (Option (List α)) := do
  if ← more then
    let a ← item
    return some (a :: items)
  else return none

theorem manyWhile_gives {more : Parser Bool} {item : Parser α} {as : List α} {c d : Cursor} :
    (manyWhile more item).Gives c as d ↔
      ∃ r, (steps (manyStep more item) []).Gives c r d ∧ r.reverse = as := by
  change (steps (manyStep more item) [] >>= fun items => pure items.reverse).Gives c as d ↔ _
  simp only [bind_gives, pure_gives]
  constructor
  · rintro ⟨r, d', h, rfl, rfl⟩
    exact ⟨r, h, rfl⟩
  · rintro ⟨r, h, rfl⟩
    exact ⟨r, d, h, rfl, rfl⟩

theorem manyStep_none {more : Cursor → Bool} {item : Parser α} {items : List α} {c d : Cursor} :
    (manyStep (look more) item items).Gives c none d ↔ more c = false ∧ c = d := by
  simp only [manyStep, bind_gives, look_gives]
  constructor
  · rintro ⟨b, c', ⟨rfl, rfl⟩, h⟩
    cases hm : more c <;> simp [hm, bind_gives, pure_gives] at h
    exact ⟨rfl, h⟩
  · rintro ⟨hm, rfl⟩
    exact ⟨false, c, ⟨hm, rfl⟩, by simp [pure_gives]⟩

theorem manyStep_some {more : Cursor → Bool} {item : Parser α} {items items' : List α}
    {c d : Cursor} :
    (manyStep (look more) item items).Gives c (some items') d ↔
      more c = true ∧ ∃ a, item.Gives c a d ∧ a :: items = items' := by
  simp only [manyStep, bind_gives, look_gives]
  constructor
  · rintro ⟨b, c', ⟨rfl, rfl⟩, h⟩
    cases hm : more c <;> simp [hm, bind_gives, pure_gives] at h
    exact ⟨rfl, h⟩
  · rintro ⟨hm, a, ha, rfl⟩
    exact ⟨true, c, ⟨hm, rfl⟩, by simp [bind_gives, pure_gives, ha]⟩

/-! ## Items with commas -/

/-- One step of `listUntil`. -/
def listStep (close : TokenKind) (item : Parser α) :
    List α × Bool → Parser (Option (List α × Bool)) := fun (items, more) => do
  if !more then return none
  else if ← isAt close then return none
  else
    let a ← item
    let comma ← accept .comma
    return some (a :: items, comma)

theorem listUntil_gives {close : TokenKind} {item : Parser α} {as : List α} {c d : Cursor} :
    (listUntil close item).Gives c as d ↔
      ∃ r, (steps (listStep close item) ([], true)).Gives c r d ∧ r.1.reverse = as := by
  change (steps (listStep close item) ([], true) >>= fun r => pure r.1.reverse).Gives c as d ↔ _
  simp only [bind_gives, pure_gives]
  constructor
  · rintro ⟨r, d', h, rfl, rfl⟩
    exact ⟨r, h, rfl⟩
  · rintro ⟨r, h, rfl⟩
    exact ⟨r, d, h, rfl, rfl⟩

theorem listStep_none {close : TokenKind} {item : Parser α} {items : List α} {more : Bool}
    {c d : Cursor} :
    (listStep close item (items, more)).Gives c none d ↔
      (more = true → c.current.kind = close) ∧ c = d := by
  cases more with
  | false =>
    change (pure none : Parser _).Gives c _ _ ↔ _
    simp [pure_gives]
  | true =>
    change (isAt close >>= _).Gives c _ _ ↔ _
    simp only [bind_gives, isAt_gives]
    constructor
    · rintro ⟨b, c', ⟨rfl, rfl⟩, h⟩
      by_cases hc : c.current.kind = close <;> simp [hc, bind_gives, pure_gives] at h
      exact ⟨fun _ => hc, h⟩
    · rintro ⟨hc, rfl⟩
      exact ⟨true, c, ⟨by simp [hc], rfl⟩, by simp [pure_gives]⟩

theorem listStep_some {close : TokenKind} {item : Parser α} {items : List α} {more : Bool}
    {s : List α × Bool} {c e : Cursor} :
    (listStep close item (items, more)).Gives c (some s) e ↔
      more = true ∧ c.current.kind ≠ close ∧
        ∃ a d b, item.Gives c a d ∧ (accept .comma).Gives d b e ∧ (a :: items, b) = s := by
  cases more with
  | false =>
    change (pure none : Parser _).Gives c _ _ ↔ _
    simp [pure_gives]
  | true =>
    change (isAt close >>= _).Gives c _ _ ↔ _
    simp only [bind_gives, isAt_gives]
    constructor
    · rintro ⟨b, c', ⟨rfl, rfl⟩, h⟩
      by_cases hc : c.current.kind = close
      · simp [hc, pure_gives] at h
      · simp only [hc, decide_false, Bool.false_eq_true, if_false, bind_gives, pure_gives] at h
        obtain ⟨a, d, ha, b, e', hb, hs, rfl⟩ := h
        exact ⟨trivial, hc, a, d, b, ha, hb, Option.some.inj hs⟩
    · rintro ⟨-, hc, a, d, b, ha, hb, rfl⟩
      refine ⟨false, c, ⟨by simp [hc], rfl⟩, ?_⟩
      simp only [Bool.false_eq_true, if_false, bind_gives, pure_gives]
      exact ⟨a, d, ha, b, e, hb, rfl, rfl⟩

/-! ## Operators that bind to the left -/

/-- One step of `leftChain`. -/
def chainStep (operators : List TokenKind) (operand : Parser Node) (left : Node) :
    Parser (Option Node) := do
  if ← isAtAny operators then
    let token ← advance
    let right ← operand
    let span ← spanFrom left.span
    return some (.binary span token.value left right)
  else return none

theorem leftChain_eq (operators : List TokenKind) (operand : Parser Node) :
    Rule.leftChain operators operand = operand >>= steps (chainStep operators operand) := rfl

theorem chainStep_none {operators : List TokenKind} {operand : Parser Node} {left : Node}
    {c d : Cursor} :
    (chainStep operators operand left).Gives c none d ↔ c.current.kind ∉ operators ∧ c = d := by
  simp only [chainStep, bind_gives, isAtAny_gives]
  constructor
  · rintro ⟨b, c', ⟨rfl, rfl⟩, h⟩
    by_cases hc : c.current.kind ∈ operators <;> simp [hc, bind_gives, pure_gives] at h
    exact ⟨hc, h⟩
  · rintro ⟨hc, rfl⟩
    exact ⟨false, c, ⟨by simp [hc], rfl⟩, by simp [pure_gives]⟩

theorem chainStep_some {operators : List TokenKind} {operand : Parser Node} {left n : Node}
    {c e : Cursor} :
    (chainStep operators operand left).Gives c (some n) e ↔
      c.current.kind ∈ operators ∧ ∃ right, operand.Gives c.advance right e ∧
        .binary (e.spanFrom left.span) c.current.value left right = n := by
  simp only [chainStep, bind_gives, isAtAny_gives]
  constructor
  · rintro ⟨b, c', ⟨rfl, rfl⟩, h⟩
    by_cases hc : c.current.kind ∈ operators
    · simp only [hc, decide_true, if_true, bind_gives, advance_gives, spanFrom_gives, pure_gives] at h
      obtain ⟨t, d, ⟨rfl, rfl⟩, right, e', hr, s, e'', ⟨rfl, rfl⟩, hn, rfl⟩ := h
      exact ⟨hc, right, hr, Option.some.inj hn⟩
    · simp [hc, pure_gives] at h
  · rintro ⟨hc, right, hr, rfl⟩
    refine ⟨true, c, ⟨by simp [hc], rfl⟩, ?_⟩
    simp only [if_true, bind_gives, advance_gives, spanFrom_gives, pure_gives]
    exact ⟨_, _, ⟨rfl, rfl⟩, right, e, hr, _, e, ⟨rfl, rfl⟩, rfl, rfl⟩

/-! ## Names -/

/-- A name is taken exactly where a word stands, whatever is made of it. -/
theorem named_gives {node : Span → String → Node} {n : Node} {c d : Cursor} :
    (do let token ← expect .identifier
        let span ← spanFrom token.span
        return node span token.value : Parser Node).Gives c n d ↔
      ∃ x, c.Passes [⟨.identifier, x⟩] d ∧ node (d.spanFrom c.current.span) x = n := by
  simp (disch := decide) only [bind_gives, expect_gives, spanFrom_gives, pure_gives]
  constructor
  · rintro ⟨t, d', ⟨rfl, hp⟩, s, d'', ⟨rfl, rfl⟩, rfl, rfl⟩
    exact ⟨_, hp, rfl⟩
  · rintro ⟨x, hp, rfl⟩
    refine ⟨c.current, d, ⟨rfl, by rw [hp.value]; exact hp⟩, _, d, ⟨rfl, rfl⟩, ?_, rfl⟩
    rw [hp.value]

theorem identifier_gives {n : Node} {c d : Cursor} :
    identifier.Gives c n d ↔ ∃ x, c.Passes [⟨.identifier, x⟩] d ∧
      .identifier (d.spanFrom c.current.span) x = n := named_gives

theorem tagWord_gives {n : Node} {c d : Cursor} :
    tagWord.Gives c n d ↔ ∃ x, c.Passes [⟨.identifier, x⟩] d ∧
      .tagName (d.spanFrom c.current.span) x = n := named_gives

/-! ## Literals -/

theorem literal_gives {value : Value} {template : Bool} {n : Node} {c d : Cursor} :
    (literal value template).Gives c n d ↔
      c.advance = d ∧ .literal (d.spanFrom c.current.span) value c.current.value template = n := by
  simp only [literal, bind_gives, advance_gives, spanFrom_gives, pure_gives]
  constructor
  · rintro ⟨_, _, ⟨rfl, rfl⟩, _, _, ⟨rfl, rfl⟩, rfl, rfl⟩
    exact ⟨rfl, rfl⟩
  · rintro ⟨rfl, rfl⟩
    exact ⟨_, _, ⟨rfl, rfl⟩, _, _, ⟨rfl, rfl⟩, rfl, rfl⟩

theorem numeral_gives {n : Node} {c d : Cursor} :
    numeral.Gives c n d ↔ c.advance = d ∧ ∃ k, Numeral.value? c.current.value = some k ∧
      .literal (d.spanFrom c.current.span) (.number k) c.current.value false = n := by
  simp only [numeral, bind_gives, advance_gives, spanFrom_gives, pure_gives, numberOf]
  constructor
  · rintro ⟨_, _, ⟨rfl, rfl⟩, k, d', hk, _, _, ⟨rfl, rfl⟩, rfl, rfl⟩
    split at hk
    · rename_i hv
      obtain ⟨rfl, rfl⟩ := pure_gives.mp hk
      exact ⟨rfl, _, hv, rfl⟩
    · cases hk
  · rintro ⟨rfl, k, hk, rfl⟩
    refine ⟨_, _, ⟨rfl, rfl⟩, k, _, ?_, _, _, ⟨rfl, rfl⟩, rfl, rfl⟩
    rw [hk]
    exact pure_gives.mpr ⟨rfl, rfl⟩

/-! ## Names of tags -/

/-- One step of `tagName`, where `first` is the first word. -/
def tagStep (first name : Node) : Parser (Option Node) := do
  if ← accept .dot then
    let field ← tagWord
    let span ← spanFrom first.span
    return some (.tagMember span name field)
  else return none

theorem tagName_eq : tagName = tagWord >>= fun first => steps (tagStep first) first := rfl

theorem tagStep_none {first name : Node} {c d : Cursor} :
    (tagStep first name).Gives c none d ↔ c.current.kind ≠ .dot ∧ c = d := by
  simp only [tagStep, bind_gives, accept_gives]
  constructor
  · rintro ⟨b, c', ⟨rfl, hc, rfl⟩ | ⟨rfl, hc, rfl⟩, h⟩
    · simp [bind_gives, pure_gives] at h
    · simp only [Bool.false_eq_true, if_false, pure_gives] at h
      exact ⟨hc, h.2⟩
  · rintro ⟨hc, rfl⟩
    exact ⟨false, c, .inr ⟨rfl, hc, rfl⟩, by simp [pure_gives]⟩

theorem tagStep_some {first name n : Node} {c e : Cursor} :
    (tagStep first name).Gives c (some n) e ↔
      c.current.kind = .dot ∧ ∃ field, tagWord.Gives c.advance field e ∧
        .tagMember (e.spanFrom first.span) name field = n := by
  simp only [tagStep, bind_gives, accept_gives]
  constructor
  · rintro ⟨b, c', ⟨rfl, hc, rfl⟩ | ⟨rfl, hc, rfl⟩, h⟩
    · simp only [if_true, bind_gives, spanFrom_gives, pure_gives] at h
      obtain ⟨field, d, hf, s, d', ⟨rfl, rfl⟩, hn, rfl⟩ := h
      exact ⟨hc, field, hf, Option.some.inj hn⟩
    · simp [pure_gives] at h
  · rintro ⟨hc, field, hf, rfl⟩
    refine ⟨true, c.advance, .inl ⟨rfl, hc, rfl⟩, ?_⟩
    simp only [if_true, bind_gives, spanFrom_gives, pure_gives]
    exact ⟨field, e, hf, _, e, ⟨rfl, rfl⟩, rfl, rfl⟩

/-! ## Calls and members -/

/-- The tokens that begin a call or a member. -/
def suffixKinds : List TokenKind := [.leftParen, .dot, .leftBracket]

theorem suffix_none {inner : Inner} {owner : Node} {c d : Cursor} :
    (Rule.suffix inner owner).Gives c none d ↔ c.current.kind ∉ suffixKinds ∧ c = d := by
  simp only [Rule.suffix, bind_gives, peek_gives]
  constructor
  · rintro ⟨t, c', ⟨rfl, rfl⟩, h⟩
    split at h
    · simp [bind_gives, pure_gives] at h
    · simp [bind_gives, pure_gives] at h
    · simp [bind_gives, pure_gives] at h
    · rename_i h1 h2 h3
      refine ⟨?_, (pure_gives.mp h).2⟩
      simpa [suffixKinds] using ⟨h1, h2, h3⟩
  · rintro ⟨hc, rfl⟩
    refine ⟨c.current, c, ⟨rfl, rfl⟩, ?_⟩
    simp only [suffixKinds, List.mem_cons, not_or] at hc
    split
    · simp_all
    · simp_all
    · simp_all
    · exact pure_gives.mpr ⟨rfl, rfl⟩

/-- A step takes the arguments of a call, the name of a member or its place in brackets. -/
theorem suffix_some {inner : Inner} {owner n : Node} {c e : Cursor} :
    (Rule.suffix inner owner).Gives c (some n) e ↔
      (c.current.kind = .leftParen ∧ ∃ items, (Rule.arguments inner).Gives c.advance items e ∧
        .call (e.spanFrom owner.span) owner items = n) ∨
      (c.current.kind = .dot ∧ ∃ field, identifier.Gives c.advance field e ∧
        .member (e.spanFrom owner.span) owner field false = n) ∨
      (c.current.kind = .leftBracket ∧ ∃ field d t, inner.assignment.Gives c.advance field d ∧
        (expect .rightBracket).Gives d t e ∧
        .member (e.spanFrom owner.span) owner field true = n) := by
  simp only [Rule.suffix, bind_gives, peek_gives]
  constructor
  · rintro ⟨t, c', ⟨rfl, rfl⟩, h⟩
    split at h
    · rename_i hc
      simp only [bind_gives, advance_gives, spanFrom_gives, pure_gives] at h
      obtain ⟨t, d, ⟨rfl, rfl⟩, items, d', hi, s, d'', ⟨rfl, rfl⟩, hn, rfl⟩ := h
      exact .inl ⟨hc, items, hi, Option.some.inj hn⟩
    · rename_i hc
      simp only [bind_gives, advance_gives, spanFrom_gives, pure_gives] at h
      obtain ⟨t, d, ⟨rfl, rfl⟩, field, d', hi, s, d'', ⟨rfl, rfl⟩, hn, rfl⟩ := h
      exact .inr (.inl ⟨hc, field, hi, Option.some.inj hn⟩)
    · rename_i hc
      simp only [bind_gives, advance_gives, spanFrom_gives, pure_gives] at h
      obtain ⟨t, d, ⟨rfl, rfl⟩, field, d', hi, t', e', ht, s, d'', ⟨rfl, rfl⟩, hn, rfl⟩ := h
      exact .inr (.inr ⟨hc, field, d', t', hi, ht, Option.some.inj hn⟩)
    · simp [pure_gives] at h
  · intro h
    refine ⟨c.current, c, ⟨rfl, rfl⟩, ?_⟩
    rcases h with ⟨hc, items, hi, rfl⟩ | ⟨hc, field, hf, rfl⟩ | ⟨hc, field, d, t, hf, ht, rfl⟩
    · simp only [hc, bind_gives, advance_gives, spanFrom_gives, pure_gives]
      exact ⟨_, _, ⟨rfl, rfl⟩, items, e, hi, _, e, ⟨rfl, rfl⟩, rfl, rfl⟩
    · simp only [hc, bind_gives, advance_gives, spanFrom_gives, pure_gives]
      exact ⟨_, _, ⟨rfl, rfl⟩, field, e, hf, _, e, ⟨rfl, rfl⟩, rfl, rfl⟩
    · simp only [hc, bind_gives, advance_gives, spanFrom_gives, pure_gives]
      exact ⟨_, _, ⟨rfl, rfl⟩, field, d, hf, t, e, ht, _, e, ⟨rfl, rfl⟩, rfl, rfl⟩

/-! ## Rules with all their levels -/

theorem nested_gives {rule : Inner → Parser α} {a : α} {c d : Cursor} :
    (nested rule).Gives c a d ↔ (rule (inner c.budget)).Gives c a d := by
  rw [Gives, Gives, nested]

theorem expression_gives {n : Node} {c d : Cursor} :
    expression.Gives c n d ↔ (Rule.assignment (inner c.budget)).Gives c n d := by
  rw [expression, nested_gives]

theorem statement_gives {n : Node} {c d : Cursor} :
    statement.Gives c n d ↔ (Rule.statement (innerStatement c.budget)).Gives c n d := by
  rw [Gives, Gives, statement, nestedStatement]

end HanScript.Parser
