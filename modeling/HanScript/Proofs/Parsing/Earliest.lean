-- The parser reports an error at the earliest token that can be blamed: what
-- comes before that token begins some program, and what comes through it begins
-- none. Only a `<` is blamed for the token after it.
import HanScript.Proofs.Parsing.Exact
import HanScript.Proofs.Parsing.Viability.Statement

namespace HanScript

open Grammar

/-- The tokens that the parser sees: an end token comes after those that do not end with one. -/
def withEnd (tokens : List Token) : List Token :=
  match tokens.getLast? with
  | none => [Token.endOfNothing]
  | some t => if t.kind = .eof then tokens else tokens ++ [t.endAfter]

namespace Cursor

/-! ## Places in the list of tokens -/

theorem tokens_ofTokens (tokens : List Token) : (ofTokens tokens).tokens = withEnd tokens := by
  unfold ofTokens withEnd Cursor.tokens
  cases hl : tokens.getLast? with
  | none => rfl
  | some t =>
    obtain ⟨init, rfl⟩ := List.getLast?_eq_some_iff.mp hl
    by_cases h : t.kind = .eof
    · simp [h]
    · simp [h]

theorem getElem?_position (c : Cursor) : c.tokens[c.position]? = some c.current := by
  unfold tokens position current
  rw [List.append_assoc, List.getElem?_append_right (by simp)]
  cases c.ahead <;> simp

theorem take_position (c : Cursor) : c.tokens.take c.position = c.behind.reverse := by
  unfold tokens position
  rw [List.append_assoc, List.take_left' (by simp)]

theorem tokens_advance {c : Cursor} (h : c.current.kind ≠ .eof) : c.advance.tokens = c.tokens := by
  obtain ⟨hb, ha, hl⟩ := advance_of_ne_eof h
  unfold tokens
  rw [hb, ha, hl]
  simp

/-- Moving on changes nothing in the list, and what is left behind are the tokens between. -/
theorem Passes.tokens {c d : Cursor} {w : List Terminal} (h : c.Passes w d) :
    d.tokens = c.tokens ∧ ∃ ts : List Token, d.behind.reverse = c.behind.reverse ++ ts ∧
      ts.map Token.terminal = w ∧ ∀ t ∈ ts, t.kind ≠ .eof := by
  induction w generalizing c with
  | nil =>
    obtain rfl := passes_nil.mp h
    exact ⟨rfl, [], by simp, rfl, List.forall_mem_nil _⟩
  | cons t w ih =>
    obtain ⟨rfl, hk, hw⟩ := h
    obtain ⟨htokens, ts, hb, hts, hne⟩ := ih hw
    refine ⟨htokens.trans (tokens_advance hk), c.current :: ts, ?_, by simp [hts], ?_⟩
    · rw [hb, (advance_of_ne_eof hk).1]
      simp
    · exact List.forall_mem_cons.mpr ⟨hk, hne⟩

/-- The tokens between two cursors were ahead of the first. -/
theorem Passes.of_ahead {c d : Cursor} {w : List Terminal} (h : c.Passes w d) :
    ∀ t ∈ w, ∃ u ∈ c.ahead, u.terminal = t ∧ u.kind ≠ .eof := by
  obtain ⟨htokens, ts, hb, rfl, hne⟩ := h.tokens
  have hahead : ts ++ (d.ahead ++ [d.last]) = c.ahead ++ [c.last] := by
    simpa [Cursor.tokens, hb] using htokens
  intro t ht
  obtain ⟨u, hu, rfl⟩ := List.mem_map.mp ht
  have hmem : u ∈ c.ahead ++ [c.last] := hahead ▸ List.mem_append_left _ hu
  rcases List.mem_append.mp hmem with hin | hlast
  · exact ⟨u, hin, rfl, hne u hu⟩
  · obtain rfl := List.mem_singleton.mp hlast
    exact absurd c.closed (hne _ hu)

end Cursor

/-! ## The earliest token -/

/-- What the grammar derives is parsed, whatever the spans of the tokens are. -/
theorem parse_of_program {ts : List Token} {v : List Terminal} {n : Node}
    (h : Program (ts.map Token.terminal ++ v) n) (hts : ∀ t ∈ ts, t.kind ≠ .eof)
    (hv : ∀ t ∈ v, t.kind ≠ .eof) :
    ∃ more p, (∀ t ∈ ts ++ more, t.kind ≠ .eof) ∧ parse (ts ++ more) = .ok p := by
  have hmore : ∀ t ∈ ts ++ v.map fun t => (⟨t.kind, t.value, {}⟩ : Token), t.kind ≠ .eof := by
    intro t ht
    rcases List.mem_append.mp ht with ht | ht
    · exact hts t ht
    · obtain ⟨u, hu, rfl⟩ := List.mem_map.mp ht
      exact hv u hu
  have hsentence : Program (sentence (ts ++ v.map fun t => (⟨t.kind, t.value, {}⟩ : Token))) n := by
    rw [sentence_of_no_eof hmore, List.map_append, List.map_map]
    simpa [Function.comp_def, Token.terminal] using h
  obtain ⟨q, hq, -⟩ := parse_ok_iff_program.mpr hsentence
  exact ⟨_, q, hmore, hq⟩

/-- An error is about the token at its place. The tokens before that place begin a program, and no
list that begins with the tokens through that place forms one: all those lists have this error. If
the token at that place is a `<`, it is the token after it that decides. -/
theorem parse_error_is_earliest {tokens : List Token} {e : ParseError}
    (h : parse tokens = .error e) :
    ∃ k t, k = e.index (Parser.program (Cursor.ofTokens tokens)).2 ∧
      (withEnd tokens)[k]? = some t ∧ e.line = t.span.line ∧ e.column = t.span.column ∧
      (∃ more p, (∀ u ∈ (withEnd tokens).take k ++ more, u.kind ≠ .eof) ∧
        parse ((withEnd tokens).take k ++ more) = .ok p) ∧
      (t.kind ≠ .less → ∀ list, (withEnd tokens).take (k + 1) <+: list →
        parse list = .error e) := by
  have hrun : Parser.program.Fails (Cursor.ofTokens tokens) e
      (Parser.program (Cursor.ofTokens tokens)).2 :=
    ⟨Prod.ext h rfl, parse_ne_overrun tokens e h⟩
  obtain ⟨d, w, v, n, ⟨hline, hcolumn, hindex⟩, hw, hv, hn⟩ := Parser.program_viable hrun
  obtain ⟨htokens, ts, hbehind, rfl, hts⟩ := hw.tokens
  rw [Cursor.tokens_ofTokens] at htokens
  rw [Cursor.behind_ofTokens, List.reverse_nil, List.nil_append] at hbehind
  have htake : (withEnd tokens).take d.position = ts := by
    rw [← htokens, d.take_position, hbehind]
  have hcurrent : (withEnd tokens)[d.position]? = some d.current := by
    rw [← htokens, d.getElem?_position]
  refine ⟨d.position, d.current, hindex.symm, hcurrent, hline, hcolumn, ?_, ?_⟩
  · rw [htake]
    exact parse_of_program hn hts hv
  · intro hless list hlist
    have hthrough : (withEnd tokens).take (d.position + 1) = ts ++ [d.current] := by
      rw [List.take_add_one, htake, hcurrent]
      rfl
    have hlength : e.index (Parser.program (Cursor.ofTokens tokens)).2 = ts.length := by
      rw [hindex, ← hbehind, List.length_reverse]
      rfl
    rw [hthrough] at hlist
    refine parse_error_of_shared h hlength hless ?_ hlist
    rw [← hthrough, ← Cursor.tokens_ofTokens]
    unfold Cursor.tokens
    rw [Cursor.behind_ofTokens]
    exact List.take_prefix _ _

/-- The tokens of a call inside a block, with an argument that is no number. -/
def badArgument : List Token :=
  [⟨.ifWord, "if", ⟨1, 1, 0, 2⟩⟩, ⟨.leftParen, "(", ⟨1, 4, 3, 4⟩⟩, ⟨.identifier, "a", ⟨1, 5, 4, 5⟩⟩,
   ⟨.rightParen, ")", ⟨1, 6, 5, 6⟩⟩, ⟨.leftBrace, "\x7b", ⟨1, 8, 7, 8⟩⟩,
   ⟨.identifier, "f", ⟨2, 3, 11, 12⟩⟩, ⟨.leftParen, "(", ⟨2, 4, 12, 13⟩⟩,
   ⟨.number, "1.2.3", ⟨2, 5, 13, 18⟩⟩, ⟨.rightParen, ")", ⟨2, 10, 18, 19⟩⟩]

/-- The error is about the numeral, which has been taken by then, and not about the block that is
left open. -/
theorem badArgument_error_is_earliest :
    parse badArgument = .error ⟨2, 5, .badNumeral "1.2.3"⟩ ∧
      (∃ more p, parse (badArgument.take 7 ++ more) = .ok p) ∧
      ∀ list, badArgument.take 8 <+: list →
        parse list = .error ⟨2, 5, .badNumeral "1.2.3"⟩ := by
  have herror : parse badArgument = .error ⟨2, 5, .badNumeral "1.2.3"⟩ := rfl
  obtain ⟨k, t, hk, ht, -, -, ⟨more, p, -, hp⟩, hlist⟩ := parse_error_is_earliest herror
  obtain rfl : k = 7 := hk
  obtain rfl : ⟨.number, "1.2.3", ⟨2, 5, 13, 18⟩⟩ = t := Option.some.inj ht
  exact ⟨herror, ⟨more, p, hp⟩, hlist (by decide)⟩

/-- A `<` that a number comes after cannot stand where an expression begins, but one that opens
markup can. -/
example : (parse [⟨.less, "<", {}⟩, ⟨.number, "1", {}⟩]).isOk = false ∧
    (parse [⟨.less, "<", {}⟩, ⟨.identifier, "a", {}⟩, ⟨.selfClose, "/>", {}⟩]).isOk = true :=
  ⟨rfl, rfl⟩

end HanScript
