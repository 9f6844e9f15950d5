-- The parser accepts exactly what the grammar derives: the tokens before the
-- first end token form a program if and only if the parser gives one, and then
-- there is one program that they form and it is the one that the parser gives.
import HanScript.Proofs.Parsing.Completeness.Statement
import HanScript.Proofs.Parsing.Soundness.Statement

namespace HanScript

open Grammar

/-- What the grammar sees of some tokens: those before the first end token. -/
def sentence (tokens : List Token) : List Terminal :=
  (tokens.takeWhile (·.kind ≠ .eof)).map Token.terminal

theorem sentence_cons {t : Token} {ts : List Token} (h : t.kind ≠ .eof) :
    sentence (t :: ts) = t.terminal :: sentence ts := by
  simp [sentence, h]

theorem sentence_cons_eof {t : Token} {ts : List Token} (h : t.kind = .eof) :
    sentence (t :: ts) = [] := by
  simp [sentence, h]

theorem sentence_of_no_eof {tokens : List Token} (h : ∀ t ∈ tokens, t.kind ≠ .eof) :
    sentence tokens = tokens.map Token.terminal := by
  induction tokens with
  | nil => rfl
  | cons t tokens ih =>
    rw [List.forall_mem_cons] at h
    rw [sentence_cons h.1, ih h.2, List.map_cons]

/-- An end token after some tokens changes nothing, and nor does what comes after it. -/
theorem sentence_append_end {tokens : List Token} {t : Token} (h : t.kind = .eof)
    (junk : List Token) : sentence (tokens ++ t :: junk) = sentence tokens := by
  induction tokens with
  | nil => exact sentence_cons_eof h
  | cons u tokens ih =>
    rw [List.cons_append]
    by_cases hu : u.kind = .eof
    · rw [sentence_cons_eof hu, sentence_cons_eof hu]
    · rw [sentence_cons hu, sentence_cons hu, ih]

namespace Cursor

/-! ## The way to the end -/

theorem upcoming_of_eof {c : Cursor} (h : c.current.kind = .eof) : sentence c.ahead = [] := by
  unfold current at h
  cases hc : c.ahead with
  | nil => rfl
  | cons t ts =>
    rw [hc] at h
    exact sentence_cons_eof h

theorem upcoming_of_ne_eof {c : Cursor} (h : c.current.kind ≠ .eof) :
    sentence c.ahead = c.current.terminal :: sentence c.advance.ahead := by
  rw [(advance_of_ne_eof h).2.1, sentence_cons h]

/-- The tokens up to the end are those ahead before the first end token. -/
theorem Passes.eq_sentence {c d : Cursor} {w : List Terminal} (h : c.Passes w d)
    (hd : d.current.kind = .eof) : w = sentence c.ahead := by
  induction w generalizing c with
  | nil =>
    obtain rfl := passes_nil.mp h
    exact (upcoming_of_eof hd).symm
  | cons t w ih =>
    obtain ⟨rfl, hk, hw⟩ := h
    rw [upcoming_of_ne_eof hk, ih hw]

/-- From everywhere there is a way to the end. -/
theorem passes_to_end (c : Cursor) :
    ∃ d, c.Passes (sentence c.ahead) d ∧ d.current.kind = .eof := by
  by_cases h : c.current.kind = .eof
  · exact ⟨c, by rw [upcoming_of_eof h]; rfl, h⟩
  · obtain ⟨d, hp, hd⟩ := passes_to_end c.advance
    exact ⟨d, by rw [upcoming_of_ne_eof h]; exact ⟨rfl, h, hp⟩, hd⟩
termination_by c.left
decreasing_by
  have := left_advance h
  omega

theorem sentence_ofTokens (tokens : List Token) :
    sentence (ofTokens tokens).ahead = sentence tokens := by
  unfold ofTokens
  cases hl : tokens.getLast? with
  | none => simp [List.getLast?_eq_none_iff.mp hl]
  | some t =>
    obtain ⟨init, rfl⟩ := List.getLast?_eq_some_iff.mp hl
    by_cases h : t.kind = .eof
    · simp [h, sentence_append_end h]
    · simp [h]

end Cursor

/-! ## Programs -/

/-- The parser gives a program exactly if the tokens before the first end token form it. -/
theorem parse_ok_iff_program {tokens : List Token} {n : Node} :
    (∃ q, parse tokens = .ok q ∧ q.bare = n) ↔ Program (sentence tokens) n := by
  rw [← Cursor.sentence_ofTokens]
  constructor
  · rintro ⟨q, hq, rfl⟩
    have hrun : Parser.program.Gives (Cursor.ofTokens tokens) q
        (Parser.program (Cursor.ofTokens tokens)).2 := Prod.ext hq rfl
    obtain ⟨he, w, hp, hw⟩ := Parser.program_reads hrun
    rw [← hp.eq_sentence he]
    exact hw
  · intro h
    obtain ⟨d, hp, hd⟩ := Cursor.passes_to_end (Cursor.ofTokens tokens)
    obtain ⟨q, hq, rfl⟩ := Parser.program_finds h hp hd
    exact ⟨q, congrArg Prod.fst hq, rfl⟩

/-- Tokens form one program at most. -/
theorem Grammar.Program.unique {tokens : List Token} {p p' : Node} (h : Program (sentence tokens) p)
    (h' : Program (sentence tokens) p') : p = p' := by
  obtain ⟨q, hq, rfl⟩ := parse_ok_iff_program.mpr h
  obtain ⟨q', hq', rfl⟩ := parse_ok_iff_program.mpr h'
  rw [hq] at hq'
  cases hq'
  rfl

/-- The parser fails exactly if the tokens form no program. -/
theorem parse_error_iff {tokens : List Token} :
    (∃ e, parse tokens = .error e) ↔ ∀ p, ¬ Program (sentence tokens) p := by
  constructor
  · rintro ⟨e, he⟩ p hp
    obtain ⟨q, hq, -⟩ := parse_ok_iff_program.mpr hp
    rw [hq] at he
    cases he
  · intro h
    cases hp : parse tokens with
    | error e => exact ⟨e, rfl⟩
    | ok q => exact absurd (parse_ok_iff_program.mp ⟨q, hp, rfl⟩) (h _)

/-- For tokens without an end token: the parser gives a program exactly if they form it, and fails
exactly if they form none; and they form no two. Trees are compared without their spans, and also
with the values of their literals taken for what they amount to. -/
theorem parse_accepts_exactly_grammar (tokens : List Token) (h : ∀ t ∈ tokens, t.kind ≠ .eof) :
    (∀ p : Node, (∃ q, parse tokens = .ok q ∧ q.bare = p.bare) ↔
      Program (tokens.map Token.terminal) p.bare) ∧
    (∀ p : Node, (∃ q, parse tokens = .ok q ∧ q.same p = true) ↔
      ∃ p', Program (tokens.map Token.terminal) p' ∧ p'.same p = true) ∧
    ((∃ e, parse tokens = .error e ∧ e.misfit ≠ .overrun) ↔
      ∀ p, ¬ Program (tokens.map Token.terminal) p) ∧
    (∀ p p', Program (tokens.map Token.terminal) p → Program (tokens.map Token.terminal) p' →
      p = p') := by
  rw [← sentence_of_no_eof h]
  refine ⟨fun p => parse_ok_iff_program, fun p => ?_, ?_, fun p p' => Program.unique⟩
  · constructor
    · rintro ⟨q, hq, hsame⟩
      exact ⟨q.bare, parse_ok_iff_program.mp ⟨q, hq, rfl⟩, by rw [Node.same_bare, hsame]⟩
    · rintro ⟨p', hp', hsame⟩
      obtain ⟨q, hq, rfl⟩ := parse_ok_iff_program.mpr hp'
      exact ⟨q, hq, by rw [← Node.same_bare, hsame]⟩
  · rw [← parse_error_iff]
    exact ⟨fun ⟨e, he, _⟩ => ⟨e, he⟩, fun ⟨e, he⟩ => ⟨e, he, parse_ne_overrun tokens e he⟩⟩

/-- The tokens of an `if` inside an `if`, with one `else` after both of them. -/
def nestedIf : List Token :=
  [⟨.ifWord, "if", {}⟩, ⟨.leftParen, "(", {}⟩, ⟨.identifier, "a", {}⟩, ⟨.rightParen, ")", {}⟩,
   ⟨.ifWord, "if", {}⟩, ⟨.leftParen, "(", {}⟩, ⟨.identifier, "b", {}⟩, ⟨.rightParen, ")", {}⟩,
   ⟨.breakWord, "break", {}⟩, ⟨.semicolon, ";", {}⟩, ⟨.elseWord, "else", {}⟩,
   ⟨.continueWord, "continue", {}⟩]

/-- The `else` belongs to the second `if`, and there is no other way to read it. -/
theorem nestedIf_forms_one_program :
    (∀ t ∈ nestedIf, t.kind ≠ .eof) ∧
      ∀ p, Program (nestedIf.map Token.terminal) p ↔
        p = .program {} [.ifElse {} (.identifier {} "a")
          (.ifElse {} (.identifier {} "b") (.breaking {}) (.continuing {})) .absent] := by
  have hno : ∀ t ∈ nestedIf, t.kind ≠ .eof := by decide
  obtain ⟨hok, -, -, hunique⟩ := parse_accepts_exactly_grammar nestedIf hno
  have hp := (hok (.program {} [.ifElse {} (.identifier {} "a")
    (.ifElse {} (.identifier {} "b") (.breaking {}) (.continuing {})) .absent])).mp ⟨_, rfl, rfl⟩
  exact ⟨hno, fun p => ⟨fun h => hunique _ _ h hp, fun h => h ▸ hp⟩⟩

end HanScript
