-- Keywords that mean the same are parsed alike: an `else if` in one word or in
-- two, and a component or a function.
import HanScript.Proofs.Grammar.Synonyms

namespace HanScript

open Grammar

/-- Every `else if` of the first list is an `else` and an `if` in the second one, and every component
is a function. The other tokens are the same; where tokens stand is left open, and so is how the
words for others are written. -/
inductive SpelledOut : List Token → List Token → Prop where
  | nil : SpelledOut [] []
  | elseIf {t e i ts us} : t.kind = .elseIfWord → e.kind = .elseWord → i.kind = .ifWord →
    SpelledOut ts us → SpelledOut (t :: ts) (e :: i :: us)
  | component {t f ts us} : t.kind = .componentWord → f.kind = .functionWord →
    SpelledOut ts us → SpelledOut (t :: ts) (f :: us)
  | other {t u ts us} : t.kind ≠ .elseIfWord → t.kind ≠ .componentWord → u.terminal = t.terminal →
    SpelledOut ts us → SpelledOut (t :: ts) (u :: us)

/-- The tokens with those words spelled out. -/
def spellOut (tokens : List Token) : List Token :=
  tokens.flatMap fun t =>
    if t.kind = .elseIfWord then [⟨.elseWord, "否则", t.span⟩, ⟨.ifWord, "如果", t.span⟩]
    else if t.kind = .componentWord then [⟨.functionWord, "函数", t.span⟩]
    else [t]

theorem spelledOut_spellOut (tokens : List Token) : SpelledOut tokens (spellOut tokens) := by
  induction tokens with
  | nil => exact .nil
  | cons t ts ih =>
    unfold spellOut at ih ⊢
    rw [List.flatMap_cons]
    by_cases he : t.kind = .elseIfWord
    · rw [if_pos he]
      exact .elseIf he rfl rfl ih
    · by_cases hc : t.kind = .componentWord
      · rw [if_neg he, if_pos hc]
        exact .component hc rfl ih
      · rw [if_neg he, if_neg hc]
        exact .other he hc rfl ih

theorem SpelledOut.synonymous {ts us : List Token} (h : SpelledOut ts us) :
    Synonymous (sentence ts) (sentence us) := by
  induction h with
  | nil => exact .nil
  | elseIf ht he hi _ ih =>
    rw [sentence_cons (by simp [ht]), sentence_cons (by simp [he]), sentence_cons (by simp [hi]),
      Token.terminal_of_kind ht, Token.terminal_of_kind he, Token.terminal_of_kind hi]
    exact .apart ih
  | component ht hf _ ih =>
    rw [sentence_cons (by simp [ht]), sentence_cons (by simp [hf]), Token.terminal_of_kind ht,
      Token.terminal_of_kind hf]
    exact .function (by decide) (by decide) ih
  | @other t u _ _ _ _ hu _ ih =>
    have hkind : u.kind = t.kind := congrArg Terminal.kind hu
    by_cases he : t.kind = .eof
    · rw [sentence_cons_eof he, sentence_cons_eof (hkind.trans he)]
      exact .nil
    · rw [sentence_cons he, sentence_cons (hkind ▸ he), hu]
      exact .same ih

/-- What tokens form does not depend on which of the words is used. -/
theorem program_of_synonymous {ts us : List Token} (h : Synonymous (sentence ts) (sentence us))
    {p : Node} (hp : parse ts = .ok p) : ∃ q, parse us = .ok q ∧ q.bare = p.bare :=
  parse_ok_iff_program.mpr ((parse_ok_iff_program.mp ⟨p, hp, rfl⟩).synonymous h)

/-- Keywords that mean the same are parsed alike. If in a list of tokens every `else if` in one word
is spelled out in two and every component is called a function, then both lists are parsed or both
fail, and the two programs are the same. -/
theorem synonyms_parse_alike {ts us : List Token} (h : SpelledOut ts us) :
    ((∃ p, parse ts = .ok p) ↔ ∃ q, parse us = .ok q) ∧
      ∀ p q, parse ts = .ok p → parse us = .ok q → p.bare = q.bare ∧ p.same q = true := by
  have hs := h.synonymous
  refine ⟨⟨fun ⟨p, hp⟩ => ?_, fun ⟨q, hq⟩ => ?_⟩, fun p q hp hq => ?_⟩
  · obtain ⟨q, hq, -⟩ := program_of_synonymous hs hp
    exact ⟨q, hq⟩
  · obtain ⟨p, hp, -⟩ := program_of_synonymous hs.symm hq
    exact ⟨p, hp⟩
  · obtain ⟨q', hq', hbare⟩ := program_of_synonymous hs hp
    obtain rfl : q = q' := Except.ok.inj (hq.symm.trans hq')
    exact ⟨hbare.symm, Node.same_of_bare hbare.symm⟩

/-- The tokens of a component with an `else if` after an `if`, and with another one between tags. -/
def greeter : List Token :=
  [⟨.componentWord, "组件", {}⟩, ⟨.identifier, "f", {}⟩, ⟨.leftParen, "(", {}⟩, ⟨.rightParen, ")", {}⟩,
   ⟨.leftBrace, "\x7b", {}⟩, ⟨.ifWord, "如果", {}⟩, ⟨.leftParen, "(", {}⟩, ⟨.identifier, "a", {}⟩,
   ⟨.rightParen, ")", {}⟩, ⟨.less, "<", {}⟩, ⟨.greater, ">", {}⟩, ⟨.elseIfWord, "否则如果", {}⟩,
   ⟨.closeTag, "</", {}⟩, ⟨.greater, ">", {}⟩, ⟨.semicolon, ";", {}⟩, ⟨.elseIfWord, "否则如果", {}⟩,
   ⟨.leftParen, "(", {}⟩, ⟨.identifier, "b", {}⟩, ⟨.rightParen, ")", {}⟩, ⟨.breakWord, "破", {}⟩,
   ⟨.rightBrace, "\x7d", {}⟩]

theorem greeter_parses_alike :
    SpelledOut greeter (spellOut greeter) ∧
      ∃ p q, parse greeter = .ok p ∧ parse (spellOut greeter) = .ok q ∧ p.bare = q.bare := by
  have hspelled := spelledOut_spellOut greeter
  obtain ⟨p, hp⟩ : ∃ p, parse greeter = .ok p := ⟨_, rfl⟩
  obtain ⟨hiff, hsame⟩ := synonyms_parse_alike hspelled
  obtain ⟨q, hq⟩ := hiff.mp ⟨p, hp⟩
  exact ⟨hspelled, p, q, hp, hq, (hsame p q hp hq).1⟩

end HanScript
