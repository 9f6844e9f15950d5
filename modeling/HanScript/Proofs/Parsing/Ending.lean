-- Nothing after the first end token matters. No rule reads past it, so that the
-- parser takes the same way whether the end token is there or added, and
-- whatever comes after it.
import HanScript.Proofs.Parsing.Abreast

namespace HanScript

/-! ## Lists with the same tokens before the end -/

section

variable {ts ts' : List Token} (h : sentence ts = sentence ts')

include h

theorem Cursor.abreast_of_sentence : (ofTokens ts).Abreast (ofTokens ts') := by
  refine ⟨?_, ?_⟩
  · unfold position
    rw [behind_ofTokens, behind_ofTokens]
  · rw [sentence_ofTokens, sentence_ofTokens, h]

theorem bare_of_sentence {p p' : Node} (hp : parse ts = .ok p) (hp' : parse ts' = .ok p') :
    p.bare = p'.bare := by
  have hprogram := parse_ok_iff_program.mp ⟨p, hp, rfl⟩
  have hprogram' := parse_ok_iff_program.mp ⟨p', hp', rfl⟩
  rw [h] at hprogram
  exact hprogram.unique hprogram'

/-- The runs over the two lists come out the same way. They do not run out of steps, so there is no
need to count that as a way. -/
theorem runs_of_sentence :
    (∃ p p', parse ts = .ok p ∧ parse ts' = .ok p') ∨
    ∃ e e', parse ts = .error e ∧ parse ts' = .error e' ∧
      (Parser.program (Cursor.ofTokens ts)).2.Abreast (Parser.program (Cursor.ofTokens ts')).2 ∧
      (e.misfit = e'.misfit ∨
        e.misfit = .unexpected (Parser.program (Cursor.ofTokens ts)).2.current.text ∧
        e'.misfit = .unexpected (Parser.program (Cursor.ofTokens ts')).2.current.text) := by
  have htally := (Parser.inStep_program (Cursor.abreast_of_sentence h)).2
  have hover := parse_ne_overrun ts
  have hover' := parse_ne_overrun ts'
  unfold parse at hover hover' ⊢
  generalize Parser.program (Cursor.ofTokens ts) = r at *
  generalize Parser.program (Cursor.ofTokens ts') = r' at *
  cases htally with
  | ok _ _ => exact .inl ⟨_, _, rfl, rfl⟩
  | error he hc => exact .inr ⟨_, _, rfl, rfl, hc, .inl he⟩
  | atEnd _ he he' hc => exact .inr ⟨_, _, rfl, rfl, hc, .inr ⟨he, he'⟩⟩
  | firstOverrun he => exact absurd he (hover _ rfl)
  | secondOverrun he => exact absurd he (hover' _ rfl)

end

/-! ## End tokens -/

/-- The lists are both parsed, to programs that are the same; or on both the parser fails with the
cursor in the same place, and wants and finds the same kinds of tokens there. -/
def ParsedAlike (ts ts' : List Token) : Prop :=
  (∃ p p', parse ts = .ok p ∧ parse ts' = .ok p' ∧ p.same p' = true) ∨
  ∃ e e', parse ts = .error e ∧ parse ts' = .error e' ∧
    e.misfit.wanted? = e'.misfit.wanted? ∧ e.misfit.found? = e'.misfit.found? ∧
    (Parser.program (Cursor.ofTokens ts)).2.position =
      (Parser.program (Cursor.ofTokens ts')).2.position

theorem parsedAlike_of_sentence {ts ts' : List Token} (h : sentence ts = sentence ts') :
    ParsedAlike ts ts' := by
  rcases runs_of_sentence h with ⟨p, p', hp, hp'⟩ | ⟨e, e', he, he', hc, hmisfit⟩
  · exact .inl ⟨p, p', hp, hp', Node.same_of_bare (bare_of_sentence h hp hp')⟩
  · right
    refine ⟨e, e', he, he', ?_, ?_, hc.position⟩
    -- An end token that nothing begins with is named by its value, but no kind is wanted or found.
    · rcases hmisfit with hm | ⟨hm, hm'⟩
      · rw [hm]
      · rw [hm, hm']
        rfl
    · rcases hmisfit with hm | ⟨hm, hm'⟩
      · rw [hm]
      · rw [hm, hm']
        rfl

/-- Tokens are parsed alike on their own, with an end token after them, and with an end token and
anything else after them. -/
theorem nothing_after_the_end_matters (ts : List Token) {e e' : Token} (he : e.kind = .eof)
    (he' : e'.kind = .eof) (junk : List Token) :
    ParsedAlike ts (ts ++ [e]) ∧ ParsedAlike ts (ts ++ [e'] ++ junk) ∧
      ParsedAlike (ts ++ [e]) (ts ++ [e'] ++ junk) := by
  have hend : sentence (ts ++ [e]) = sentence ts := sentence_append_end he []
  have hjunk : sentence (ts ++ [e'] ++ junk) = sentence ts := by
    rw [List.append_assoc, List.singleton_append, sentence_append_end he']
  refine ⟨?_, ?_, ?_⟩
  · exact parsedAlike_of_sentence hend.symm
  · exact parsedAlike_of_sentence hjunk.symm
  · exact parsedAlike_of_sentence (hend.trans hjunk.symm)

/-- A member without its name, and an end token with what would be the name after it. -/
def unfinishedMember : List Token := [⟨.identifier, "a", {}⟩, ⟨.dot, ".", {}⟩]

def namedTooLate : List Token :=
  unfinishedMember ++ [⟨.eof, "end", {}⟩] ++ [⟨.identifier, "b", {}⟩, ⟨.semicolon, ";", {}⟩]

theorem unfinishedMember_ends :
    (∃ x, parse unfinishedMember = .error x ∧ x.misfit = .expected .identifier .eof) ∧
      ParsedAlike unfinishedMember (unfinishedMember ++ [⟨.eof, "", {}⟩]) ∧
      ParsedAlike unfinishedMember namedTooLate ∧
      ParsedAlike (unfinishedMember ++ [⟨.eof, "", {}⟩]) namedTooLate :=
  ⟨⟨_, rfl, rfl⟩, nothing_after_the_end_matters unfinishedMember rfl rfl _⟩

end HanScript
