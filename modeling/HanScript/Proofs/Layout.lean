-- Where the tokens stand makes no difference to what is made of them. Lists of
-- tokens that differ in nothing else give the same program and the same text,
-- or fail over the same token for the same reason.
import HanScript.Proofs.Conformance.Rendered
import HanScript.Proofs.Parsing.Earliest
import HanScript.Proofs.Parsing.Ending
import HanScript.Proofs.Printing.Rebuilt

namespace HanScript

/-! ## Tokens that differ in their spans -/

theorem sentence_eq_takeWhile (tokens : List Token) :
    sentence tokens = (tokens.map Token.terminal).takeWhile (·.kind ≠ .eof) := by
  unfold sentence
  rw [List.takeWhile_map]
  rfl

section

variable {ts ts' : List Token} (h : ts.map Token.terminal = ts'.map Token.terminal)

include h

theorem sentence_congr : sentence ts = sentence ts' := by
  rw [sentence_eq_takeWhile, sentence_eq_takeWhile, h]

/-- An end token that is added has no value, so it is the same too. -/
theorem terminals_withEnd :
    (withEnd ts).map Token.terminal = (withEnd ts').map Token.terminal := by
  have hlast : (ts.getLast?).map Token.terminal = (ts'.getLast?).map Token.terminal := by
    rw [← List.getLast?_map, ← List.getLast?_map, h]
  unfold withEnd
  cases ht : ts.getLast? with
  | none =>
    rw [ht] at hlast
    rw [Option.map_eq_none_iff.mp hlast.symm]
  | some t =>
    rw [ht] at hlast
    obtain ⟨t', ht', hterminal⟩ := Option.map_eq_some_iff.mp hlast.symm
    have hkind : t'.kind = t.kind := congrArg Terminal.kind hterminal
    rw [ht']
    simp only [hkind]
    split
    · exact h
    · rw [List.map_append, List.map_append, h]
      rfl

/-- Wherever two parsers have got to, equally far they are at the same token. -/
theorem Cursor.terminal_of_position {d d' : Cursor} (hd : (ofTokens ts).Precedes d)
    (hd' : (ofTokens ts').Precedes d') (hp : d.position = d'.position) :
    d.current.terminal = d'.current.terminal := by
  obtain ⟨w, hw⟩ := hd
  obtain ⟨w', hw'⟩ := hd'
  have hcurrent := congrArg (Option.map Token.terminal) d.getElem?_position
  have hcurrent' := congrArg (Option.map Token.terminal) d'.getElem?_position
  rw [← List.getElem?_map, hw.tokens.1, tokens_ofTokens, terminals_withEnd h] at hcurrent
  rw [← List.getElem?_map, hw'.tokens.1, tokens_ofTokens, ← hp, hcurrent] at hcurrent'
  exact Option.some.inj hcurrent'

/-! ## Programs and their texts -/

/-- Programs of the same tokens are the same but for their spans, and so are their texts. -/
theorem programs_agree {p p' : Node} (hp : parse ts = .ok p) (hp' : parse ts' = .ok p') :
    p.bare = p'.bare ∧ ∃ text, render p = .ok text ∧ render p' = .ok text := by
  have hbare := bare_of_sentence (sentence_congr h) hp hp'
  obtain ⟨text, htext⟩ : Succeeds (render p) := rendered_of_conforms (conforms_of_parse hp)
  refine ⟨hbare, text, htext, ?_⟩
  rw [← render_bare (conforms_of_parse hp'), ← hbare, render_bare (conforms_of_parse hp), htext]

/-- Both lists are parsed, or both fail for the same reason with the cursor in the same place. -/
theorem parses_agree :
    (∃ p p', parse ts = .ok p ∧ parse ts' = .ok p') ∨
    ∃ e e', parse ts = .error e ∧ parse ts' = .error e' ∧ e.misfit = e'.misfit ∧
      (Parser.program (Cursor.ofTokens ts)).2.position =
        (Parser.program (Cursor.ofTokens ts')).2.position := by
  rcases runs_of_sentence (sentence_congr h) with hok | ⟨e, e', he, he', hc, hmisfit⟩
  · exact .inl hok
  · refine .inr ⟨e, e', he, he', ?_, hc.position⟩
    rcases hmisfit with hmisfit | ⟨hm, hm'⟩
    · exact hmisfit
    · have hd := Parser.inStep_program.precedes (Cursor.ofTokens ts)
      have hd' := Parser.inStep_program.precedes (Cursor.ofTokens ts')
      have hterminal := Cursor.terminal_of_position h hd hd' hc.position
      rw [hm, hm', Token.text_of_terminal hterminal]

end

/-- For lists of tokens of the same kinds and values, whatever their spans are: both are parsed, to
programs that are the same, and these have one text; or both fail, with the cursor in the same place
and with the same misfit, so that the messages differ in the line and the column at most. For two
source texts with such tokens, compiling gives one text, or it fails on both. -/
theorem layout_makes_no_difference :
    (∀ ts ts' : List Token, ts.map Token.terminal = ts'.map Token.terminal →
      (∃ p p' text, parse ts = .ok p ∧ parse ts' = .ok p' ∧ p.bare = p'.bare ∧ p.same p' = true ∧
        render p = .ok text ∧ render p' = .ok text) ∨
      ∃ e e', parse ts = .error e ∧ parse ts' = .error e' ∧ e.misfit = e'.misfit ∧
        (Parser.program (Cursor.ofTokens ts)).2.position =
          (Parser.program (Cursor.ofTokens ts')).2.position) ∧
    ∀ source source',
      (tokenize source).map Token.terminal = (tokenize source').map Token.terminal →
      (∃ text, compile source = .ok text ∧ compile source' = .ok text) ∨
      ∃ e e', compile source = .error (.parse e) ∧ compile source' = .error (.parse e') ∧
        e.misfit = e'.misfit := by
  refine ⟨fun ts ts' h => ?_, fun source source' h => ?_⟩
  · rcases parses_agree h with ⟨p, p', hp, hp'⟩ | hfail
    · obtain ⟨hbare, text, htext, htext'⟩ := programs_agree h hp hp'
      exact .inl ⟨p, p', text, hp, hp', hbare, Node.same_of_bare hbare, htext, htext'⟩
    · exact .inr hfail
  · rcases parses_agree h with ⟨p, p', hp, hp'⟩ | ⟨e, e', he, he', hmisfit, -⟩
    · obtain ⟨-, text, htext, htext'⟩ := programs_agree h hp hp'
      exact .inl ⟨text, compile_of_parse hp htext, compile_of_parse hp' htext'⟩
    · exact .inr ⟨e, e', compile_of_parse_error he, compile_of_parse_error he', hmisfit⟩

/-- The tokens of an index that is not closed, on one line and over two lines. -/
def openIndex (line column : Int) : List Token :=
  [⟨.identifier, "a", ⟨1, 1, 0, 1⟩⟩, ⟨.leftBracket, "[", ⟨1, 2, 1, 2⟩⟩,
   ⟨.number, "0", ⟨line, column, 2, 3⟩⟩, ⟨.semicolon, ";", ⟨line, column + 1, 3, 4⟩⟩]

/-- The bracket is missed before the semicolon, wherever that is. And a comment and a line break
change nothing in a text. -/
theorem openIndex_layout :
    ((openIndex 1 3).map Token.terminal = (openIndex 2 5).map Token.terminal ∧
      ∃ e e', parse (openIndex 1 3) = .error e ∧ parse (openIndex 2 5) = .error e' ∧ e ≠ e' ∧
        e.misfit = e'.misfit) ∧
    (tokenize "a=b").map Token.terminal = (tokenize "a =//c\n b").map Token.terminal ∧
      ∃ text, compile "a=b" = .ok text ∧ compile "a =//c\n b" = .ok text := by
  obtain ⟨htokens, hsources⟩ := layout_makes_no_difference
  have hsame : (tokenize "a=b").map Token.terminal = (tokenize "a =//c\n b").map Token.terminal := by
    decide +kernel
  refine ⟨⟨rfl, ?_⟩, hsame, ?_⟩
  · rcases htokens (openIndex 1 3) (openIndex 2 5) rfl with ⟨_, _, _, hp, -⟩ | ⟨e, e', he, he', hm, -⟩
    · cases hp
    · refine ⟨e, e', he, he', ?_, hm⟩
      cases he
      cases he'
      decide
  · rcases hsources "a=b" "a =//c\n b" hsame with htext | ⟨_, _, he, -⟩
    · exact htext
    · cases he

end HanScript
