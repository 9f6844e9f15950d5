-- The tokens of a text without their spans, read from the text alone. They are
-- what the scanner collects, and each lexeme is read off before the rest.
import HanScript.Proofs.Grammar.Lists
import HanScript.Scanner.Progress

namespace HanScript

def Lexeme.terminal (l : Lexeme) : Terminal := ⟨l.kind, l.value⟩

/-- What the scanner makes of a text, without the end token. -/
def terminals (cs : List Char) : List Terminal :=
  match _hg : Lexeme.gap? cs with
  | some n => terminals (cs.drop n)
  | none =>
    if _hc : cs = [] then []
    else (Lexeme.next cs).terminal :: terminals (cs.drop (Lexeme.next cs).length)
termination_by cs.length
decreasing_by
  · have := Lexeme.gap?_pos _hg
    have := Lexeme.gap?_le _hg
    rw [List.length_drop]
    omega
  · have := Lexeme.next_pos _hc
    have := List.length_pos_iff.mpr _hc
    rw [List.length_drop]
    omega

@[simp] theorem terminals_nil : terminals [] = [] := by
  rw [terminals]
  rfl

theorem terminals_of_gap {cs : List Char} {n : Nat} (h : Lexeme.gap? cs = some n) :
    terminals cs = terminals (cs.drop n) := by
  rw [terminals]
  split
  · rename_i m hm
    rw [h] at hm
    cases hm
    rfl
  · rename_i hm
    rw [h] at hm
    cases hm

theorem terminals_of_next {cs : List Char} (hc : cs ≠ []) (h : Lexeme.gap? cs = none) :
    terminals cs = (Lexeme.next cs).terminal :: terminals (cs.drop (Lexeme.next cs).length) := by
  rw [terminals]
  split
  · rename_i m hm
    rw [h] at hm
    cases hm
  · rw [dif_neg hc]

/-- A lexeme is read off if it takes up the characters before the rest. -/
theorem terminals_append {cs r : List Char} {l : Lexeme} (hc : cs ≠ [])
    (hg : Lexeme.gap? (cs ++ r) = none) (hn : Lexeme.next (cs ++ r) = l)
    (hl : l.length = cs.length) : terminals (cs ++ r) = l.terminal :: terminals r := by
  rw [terminals_of_next (by simp [hc]) hg, hn, hl, List.drop_left]

/-! ## The scanner -/

namespace Scanner

theorem terminals_scan {s : Scanner} (h : s.ahead ≠ []) :
    s.scan.tokens.map Token.terminal ++ terminals s.scan.ahead =
      s.tokens.map Token.terminal ++ terminals s.ahead := by
  unfold scan
  cases hg : Lexeme.gap? s.ahead with
  | some n =>
    rw [terminals_of_gap hg]
    rfl
  | none =>
    rw [terminals_of_next h hg]
    simp [accept, add, advance, mark, tokens, Token.terminal, Lexeme.terminal]

theorem terminals_scanTimes {n : Nat} {s : Scanner} (h : s.ahead.length ≤ n) :
    (scanTimes n s).tokens.map Token.terminal = s.tokens.map Token.terminal ++ terminals s.ahead := by
  induction n generalizing s with
  | zero =>
    have hs : s.ahead = [] := List.eq_nil_of_length_eq_zero (Nat.le_zero.mp h)
    simp [scanTimes, hs]
  | succ n ih =>
    unfold scanTimes
    split
    · rename_i he
      simp [List.isEmpty_iff.mp he]
    · rename_i he
      have hs : s.ahead ≠ [] := by simpa using he
      have := ahead_scan_lt hs
      rw [ih (by omega), terminals_scan hs]

end Scanner

theorem tokenize_terminals (source : String) :
    (tokenize source).map Token.terminal = terminals source.toList ++ [⟨.eof, ""⟩] := by
  have hend : (tokenize source).map Token.terminal =
      (Scanner.scanTimes source.toList.length (.ofSource source)).tokens.map Token.terminal
        ++ [⟨.eof, ""⟩] := by
    simp [tokenize, Scanner.scanAll, Scanner.add, Scanner.tokens, Scanner.mark, Token.terminal,
      Scanner.ofSource]
  have hall := Scanner.terminals_scanTimes (Nat.le_refl (Scanner.ofSource source).ahead.length)
  rw [hend]
  exact congrArg (· ++ _) hall

end HanScript
