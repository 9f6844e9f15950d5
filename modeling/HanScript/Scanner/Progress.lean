-- The scanner gets to the end: every scan takes up at least one character, so
-- scanning as often as there are characters leaves none, and the source text
-- stays the same all the way.
import HanScript.Lexeme.Length
import HanScript.Scanner

namespace HanScript.Scanner

theorem text_advance (s : Scanner) (n : Nat) : (s.advance n).text = s.text := by
  simp [text, advance]

theorem text_scan (s : Scanner) : s.scan.text = s.text := by
  unfold scan
  split
  · exact text_advance s _
  · exact text_advance s _

theorem text_scanTimes (n : Nat) (s : Scanner) : (scanTimes n s).text = s.text := by
  induction n generalizing s with
  | zero => rfl
  | succ n ih =>
    unfold scanTimes
    split
    · rfl
    · rw [ih, text_scan]

theorem ahead_scan_lt {s : Scanner} (h : s.ahead ≠ []) :
    s.scan.ahead.length < s.ahead.length := by
  have hpos : 0 < s.ahead.length := List.length_pos_iff.mpr h
  unfold scan
  split
  · rename_i n hn
    have := Lexeme.gap?_pos hn
    simp only [advance, List.length_drop]
    omega
  · have := Lexeme.next_pos h
    simp only [accept, add, mark, advance, List.length_drop]
    omega

theorem ahead_scanTimes {n : Nat} {s : Scanner} (h : s.ahead.length ≤ n) :
    (scanTimes n s).ahead = [] := by
  induction n generalizing s with
  | zero => exact List.eq_nil_of_length_eq_zero (Nat.le_zero.mp h)
  | succ n ih =>
    unfold scanTimes
    split
    · rename_i he
      exact List.isEmpty_iff.mp he
    · rename_i he
      have := ahead_scan_lt (s := s) (by simpa using he)
      exact ih (by omega)

/-- After scanning all of it, nothing of the source text is left ahead. -/
theorem ahead_scanAll (s : Scanner) : s.scanAll.ahead = [] :=
  ahead_scanTimes (Nat.le_refl s.ahead.length)

end HanScript.Scanner
