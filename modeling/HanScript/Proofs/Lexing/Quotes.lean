-- Any text can be written in any quotes. With a backslash before each closing
-- quote in it and before each backslash, it is scanned as one token, which is
-- worth the text and takes up the whole of the source.
import HanScript.Proofs.Lexing.Placing
import HanScript.Proofs.Lexing.Relexing

namespace HanScript

open Lexeme Vocabulary

/-! ## Sources of one token -/

/-- The place after a text, from its start. -/
theorem Place.after_start (cs : List Char) : ({} : Place).after cs = behind cs := by
  have hall : behind ([] ++ cs) = (behind []).after cs := behind_append [] cs
  exact hall.symm

theorem Scanner.scanTimes_of_end {s : Scanner} (h : s.ahead = []) (n : Nat) : scanTimes n s = s := by
  cases n with
  | zero => rfl
  | succ n =>
    unfold scanTimes
    rw [h]
    rfl

/-- A source that one lexeme takes up is scanned as its token and the end token. -/
theorem tokenize_of_next {source : String} (hne : source.toList ≠ []) (hg : gap? source.toList = none)
    (hl : (next source.toList).length = source.toList.length) :
    tokenize source =
      [⟨(next source.toList).kind, (next source.toList).value,
          Place.spanTo {} (.behind source.toList)⟩,
        ⟨.eof, "", (Place.behind source.toList).spanTo (.behind source.toList)⟩] := by
  have hscan : (Scanner.ofSource source).scan =
      (Scanner.ofSource source).mark.accept (next source.toList) := by
    unfold Scanner.scan
    rw [Scanner.ofSource, hg]
  have hend : (Scanner.ofSource source).scan.ahead = [] := by
    rw [hscan]
    exact List.drop_eq_nil_of_le (Nat.le_of_eq hl.symm)
  have htimes : Scanner.scanTimes source.toList.length (.ofSource source) =
      (Scanner.ofSource source).scan := by
    obtain ⟨n, hn⟩ := Nat.exists_eq_succ_of_ne_zero (List.length_pos_iff.mpr hne).ne'
    rw [hn, Scanner.scanTimes, if_neg (by simpa [Scanner.ofSource] using hne)]
    exact Scanner.scanTimes_of_end hend n
  have hall : (Scanner.ofSource source).ahead = source.toList := rfl
  unfold tokenize Scanner.scanAll
  rw [hall, htimes, hscan, Scanner.accept, hl]
  simp [Scanner.ofSource, Scanner.tokens, Scanner.add, Scanner.mark, Scanner.advance, Place.after_start]

/-! ## Texts in quotes -/

/-- A text in an opening quote and the quote that closes it. -/
def inQuotes (e : Char × Char) (v : String) : String :=
  String.ofList (e.1 :: guarded e.2 v.toList ++ [e.2])

/-- In every opening quote of the table and the quote that closes it, every text is scanned as one
token with the text as its value, from the first character of the source to the last, and the end
token after it. -/
theorem any_text_in_any_quotes {e : Char × Char} (he : e ∈ quotes) (v : String) :
    tokenize (inQuotes e v) =
      [⟨if e.1 = templateQuote then .template else .string, v, ⟨1, 1, 0, (inQuotes e v).length⟩⟩,
        ⟨.eof, "", (Place.behind (inQuotes e v).toList).spanTo (.behind (inQuotes e v).toList)⟩] := by
  have hchars : (inQuotes e v).toList = e.1 :: guarded e.2 v.toList ++ [e.2] := String.toList_ofList
  have hnext : next (inQuotes e v).toList =
      ⟨if e.1 = templateQuote then .template else .string, v, (inQuotes e v).toList.length⟩ := by
    have hread := next_guarded he v.toList []
    rw [List.append_nil, String.ofList_toList] at hread
    rw [hchars, hread]
  have hgap : gap? (inQuotes e v).toList = none := by
    rw [hchars]
    exact gap?_of_quote he _
  rw [tokenize_of_next (by simp [hchars]) hgap (by rw [hnext]), hnext]
  simp [Place.spanTo, Place.behind, ← String.length_toList]

/-- A text with both quotes of a family, a backslash, a line break and a quote of another family. -/
def quoteWithin : String := "“a”\\n\n\\”\""

/-- The closing quotes and the backslashes are guarded, and nothing else. -/
theorem quoteWithin_in_curly_quotes :
    ('“', '”') ∈ quotes ∧ inQuotes ('“', '”') quoteWithin = "““a\\”\\\\n\n\\\\\\”\"”" ∧
      tokenize (inQuotes ('“', '”') quoteWithin) =
        [⟨.string, quoteWithin, ⟨1, 1, 0, 15⟩⟩, ⟨.eof, "", ⟨2, 7, 15, 15⟩⟩] :=
  ⟨by decide, rfl, any_text_in_any_quotes (by decide) quoteWithin⟩

end HanScript
