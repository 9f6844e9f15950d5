-- The laws of lengths: a gap, and every lexeme of a text that is not empty,
-- takes up at least one character, and none takes up more than there are.
import HanScript.Lexeme

namespace HanScript.Lexeme

open Text Vocabulary

theorem length_takeWhile_le (p : Char → Bool) (cs : List Char) :
    (cs.takeWhile p).length ≤ cs.length :=
  (List.takeWhile_sublist p).length_le

/-! ## Gaps -/

theorem blockRest_le (cs : List Char) : blockRest cs ≤ cs.length := by
  fun_induction blockRest cs with
  | case1 => simp
  | case2 cs => simp
  | case3 c cs _ ih => simpa using ih

theorem gap?_pos {cs : List Char} {n : Nat} (h : gap? cs = some n) : 0 < n := by
  unfold gap? at h
  split at h
  · simp at h
  · cases h; omega
  · cases h; omega
  · split at h
    · cases h; omega
    · simp at h

theorem gap?_le {cs : List Char} {n : Nat} (h : gap? cs = some n) : n ≤ cs.length := by
  unfold gap? at h
  split at h
  · simp at h
  · rename_i cs
    cases h
    have := length_takeWhile_le (· != '\n') cs
    simp only [List.length_cons]
    omega
  · rename_i cs
    cases h
    have := blockRest_le cs
    simp only [List.length_cons]
    omega
  · split at h
    · cases h; simp
    · simp at h

/-! ## Quoted texts -/

theorem quotedRest_le (closing : Char) (cs : List Char) : (quotedRest closing cs).2 ≤ cs.length := by
  fun_induction quotedRest closing cs <;> simp_all

theorem quoted?_pos {cs : List Char} {l : Lexeme} (h : quoted? cs = some l) : 0 < l.length := by
  unfold quoted? at h
  split at h
  · simp at h
  · obtain ⟨closing, _, rfl⟩ := Option.map_eq_some_iff.mp h
    exact Nat.succ_pos _

theorem quoted?_le {cs : List Char} {l : Lexeme} (h : quoted? cs = some l) :
    l.length ≤ cs.length := by
  unfold quoted? at h
  split at h
  · simp at h
  · rename_i c cs
    obtain ⟨closing, _, rfl⟩ := Option.map_eq_some_iff.mp h
    have := quotedRest_le closing cs
    simp only [List.length_cons]
    omega

/-! ## Numerals -/

theorem digitCount_le (cs : List Char) : digitCount cs ≤ cs.length := length_takeWhile_le isDigit cs

theorem fractionLength_le (cs : List Char) : fractionLength cs ≤ cs.length := by
  unfold fractionLength
  split
  · rename_i cs
    have := digitCount_le cs
    split <;> simp only [List.length_cons] <;> omega
  · omega

theorem signLength_le (cs : List Char) : signLength cs ≤ cs.length := by
  unfold signLength
  split <;> simp

theorem exponentLength_le (cs : List Char) : exponentLength cs ≤ cs.length := by
  unfold exponentLength
  split
  · rename_i c cs
    have h1 := signLength_le cs
    have h2 := digitCount_le (cs.drop (signLength cs))
    rw [List.length_drop] at h2
    split <;> simp only [List.length_cons] <;> omega
  · omega

theorem decimalLength_le (cs : List Char) : decimalLength cs ≤ cs.length := by
  unfold decimalLength
  have h1 := digitCount_le cs
  have h2 := fractionLength_le (cs.drop (digitCount cs))
  have h3 := exponentLength_le
    (cs.drop (digitCount cs + fractionLength (cs.drop (digitCount cs))))
  rw [List.length_drop] at h2 h3
  simp only
  omega

theorem numeralLength_le (cs : List Char) : numeralLength cs ≤ cs.length := by
  unfold numeralLength
  split
  · omega
  · simp
  · rename_i c d cs
    split
    · rename_i ok _
      have := length_takeWhile_le ok cs
      simp only [List.length_cons]
      omega
    · have := decimalLength_le (d :: cs)
      simp only [List.length_cons] at this ⊢
      omega

theorem numeralLength_pos {cs : List Char} (h : cs ≠ []) : 0 < numeralLength cs := by
  unfold numeralLength
  split
  · exact absurd rfl h
  · omega
  · split <;> omega

/-! ## Words and signs -/

theorem word_le (cs : List Char) : (word cs).length ≤ cs.length := length_takeWhile_le isWordPart cs

theorem word_pos {cs : List Char} (h : cs.head?.any isWordStart = true) : 0 < (word cs).length := by
  cases cs with
  | nil => simp at h
  | cons c cs =>
    have hc : isWordPart c = true := by
      simp only [List.head?_cons, Option.any_some] at h
      simp [isWordPart, h]
    simp [word, hc]

theorem mem_of_lookup {α β : Type} [BEq α] [LawfulBEq α] {table : List (α × β)} {a : α} {b : β}
    (h : table.lookup a = some b) : (a, b) ∈ table := by
  obtain ⟨front, back, rfl, -⟩ := List.lookup_eq_some_iff.mp h
  simp

/-- A sign is what its characters are read as, and it stands in one of the tables unless it is the
sign of a tag. -/
theorem sign?_cases {cs : List Char} {l : Lexeme} (h : sign? cs = some l) :
    l.value = String.ofList ((cs.map normalized).take l.length) ∧ l.value.length = l.length ∧
      (l.value, l.kind) ∈ threeSigns ++ twoSigns ++ oneSign ++
        [(Vocabulary.closeTag, .closeTag), (Vocabulary.selfClose, .selfClose)] := by
  have h3 : ∀ e ∈ threeSigns, e.1.length = 3 := by decide
  have h2 : ∀ e ∈ twoSigns, e.1.length = 2 := by decide
  have h1 : ∀ e ∈ oneSign, e.1.length = 1 := by decide
  unfold sign? at h
  simp only [List.map_take, List.take_take] at h
  split at h
  · rename_i kind hk
    cases h
    have hmem := mem_of_lookup hk
    have hlength := h3 _ hmem
    exact ⟨rfl, hlength, List.mem_append_left _ (List.mem_append_left _ (List.mem_append_left _ hmem))⟩
  · split at h
    · rename_i htag
      cases h
      refine ⟨rfl, ?_⟩
      simp only [htag.1]
      decide
    · split at h
      · rename_i htag
        cases h
        refine ⟨rfl, ?_⟩
        simp only [htag]
        decide
      · split at h
        · rename_i kind hk
          cases h
          have hmem := mem_of_lookup hk
          have hlength := h2 _ hmem
          exact ⟨rfl, hlength,
            List.mem_append_left _ (List.mem_append_left _ (List.mem_append_right _ hmem))⟩
        · obtain ⟨kind, hk, rfl⟩ := Option.map_eq_some_iff.mp h
          have hmem := mem_of_lookup hk
          have hlength := h1 _ hmem
          exact ⟨rfl, hlength, List.mem_append_left _ (List.mem_append_right _ hmem)⟩

theorem sign?_length {cs : List Char} {l : Lexeme} (h : sign? cs = some l) :
    0 < l.length ∧ l.length ≤ cs.length := by
  obtain ⟨hvalue, hlength, hmem⟩ := sign?_cases h
  have hpos : ∀ e ∈ threeSigns ++ twoSigns ++ oneSign ++
      [(Vocabulary.closeTag, TokenKind.closeTag), (Vocabulary.selfClose, .selfClose)],
      0 < e.1.length := by decide
  have hle := congrArg String.length hvalue
  rw [hlength, String.length_ofList, List.length_take, List.length_map] at hle
  exact ⟨hlength ▸ hpos _ hmem, by omega⟩

/-! ## The next lexeme -/

theorem next_le (cs : List Char) : (next cs).length ≤ cs.length := by
  unfold next
  split
  · rename_i l h
    exact quoted?_le h
  · split
    · exact numeralLength_le cs
    · split
      · exact word_le cs
      · cases hs : sign? cs with
        | some l => exact (sign?_length hs).2
        | none =>
          simp only [Option.getD_none, stray, List.length_take]
          omega

theorem next_pos {cs : List Char} (h : cs ≠ []) : 0 < (next cs).length := by
  unfold next
  split
  · rename_i l hl
    exact quoted?_pos hl
  · split
    · exact numeralLength_pos h
    · split
      · rename_i hw
        exact word_pos hw
      · cases hs : sign? cs with
        | some l => exact (sign?_length hs).1
        | none =>
          cases cs with
          | nil => exact absurd rfl h
          | cons c cs => simp [stray]

end HanScript.Lexeme
