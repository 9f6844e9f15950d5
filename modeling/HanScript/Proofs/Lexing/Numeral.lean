-- Where words and numerals end. What comes after one has no say in it as long
-- as it could not go on with it, and what a word or a numeral takes up is, on
-- its own, the same word or numeral.
import HanScript.Lexeme.Length

namespace HanScript.Lexeme

open Text

/-- The text begins with nothing that could go on with a word or a numeral. -/
structure Closes (r : List Char) : Prop where
  head : ∀ c ∈ r.head?, isWordPart c = false ∧ c ≠ '+' ∧ c ≠ '-'
  fraction : fractionLength r = 0

theorem closes_nil : Closes [] := ⟨by simp, rfl⟩

theorem closes_cons {c : Char} (hc : isWordPart c = false ∧ c ≠ '+' ∧ c ≠ '-') (hp : c ≠ '.')
    (r : List Char) : Closes (c :: r) := by
  refine ⟨by simpa using hc, ?_⟩
  unfold fractionLength
  split
  · rename_i h
    cases h
    exact absurd rfl hp
  · rfl

theorem not_digit_of_wordStart {c : Char} (h : isWordStart c) : isDigit c = false := by
  by_cases hc : c = '_'
  · rw [hc]
    rfl
  · simp [isWordStart, isDigit, isLatin, isHan, hc, Char.le_def, UInt32.le_iff_toNat_le] at h ⊢
    omega

/-- A point and a word are no fraction. -/
theorem closes_point {c : Char} (hc : isWordStart c) (r : List Char) : Closes ('.' :: c :: r) := by
  refine ⟨by simp; decide, ?_⟩
  simp [fractionLength, digitCount, not_digit_of_wordStart hc]

/-! ## Digits -/

theorem takeWhile_append_of_head {p : Char → Bool} {r : List Char} (hr : ∀ c ∈ r.head?, p c = false)
    (cs : List Char) : (cs ++ r).takeWhile p = cs.takeWhile p := by
  have hnone : r.takeWhile p = [] := by
    cases r with
    | nil => rfl
    | cons c r => exact List.takeWhile_cons_of_neg (by simpa using hr c rfl)
  rw [List.takeWhile_append, hnone]
  split
  · rename_i h
    simpa using ((List.takeWhile_prefix p).eq_of_length h).symm
  · rfl

theorem isWordPart_of_hexDigit {c : Char} (h : isHexDigit c) : isWordPart c := by
  simp [isHexDigit, isWordPart, isWordStart, isDigit, isLatin, isHan, Char.le_def,
    UInt32.le_iff_toNat_le] at h ⊢
  omega

theorem isWordPart_of_baseDigit {c d : Char} {ok : Char → Bool} (hd : baseDigit? d = some ok)
    (h : ok c) : isWordPart c := by
  have hhex : isHexDigit c := by
    unfold baseDigit? at hd
    split at hd
    · cases hd
      exact h
    · cases hd
      exact h
    · cases hd
      simp [isBinaryDigit] at h
      rcases h with rfl | rfl <;> rfl
    · cases hd
      simp [isBinaryDigit] at h
      rcases h with rfl | rfl <;> rfl
    · cases hd
      simp [isHexDigit, isDigit, isOctalDigit, Char.le_def, UInt32.le_iff_toNat_le] at h ⊢
      omega
    · cases hd
      simp [isHexDigit, isDigit, isOctalDigit, Char.le_def, UInt32.le_iff_toNat_le] at h ⊢
      omega
    · cases hd
  exact isWordPart_of_hexDigit hhex

/-- Only a zero begins a numeral with a base. -/
theorem baseDigit?_of_zero {c d : Char} {ok : Char → Bool}
    (h : (if c = '0' then baseDigit? d else none) = some ok) : baseDigit? d = some ok := by
  split at h
  · exact h
  · cases h

theorem baseDigit?_none {c : Char} (h : isWordPart c = false) : baseDigit? c = none := by
  unfold baseDigit?
  split <;> first | rfl | cases h

section

variable {r : List Char} (hr : Closes r) (cs : List Char)

include hr

theorem digitCount_append : digitCount (cs ++ r) = digitCount cs := by
  unfold digitCount
  rw [takeWhile_append_of_head]
  intro c hc
  have := (hr.head c hc).1
  simp_all [isWordPart]

theorem fractionLength_append : fractionLength (cs ++ r) = fractionLength cs := by
  cases cs with
  | nil => exact hr.fraction
  | cons c cs =>
    by_cases hc : c = '.'
    · simp [hc, fractionLength, digitCount_append hr]
    · simp [fractionLength, hc]

theorem signLength_append : signLength (cs ++ r) = signLength cs := by
  cases cs with
  | nil => 
    cases r with
    | nil => rfl
    | cons c r =>
      obtain ⟨-, hp, hm⟩ := hr.head c rfl
      simp [signLength, hp, hm]
  | cons c cs =>
    by_cases hp : c = '+'
    · simp [hp, signLength]
    · by_cases hm : c = '-'
      · simp [hm, signLength]
      · simp [signLength, hp, hm]

theorem exponentLength_append : exponentLength (cs ++ r) = exponentLength cs := by
  cases cs with
  | nil => 
    cases r with
    | nil => rfl
    | cons c r =>
      have hw := (hr.head c rfl).1
      have he : ¬ (c = 'e' ∨ c = 'E') := by
        rintro (rfl | rfl) <;> cases hw
      simp [exponentLength, he]
  | cons c cs =>
    simp only [exponentLength, List.cons_append, signLength_append hr,
      List.drop_append_of_le_length (signLength_le cs), digitCount_append hr]

theorem decimalLength_append : decimalLength (cs ++ r) = decimalLength cs := by
  have hwhole := digitCount_le cs
  have hfraction := fractionLength_le (cs.drop (digitCount cs))
  rw [List.length_drop] at hfraction
  simp only [decimalLength, digitCount_append hr, List.drop_append_of_le_length hwhole,
    fractionLength_append hr]
  rw [List.drop_append_of_le_length (by omega), exponentLength_append hr]

theorem numeralLength_append (hc : cs ≠ []) : numeralLength (cs ++ r) = numeralLength cs := by
  cases cs with
  | nil => exact absurd rfl hc
  | cons c cs =>
    cases cs with
    | nil =>
      cases r with
      | nil => rfl
      | cons d r =>
        have hbase : (if c = '0' then baseDigit? d else none) = none := by
          rw [baseDigit?_none (hr.head d rfl).1, ite_self]
        have hrest : decimalLength (d :: r) = decimalLength [] := decimalLength_append hr []
        simp only [List.cons_append, List.nil_append, numeralLength, hbase, hrest]
        rfl
    | cons d cs =>
      simp only [List.cons_append, numeralLength]
      split
      · rename_i ok hok
        have hd := baseDigit?_of_zero hok
        rw [takeWhile_append_of_head]
        intro x hx
        cases hok : ok x with
        | false => rfl
        | true => rw [← (hr.head x hx).1, isWordPart_of_baseDigit hd hok]
      · rw [← List.cons_append, decimalLength_append hr]

end

/-! ## What a numeral takes up -/

theorem length_takeWhile_take {p : Char → Bool} {cs : List Char} {n : Nat}
    (h : (cs.takeWhile p).length ≤ n) : ((cs.take n).takeWhile p).length = (cs.takeWhile p).length := by
  rw [← List.take_takeWhile, List.take_of_length_le h]

theorem digitCount_take {cs : List Char} {n : Nat} (h : digitCount cs ≤ n) :
    digitCount (cs.take n) = digitCount cs := length_takeWhile_take h

theorem fractionLength_take {cs : List Char} {n : Nat} (h : fractionLength cs ≤ n) :
    fractionLength (cs.take n) = fractionLength cs := by
  cases cs with
  | nil => simp
  | cons c cs =>
    cases n with
    | zero => exact (Nat.le_zero.mp h).symm
    | succ n =>
      by_cases hc : c = '.'
      · subst hc
        simp only [List.take_succ_cons, fractionLength] at h ⊢
        have hcount : digitCount (cs.take n) = digitCount cs := digitCount_take (by split at h <;> omega)
        rw [hcount]
      · simp [fractionLength, hc]

theorem signLength_take {cs : List Char} {n : Nat} (h : signLength cs ≤ n) :
    signLength (cs.take n) = signLength cs := by
  cases cs with
  | nil => simp
  | cons c cs =>
    cases n with
    | zero => exact (Nat.le_zero.mp h).symm
    | succ n => 
      by_cases hp : c = '+'
      · simp [hp, signLength]
      · by_cases hm : c = '-'
        · simp [hm, signLength]
        · simp [signLength, hp, hm]

theorem exponentLength_take {cs : List Char} {n : Nat} (h : exponentLength cs ≤ n) :
    exponentLength (cs.take n) = exponentLength cs := by
  cases cs with
  | nil => simp
  | cons c cs =>
    cases n with
    | zero => exact (Nat.le_zero.mp h).symm
    | succ n =>
      simp only [List.take_succ_cons, exponentLength] at h ⊢
      split
      · rename_i he
        rw [if_pos he] at h
        rw [signLength_take (by omega), List.drop_take, digitCount_take (by omega)]
      · rfl

theorem decimalLength_take {cs : List Char} {n : Nat} (h : decimalLength cs ≤ n) :
    decimalLength (cs.take n) = decimalLength cs := by
  simp only [decimalLength] at h ⊢
  rw [digitCount_take (by omega), List.drop_take, fractionLength_take (by omega), List.drop_take,
    exponentLength_take (by omega)]

/-- What a numeral takes up is, on its own, that numeral. -/
theorem numeralLength_take (cs : List Char) :
    numeralLength (cs.take (numeralLength cs)) = numeralLength cs := by
  match cs with
  | [] => rfl
  | [c] => rfl
  | c :: d :: cs =>
    cases hbase : if c = '0' then baseDigit? d else none with
    | some ok =>
      have hlength : numeralLength (c :: d :: cs) = (cs.takeWhile ok).length + 2 := by
        simp [numeralLength, hbase, Nat.add_comm]
      rw [hlength]
      simp only [List.take_succ_cons, numeralLength, hbase]
      rw [length_takeWhile_take (Nat.le_refl _), Nat.add_comm]
    | none =>
      have hlength : numeralLength (c :: d :: cs) = decimalLength (d :: cs) + 1 := by
        simp [numeralLength, hbase, Nat.add_comm]
      rw [hlength, List.take_succ_cons]
      have htake := decimalLength_take (Nat.le_refl (decimalLength (d :: cs)))
      cases hm : decimalLength (d :: cs) with
      | zero => rfl
      | succ m =>
        rw [hm, List.take_succ_cons] at htake
        simp only [List.take_succ_cons, numeralLength, hbase, htake]
        omega

/-! ## The characters of a numeral -/

/-- A character that a numeral can go on with. -/
def isNumeralPart (c : Char) : Bool := isWordPart c || c = '.' || c = '+' || c = '-'

theorem isNumeralPart_of_wordPart {c : Char} (h : isWordPart c) : isNumeralPart c := by
  simp [isNumeralPart, h]

theorem take_takeWhile_length (p : Char → Bool) (cs : List Char) :
    cs.take (cs.takeWhile p).length = cs.takeWhile p :=
  (List.prefix_iff_eq_take.mp (List.takeWhile_prefix p)).symm

theorem all_take_digitCount (cs : List Char) : (cs.take (digitCount cs)).all isNumeralPart := by
  rw [digitCount, take_takeWhile_length, List.all_eq_true]
  intro c hc
  have hdigit : isDigit c := List.all_eq_true.mp List.all_takeWhile c hc
  exact isNumeralPart_of_wordPart (by simp [isWordPart, hdigit])

theorem all_take_fractionLength (cs : List Char) :
    (cs.take (fractionLength cs)).all isNumeralPart := by
  unfold fractionLength
  split
  · rename_i cs
    split
    · rfl
    · rw [List.take_succ_cons, List.all_cons, all_take_digitCount]
      rfl
  · rfl

theorem all_take_signLength (cs : List Char) : (cs.take (signLength cs)).all isNumeralPart := by
  unfold signLength
  split <;> rfl

theorem all_take_exponentLength (cs : List Char) :
    (cs.take (exponentLength cs)).all isNumeralPart := by
  cases cs with
  | nil => rfl
  | cons c cs =>
    rw [exponentLength]
    split
    · rename_i he
      have hc : isNumeralPart c := by
        rcases he with rfl | rfl <;> rfl
      rw [Nat.add_assoc, Nat.add_comm 1, List.take_succ_cons, List.all_cons, hc, List.take_add,
        List.all_append, all_take_signLength, all_take_digitCount]
      rfl
    · rfl

theorem all_take_decimalLength (cs : List Char) : (cs.take (decimalLength cs)).all isNumeralPart := by
  unfold decimalLength
  simp only
  rw [List.take_add, List.take_add, List.all_append, List.all_append, all_take_digitCount,
    all_take_fractionLength, all_take_exponentLength]
  rfl

/-- A numeral that begins with a digit is made of parts of words, points and signs. -/
theorem all_take_numeralLength {c : Char} (hc : isDigit c) (cs : List Char) :
    ((c :: cs).take (numeralLength (c :: cs))).all isNumeralPart := by
  have hpart : isNumeralPart c := isNumeralPart_of_wordPart (by simp [isWordPart, hc])
  cases cs with
  | nil => simpa [numeralLength] using hpart
  | cons d cs =>
    cases hbase : if c = '0' then baseDigit? d else none with
    | some ok =>
      have hd := baseDigit?_of_zero hbase
      have hletter : isWordPart d := by
        cases hw : isWordPart d with
        | true => rfl
        | false =>
          rw [baseDigit?_none hw] at hd
          cases hd
      have hlength : numeralLength (c :: d :: cs) = (cs.takeWhile ok).length + 2 := by
        simp [numeralLength, hbase, Nat.add_comm]
      rw [hlength, List.take_succ_cons, List.take_succ_cons, take_takeWhile_length, List.all_cons,
        List.all_cons, hpart, isNumeralPart_of_wordPart hletter]
      refine List.all_eq_true.mpr fun x hx => ?_
      exact isNumeralPart_of_wordPart
        (isWordPart_of_baseDigit hd (List.all_eq_true.mp List.all_takeWhile x hx))
    | none =>
      have hlength : numeralLength (c :: d :: cs) = decimalLength (d :: cs) + 1 := by
        simp [numeralLength, hbase, Nat.add_comm]
      rw [hlength, List.take_succ_cons, List.all_cons, hpart, all_take_decimalLength]
      rfl

end HanScript.Lexeme
