-- What a lexeme looks at. A text that is cut behind a lexeme, and goes on there
-- with a character that no lexeme can go on with, begins with the same lexeme.
import HanScript.Proofs.Lexing.Punctuation

namespace HanScript

open Lexeme Text Vocabulary

/-! ## Breaks -/

/-- No word and no numeral can go on with the character, and no sign, tag or comment that has begun
before it. -/
structure IsBreak (c : Char) : Prop where
  not_numeralPart : isNumeralPart c = false
  not_second : ∀ p ∈ signPairs, normalized c ≠ p.2

/-- Up to some place the second text is the first one. There it goes on with a break. -/
inductive Cut : List Char → List Char → Prop where
  | here {c : Char} {x y : List Char} : IsBreak c → Cut x (c :: y)
  | later {a : Char} {x y : List Char} : Cut x y → Cut (a :: x) (a :: y)

theorem Cut.append {x y : List Char} (h : Cut x y) (cs : List Char) : Cut (cs ++ x) (cs ++ y) := by
  induction cs with
  | nil => exact h
  | cons c cs ih => exact .later ih

theorem IsBreak.not_wordPart {c : Char} (h : IsBreak c) : isWordPart c = false := by
  have hc := h.not_numeralPart
  simp only [isNumeralPart, Bool.or_eq_false_iff] at hc
  exact hc.1.1.1

theorem IsBreak.not_digit {c : Char} (h : IsBreak c) : isDigit c = false := by
  have hc := h.not_wordPart
  rw [isWordPart, Bool.or_eq_false_iff] at hc
  exact hc.2

/-- A break is none of the characters that a numeral may have in it. -/
theorem IsBreak.ne {c d : Char} (h : IsBreak c) (hd : isNumeralPart d) : c ≠ d := by
  rintro rfl
  rw [h.not_numeralPart] at hd
  cases hd

theorem isBreak_of_blank {c : Char} (h : isBlank c) : IsBreak c := by
  constructor
  · cases hpart : isNumeralPart c with
    | false => rfl
    | true =>
      simp only [isNumeralPart, Bool.or_eq_true, decide_eq_true_eq] at hpart
      rcases hpart with ((hword | rfl) | rfl) | rfl
      · rw [not_blank_of_wordPart hword] at h
        cases h
      · cases h
      · cases h
      · cases h
  · intro p hp hc
    have hsecond : ∀ p ∈ signPairs, isBlank p.2 = false := by decide
    have hblank : isBlank (normalized c) = isBlank c := normalized_agrees (by decide) c
    rw [hc, hsecond p hp, h] at hblank
    cases hblank

theorem isBreak_of_semicolon {c : Char} (h : normalized c = ';') : IsBreak c := by
  constructor
  · cases hpart : isNumeralPart c with
    | false => rfl
    | true =>
      rw [normalized_of_numeralPart hpart] at h
      subst h
      cases hpart
  · rw [h]
    decide

/-! ## Words and numerals -/

section

variable {x y : List Char} (h : Cut x y)

include h

/-- What is taken before a cut is taken from the cut text too. -/
theorem takeWhile_cut {p : Char → Bool} (hp : ∀ c, IsBreak c → p c = false) {cs : List Char}
    (hl : ((cs ++ x).takeWhile p).length ≤ cs.length) :
    (cs ++ y).takeWhile p = (cs ++ x).takeWhile p := by
  induction cs with
  | nil =>
    have hnone : x.takeWhile p = [] := List.eq_nil_of_length_eq_zero (Nat.le_zero.mp hl)
    rw [List.nil_append, List.nil_append, hnone]
    cases h with
    | here hc => exact List.takeWhile_cons_of_neg (by simp [hp _ hc])
    | @later a x y _ =>
      cases ha : p a with
      | false => exact List.takeWhile_cons_of_neg (by simp [ha])
      | true => simp [ha] at hnone
  | cons a cs ih =>
    rw [List.cons_append, List.cons_append]
    cases ha : p a with
    | false => simp [ha]
    | true =>
      simp only [List.cons_append, List.takeWhile_cons, ha, if_true, List.length_cons,
        Nat.add_le_add_iff_right] at hl ⊢
      rw [ih hl]

theorem digitCount_cut {cs : List Char} (hl : digitCount (cs ++ x) ≤ cs.length) :
    digitCount (cs ++ y) = digitCount (cs ++ x) := by
  unfold digitCount at hl ⊢
  rw [takeWhile_cut h (fun c hc => hc.not_digit) hl]

theorem fractionLength_cut {cs : List Char} (hl : fractionLength (cs ++ x) ≤ cs.length) :
    fractionLength (cs ++ y) = fractionLength (cs ++ x) := by
  cases cs with
  | nil =>
    cases h with
    | @here c _ y hc =>
      have hpoint : c ≠ '.' := hc.ne rfl
      rw [Nat.le_zero.mp hl]
      simp [fractionLength, hpoint]
    | @later a x y h =>
      by_cases ha : a = '.'
      · subst ha
        have hnone : digitCount x = 0 := by
          simp only [List.nil_append, fractionLength, List.length_nil] at hl
          split at hl <;> omega
        have hsame : digitCount y = digitCount x := @digitCount_cut _ _ h [] (Nat.le_of_eq hnone)
        simp only [List.nil_append, fractionLength, hsame]
      · simp [fractionLength, ha]
  | cons a cs =>
    by_cases ha : a = '.'
    · subst ha
      simp only [List.cons_append, fractionLength, List.length_cons] at hl ⊢
      rw [digitCount_cut h (by split at hl <;> omega)]
    · simp [fractionLength, ha]

theorem signLength_cut {cs : List Char} (hl : signLength (cs ++ x) ≤ cs.length) :
    signLength (cs ++ y) = signLength (cs ++ x) := by
  have hhead : ∀ (a : Char) (r s : List Char), signLength (a :: r) = signLength (a :: s) := by
    intro a r s
    by_cases hp : a = '+'
    · subst hp
      rfl
    · by_cases hm : a = '-'
      · subst hm
        rfl
      · simp [signLength, hp, hm]
  cases cs with
  | nil =>
    cases h with
    | @here c _ y hc =>
      have hplus : c ≠ '+' := hc.ne rfl
      have hminus : c ≠ '-' := hc.ne rfl
      rw [Nat.le_zero.mp hl]
      simp [signLength, hplus, hminus]
    | later => exact hhead _ _ _
  | cons a cs => exact hhead _ _ _

theorem exponentLength_cut {cs : List Char} (hl : exponentLength (cs ++ x) ≤ cs.length) :
    exponentLength (cs ++ y) = exponentLength (cs ++ x) := by
  cases cs with
  | nil =>
    have hnone := Nat.le_zero.mp hl
    cases h with
    | @here c _ y hc =>
      have hletter : ¬ (c = 'e' ∨ c = 'E') := by
        rintro (he | he)
        · exact hc.ne rfl he
        · exact hc.ne rfl he
      rw [hnone]
      simp [exponentLength, hletter]
    | @later a x y _ =>
      have hletter : ¬ (a = 'e' ∨ a = 'E') := by
        intro ha
        simp [exponentLength, ha] at hnone
      simp [exponentLength, hletter]
  | cons a cs =>
    by_cases ha : a = 'e' ∨ a = 'E'
    · simp only [List.cons_append, exponentLength, ha, if_true, List.length_cons] at hl ⊢
      have hsign : signLength (cs ++ x) ≤ cs.length := by omega
      rw [signLength_cut h hsign]
      rw [List.drop_append_of_le_length hsign] at hl
      rw [List.drop_append_of_le_length hsign, List.drop_append_of_le_length hsign,
        digitCount_cut h (by rw [List.length_drop]; omega)]
    · simp [exponentLength, ha]

theorem decimalLength_cut {cs : List Char} (hl : decimalLength (cs ++ x) ≤ cs.length) :
    decimalLength (cs ++ y) = decimalLength (cs ++ x) := by
  simp only [decimalLength] at hl ⊢
  have hwhole : digitCount (cs ++ x) ≤ cs.length := by omega
  rw [digitCount_cut h hwhole]
  generalize digitCount (cs ++ x) = whole at hl hwhole ⊢
  rw [List.drop_append_of_le_length hwhole] at hl ⊢
  have hfraction : fractionLength (cs.drop whole ++ x) ≤ (cs.drop whole).length := by
    rw [List.length_drop]
    omega
  rw [List.drop_append_of_le_length hwhole, fractionLength_cut h hfraction]
  generalize fractionLength (cs.drop whole ++ x) = fraction at hl hfraction ⊢
  have hboth : whole + fraction ≤ cs.length := by
    rw [List.length_drop] at hfraction
    omega
  rw [List.drop_append_of_le_length hboth] at hl ⊢
  rw [List.drop_append_of_le_length hboth, exponentLength_cut h (by rw [List.length_drop]; omega)]

/-- A numeral that ends where the text is cut, or before, is the same in the cut text. -/
theorem numeralLength_cut (hx : x ≠ []) {cs : List Char} (hc : cs ≠ [])
    (hl : numeralLength (cs ++ x) = cs.length) : numeralLength (cs ++ y) = numeralLength (cs ++ x) := by
  match cs with
  | [] => exact absurd rfl hc
  | [a] =>
    obtain ⟨d, r, rfl⟩ := List.exists_cons_of_ne_nil hx
    have hone : numeralLength (a :: d :: r) = 1 := hl
    cases hbase : if a = '0' then baseDigit? d else none with
    | some ok =>
      simp only [numeralLength, hbase] at hone
      omega
    | none =>
      simp only [numeralLength, hbase] at hone
      have hdecimal : decimalLength y = decimalLength (d :: r) :=
        @decimalLength_cut _ _ h [] (by simp only [List.nil_append, List.length_nil]; omega)
      have hlength : numeralLength (a :: y) = 1 + decimalLength y := by
        cases h with
        | here hc => simp [numeralLength, baseDigit?_none hc.not_wordPart]
        | later => simp [numeralLength, hbase]
      rw [hl, List.singleton_append, hlength, hdecimal, hone]
      rfl
  | a :: d :: cs =>
    simp only [List.cons_append, numeralLength, List.length_cons] at hl ⊢
    cases hbase : if a = '0' then baseDigit? d else none with
    | some ok =>
      rw [hbase] at hl
      simp only at hl ⊢
      have hbreak : ∀ c, IsBreak c → ok c = false := by
        intro c hc
        cases hok : ok c with
        | false => rfl
        | true => rw [← hc.not_wordPart, isWordPart_of_baseDigit (baseDigit?_of_zero hbase) hok]
      rw [takeWhile_cut h hbreak (by omega)]
    | none =>
      rw [hbase] at hl
      simp only at hl ⊢
      have hdecimal := @decimalLength_cut _ _ h (d :: cs)
      simp only [List.cons_append, List.length_cons] at hdecimal
      rw [hdecimal (by omega)]

end

/-! ## Quoted texts -/

theorem quotedRest_pos (closing : Char) {cs : List Char} (h : cs ≠ []) :
    0 < (quotedRest closing cs).2 := by
  fun_cases quotedRest closing cs with
  | case1 => exact absurd rfl h
  | case2 => exact Nat.one_pos
  | case3 => exact Nat.one_pos
  | case4 => exact Nat.one_pos
  | case5 => exact Nat.one_pos
  | case6 => exact Nat.succ_pos _
  | case7 => exact Nat.succ_pos _

/-- A quoted text that ends before the text does is closed. It does not matter what comes after
it. -/
theorem quotedRest_append {closing : Char} {cs x : List Char} (hx : x ≠ [])
    (hl : (quotedRest closing (cs ++ x)).2 = cs.length) (y : List Char) :
    quotedRest closing (cs ++ y) = quotedRest closing (cs ++ x) := by
  have hpos := quotedRest_pos closing hx
  obtain ⟨d, r, rfl⟩ := List.exists_cons_of_ne_nil hx
  match cs with
  | [] =>
    rw [List.nil_append, List.length_nil] at hl
    omega
  | [a] =>
    rw [List.singleton_append, List.length_singleton] at hl
    rw [List.singleton_append, List.singleton_append]
    by_cases ha : a = closing
    · cases y <;> simp [quotedRest, ha]
    · rw [quotedRest, if_neg ha] at hl
      split at hl
      · simp at hl
      · simp only [Nat.add_eq_right] at hl
        omega
  | a :: b :: cs =>
    simp only [List.cons_append, List.length_cons, quotedRest] at hl ⊢
    by_cases ha : a = closing
    · simp [ha] at hl
    · by_cases hb : a = '\\'
      · simp only [if_neg ha, if_pos hb, Nat.add_right_cancel_iff] at hl ⊢
        rw [quotedRest_append hx hl]
      · simp only [if_neg ha, if_neg hb, Nat.add_right_cancel_iff] at hl ⊢
        have hrest := @quotedRest_append closing (b :: cs) _ hx hl y
        rw [List.cons_append, List.cons_append] at hrest
        rw [hrest]

/-! ## Signs -/

/-- The third character counts only if it makes a sign of the first two, or keeps them from being
the beginning of a closing tag. -/
theorem sign?_pair {a b d : Char} {r : List Char}
    (hthree : threeSigns.lookup (String.ofList [normalized a, normalized b, normalized d]) = none)
    (htag : String.ofList [normalized a, normalized b] = closeTag → normalized d ≠ '>') :
    sign? (a :: b :: d :: r) = sign? [a, b] := by
  have hlength : ∀ e ∈ threeSigns, e.1.length = 3 := by decide
  have htwo : threeSigns.lookup (String.ofList [normalized a, normalized b]) = none := by
    cases hk : threeSigns.lookup (String.ofList [normalized a, normalized b]) with
    | none => rfl
    | some kind =>
      have hthree := hlength _ (mem_of_lookup hk)
      rw [String.length_ofList] at hthree
      cases hthree
  simp only [sign?, List.take_succ_cons, List.take_zero, List.take_nil, List.map_cons, List.map_nil,
    hthree, htwo]
  by_cases hclose : String.ofList [normalized a, normalized b] = closeTag
  · have hpoint := htag hclose
    simp [hclose, hpoint]
  · simp only [hclose, false_and, if_false]

/-- A break is never the third character of a sign, and does not count there. -/
theorem sign?_pair_break {a b c : Char} (hc : IsBreak c) (r : List Char) :
    sign? (a :: b :: c :: r) = sign? [a, b] := by
  have hthird : ∀ e ∈ threeSigns, ∃ p ∈ signPairs, e.1.toList[2]? = some p.2 := by decide
  refine sign?_pair ?_ fun _ => hc.not_second ('=', '>') (by decide)
  cases hk : threeSigns.lookup (String.ofList [normalized a, normalized b, normalized c]) with
  | none => rfl
  | some kind =>
    obtain ⟨p, hp, he⟩ := hthird _ (mem_of_lookup hk)
    rw [String.toList_ofList] at he
    exact absurd (Option.some.inj he) (hc.not_second p hp)

/-- No sign goes on with a break. -/
theorem sign?_single_break {a c : Char} (hc : IsBreak c) (r : List Char) :
    sign? (a :: c :: r) = sign? [a] := by
  rw [sign?_cons, sign?_cons (by simp)]
  intro d hd hp
  cases hd
  exact hc.not_second _ hp rfl

/-- Only three characters count. -/
theorem sign?_take (cs : List Char) : sign? (cs.take 3) = sign? cs := by
  simp only [sign?, List.take_take, Nat.min_self]

theorem sign?_one {a : Char} {r : List Char} {l : Lexeme} (h : sign? (a :: r) = some l)
    (hl : l.length = 1) : sign? [a] = some l := by
  have hone : ∀ e ∈ signsAndTags, e.1.length = 1 → oneSign.lookup e.1 = some e.2 := by decide
  obtain ⟨hvalue, hlength, hmem⟩ := sign?_cases h
  have hlookup : oneSign.lookup l.value = some l.kind := hone _ hmem (hlength.trans hl)
  rw [hl, List.map_cons, List.take_succ_cons, List.take_zero] at hvalue
  rw [sign?_cons (by simp), ← hvalue, hlookup, Option.map_some, ← hl]

theorem lookup_three_none {a b d : Char} {r : List Char} {l : Lexeme}
    (h : sign? (a :: b :: d :: r) = some l) (hl : l.length ≠ 3) :
    threeSigns.lookup (String.ofList [normalized a, normalized b, normalized d]) = none := by
  cases hk : threeSigns.lookup (String.ofList [normalized a, normalized b, normalized d]) with
  | none => rfl
  | some kind =>
    simp only [sign?, List.take_succ_cons, List.map_cons, List.take_zero, List.map_nil, hk] at h
    cases h
    exact absurd rfl hl

theorem closeTag_chars {c d : Char} (h : String.ofList [c, d] = closeTag) : c = '<' ∧ d = '/' := by
  have hchars := congrArg String.toList h
  rw [String.toList_ofList] at hchars
  simpa [closeTag] using hchars

/-- A closing tag does not begin before a greater sign. -/
theorem not_greater_of_closeTag {a b d : Char} {r : List Char} {l : Lexeme}
    (h : sign? (a :: b :: d :: r) = some l) (hl : l.length = 2)
    (htag : String.ofList [normalized a, normalized b] = closeTag) : normalized d ≠ '>' := by
  intro hd
  obtain ⟨ha, hb⟩ := closeTag_chars htag
  rw [← sign?_normalized, List.map_cons, List.map_cons, List.map_cons, ha, hb, hd] at h
  cases h
  cases hl

/-- A sign that ends where the text is cut, or before, is the same in the cut text. -/
theorem sign?_cut {cs x y : List Char} (h : Cut x y) (hx : x ≠ [])
    (htag : ['/', '>'] <+: x → ['/', '>'] <+: y ∨ y.head? ≠ some '/') {l : Lexeme}
    (hs : sign? (cs ++ x) = some l) (hl : l.length = cs.length) : sign? (cs ++ y) = some l := by
  match cs with
  | [] =>
    have := (sign?_length hs).1
    rw [hl] at this
    cases this
  | [a] =>
    cases h with
    | @here c x y hc =>
      rw [List.singleton_append, sign?_single_break hc]
      exact sign?_one hs hl
    | @later b x y h =>
      cases h with
      | @here c x y hc =>
        simp only [List.singleton_append] at hs ⊢
        rw [sign?_pair_break hc]
        cases x with
        | nil => exact hs
        | cons d r =>
          rw [← hs]
          refine (sign?_pair (lookup_three_none hs (by simp [hl])) fun hclose hd => ?_).symm
          have hb : b = '/' := (normalized_eq_iff (d := '/') (by decide) b).mp (closeTag_chars hclose).2
          have hd : d = '>' := (normalized_eq_iff (d := '>') (by decide) d).mp hd
          rcases htag (by simp [hb, hd]) with hprefix | hhead
          · have hgreater : c = '>' := by
              rw [List.cons_prefix_cons, List.cons_prefix_cons] at hprefix
              exact hprefix.2.1.symm
            rw [hgreater] at hc
            exact hc.not_second ('=', '>') (by decide) (by decide)
          · exact hhead (by rw [hb]; rfl)
      | @later d x y h =>
        rw [← sign?_take] at hs ⊢
        exact hs
  | [a, b] =>
    cases h with
    | @here c x y hc =>
      obtain ⟨d, r, rfl⟩ := List.exists_cons_of_ne_nil hx
      simp only [List.cons_append, List.nil_append] at hs ⊢
      rw [sign?_pair_break hc, ← hs]
      exact (sign?_pair (lookup_three_none hs (by simp [hl])) (not_greater_of_closeTag hs hl)).symm
    | @later d x y h =>
      rw [← sign?_take] at hs ⊢
      exact hs
  | a :: b :: d :: cs =>
    rw [← sign?_take] at hs ⊢
    exact hs

/-! ## Lexemes and gaps -/

section

variable {cs x y : List Char} (h : Cut x y)

include h

theorem numeral_cut (hx : x ≠ []) (hc : cs ≠ []) (hl : (numeral (cs ++ x)).length = cs.length) :
    numeral (cs ++ y) = numeral (cs ++ x) := by
  have hsame := numeralLength_cut h hx hc hl
  have hlength : numeralLength (cs ++ x) = cs.length := hl
  simp only [numeral, hsame, hlength, List.take_left]

theorem word_cut (hl : (word (cs ++ x)).length = cs.length) : word (cs ++ y) = word (cs ++ x) := by
  simp only [word, takeWhile_cut h (fun c hc => hc.not_wordPart) (Nat.le_of_eq hl)]

/-- A lexeme that ends where the text is cut, or before, is the same in the cut text. The one
character that a lexeme sees without touching it is the greater sign of a tag sign after a less
sign, so it has to stay with the slash. -/
theorem next_cut (hx : x ≠ []) (htag : ['/', '>'] <+: x → ['/', '>'] <+: y ∨ y.head? ≠ some '/')
    (hc : cs ≠ []) (hl : (next (cs ++ x)).length = cs.length) : next (cs ++ y) = next (cs ++ x) := by
  obtain ⟨c, r, rfl⟩ := List.exists_cons_of_ne_nil hc
  rcases next_cases c (r ++ x) with ⟨closing, hq⟩ | ⟨hd, hn⟩ | ⟨hw, hn⟩ | ⟨hpart, hq, hs | ⟨hs, hn⟩⟩
  · simp only [List.cons_append, next_quoted hq, List.length_cons, Nat.add_right_cancel_iff] at hl ⊢
    rw [quotedRest_append hx hl]
  · rw [List.cons_append, hn, ← List.cons_append] at hl
    rw [List.cons_append, List.cons_append, next_numeral hd, hn]
    exact numeral_cut h hx hc hl
  · rw [List.cons_append, hn, ← List.cons_append] at hl
    rw [List.cons_append, List.cons_append, next_word hw, hn]
    exact word_cut h hl
  · rw [← List.cons_append] at hs
    have hcut := sign?_cut h hx htag hs hl
    rw [List.cons_append] at hcut ⊢
    exact next_sign hpart hq hcut
  · rw [List.cons_append, List.cons_append, hn,
      next_stray hpart hq (sign?_none (not_sign_of_sign?_none hs) _)]
    rfl

/-- A break is no second mark of a comment, so no gap begins before it. -/
theorem gap?_cut (hc : cs ≠ []) (hg : gap? (cs ++ x) = none) : gap? (cs ++ y) = none := by
  obtain ⟨c, r, rfl⟩ := List.exists_cons_of_ne_nil hc
  refine gap?_none (not_blank_of_gap?_none hg) ?_
  rintro rfl d hd
  have hopen : ∀ {r : List Char} {d : Char}, gap? ('/' :: d :: r) = none → d ≠ '/' ∧ d ≠ '*' := by
    intro r d hg
    constructor
    · rintro rfl
      cases hg
    · rintro rfl
      cases hg
  cases r with
  | nil =>
    cases h with
    | here hbreak =>
      cases hd
      constructor
      · rintro rfl
        exact hbreak.not_second ('<', '/') (by decide) (by decide)
      · rintro rfl
        exact hbreak.not_second ('*', '*') (by decide) (by decide)
    | later =>
      cases hd
      exact hopen hg
  | cons e r =>
    cases hd
    exact hopen hg

end

end HanScript
