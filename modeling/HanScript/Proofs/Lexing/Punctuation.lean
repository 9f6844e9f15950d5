-- Chinese and ASCII punctuation are interchangeable. A text in which each mark
-- is replaced by the sign that it is read as has the same tokens in the same
-- places: the scanners of the two texts go side by side.
import HanScript.Proofs.Lexing.Lexical

namespace HanScript

open Lexeme Text Vocabulary

/-! ## Single marks -/

theorem normalized_cases (c : Char) : (c, normalized c) ∈ punctuation ∨ normalized c = c := by
  unfold normalized
  cases h : punctuation.lookup c with
  | none => exact .inr rfl
  | some d => exact .inl (mem_of_lookup h)

/-- What a mark has in common with the sign that it is read as. -/
theorem normalized_agrees {α : Type} {f : Char → α} (h : ∀ e ∈ punctuation, f e.2 = f e.1)
    (c : Char) : f (normalized c) = f c := by
  rcases normalized_cases c with hc | hc
  · exact h _ hc
  · rw [hc]

/-- A character that is neither a mark nor the sign of one is read as itself, and nothing else is
read as it. -/
theorem normalized_eq_iff {d : Char} (h : ∀ e ∈ punctuation, e.1 ≠ d ∧ e.2 ≠ d) (c : Char) :
    normalized c = d ↔ c = d := by
  rcases normalized_cases c with hc | hc
  · have hne := h _ hc
    exact ⟨fun he => absurd he hne.2, fun he => absurd he hne.1⟩
  · rw [hc]

@[simp] theorem normalized_normalized (c : Char) : normalized (normalized c) = normalized c :=
  normalized_agrees (by decide) c

/-- The marks are those characters that are not read as themselves. -/
theorem normalized_ne_iff {c : Char} : normalized c ≠ c ↔ c ∈ punctuation.map Prod.fst := by
  constructor
  · intro h
    exact List.mem_map_of_mem ((normalized_cases c).resolve_right h)
  · intro h
    have hall : ∀ e ∈ punctuation, normalized e.1 ≠ e.1 := by decide
    obtain ⟨e, he, rfl⟩ := List.mem_map.mp h
    exact hall e he

/-- There are no marks in numerals, nor in words. -/
theorem normalized_of_numeralPart {c : Char} (h : isNumeralPart c) : normalized c = c := by
  have hall : ∀ e ∈ punctuation, isNumeralPart e.1 = false := by decide
  rcases normalized_cases c with hmark | hsame
  · rw [hall _ hmark] at h
    cases h
  · exact hsame

theorem normalized_of_wordPart {c : Char} (h : isWordPart c) : normalized c = c :=
  normalized_of_numeralPart (isNumeralPart_of_wordPart h)

theorem map_normalized_eq_iff {cs : List Char} :
    cs.map normalized = cs ↔ ∀ c ∈ cs, normalized c = c := by
  have h := List.map_inj_left (l := cs) (f := normalized) (g := id)
  rwa [List.map_id] at h

/-! ## Gaps -/

theorem takeWhile_normalized {p : Char → Bool} (h : ∀ e ∈ punctuation, p e.2 = p e.1)
    (cs : List Char) : (cs.map normalized).takeWhile p = (cs.takeWhile p).map normalized := by
  rw [List.takeWhile_map]
  congr 1
  congr 1
  funext c
  exact normalized_agrees h c

theorem blockRest_normalized (cs : List Char) : blockRest (cs.map normalized) = blockRest cs := by
  have hstar := normalized_eq_iff (d := '*') (by decide)
  have hslash := normalized_eq_iff (d := '/') (by decide)
  fun_induction blockRest cs with
  | case1 => rfl
  | case2 cs => rfl
  | case3 c cs hc ih =>
    rw [List.map_cons, blockRest, ih]
    intro rest hfirst hsecond
    cases cs with
    | nil => cases hsecond
    | cons d cs =>
      rw [List.map_cons, List.cons.injEq] at hsecond
      exact hc cs ((hstar c).mp hfirst) (by rw [(hslash d).mp hsecond.1])

/-- Where no comment begins, there is a gap only if there is a blank. -/
theorem gap?_of_no_comment {c : Char} {r : List Char}
    (hr : c = '/' → ∀ d ∈ r.head?, d ≠ '/' ∧ d ≠ '*') :
    gap? (c :: r) = if isBlank c then some 1 else none := by
  unfold gap?
  split
  · rename_i h
    cases h
  · rename_i h
    cases h
    exact absurd rfl (hr rfl '/' rfl).1
  · rename_i h
    cases h
    exact absurd rfl (hr rfl '*' rfl).2
  · rename_i h
    cases h
    rfl

theorem gap?_normalized (cs : List Char) : gap? (cs.map normalized) = gap? cs := by
  have hstar := normalized_eq_iff (d := '*') (by decide)
  have hslash := normalized_eq_iff (d := '/') (by decide)
  have hblank : ∀ c, isBlank (normalized c) = isBlank c := normalized_agrees (by decide)
  have hline := takeWhile_normalized (p := (· != '\n')) (by decide)
  have hplain : ∀ (c : Char) (cs : List Char), (∀ rest, c = '/' → cs = '/' :: rest → False) →
      (∀ rest, c = '/' → cs = '*' :: rest → False) →
      normalized c = '/' → ∀ d ∈ (cs.map normalized).head?, d ≠ '/' ∧ d ≠ '*' := by
    intro c cs h1 h2 hc d hd
    cases cs with
    | nil => cases hd
    | cons x cs =>
      cases hd
      rw [hslash] at hc
      constructor
      · intro hx
        exact h1 cs hc (by rw [(hslash x).mp hx])
      · intro hx
        exact h2 cs hc (by rw [(hstar x).mp hx])
  fun_cases gap? cs with
  | case1 => rfl
  | case2 cs =>
    have hsigns : normalized '/' = '/' := rfl
    rw [List.map_cons, List.map_cons, hsigns, gap?, hline, List.length_map]
  | case3 cs =>
    have hsigns : normalized '/' = '/' ∧ normalized '*' = '*' := ⟨rfl, rfl⟩
    rw [List.map_cons, List.map_cons, hsigns.1, hsigns.2, gap?, blockRest_normalized]
  | case4 c cs hline hblock hb =>
    rw [List.map_cons, gap?_of_no_comment (hplain c cs hline hblock), hblank, if_pos hb]
  | case5 c cs hline hblock hb =>
    rw [List.map_cons, gap?_of_no_comment (hplain c cs hline hblock), hblank, if_neg hb]

/-! ## Quoted texts -/

theorem unescaped_normalized (c : Char) : unescaped (normalized c) = normalized (unescaped c) := by
  rcases normalized_cases c with hc | hc
  · have hall : ∀ e ∈ punctuation, unescaped e.2 = normalized (unescaped e.1) := by decide
    exact hall _ hc
  · rw [hc]
    unfold unescaped
    cases h : escapes.lookup c with
    | none => exact hc.symm
    | some d =>
      have hall : ∀ e ∈ escapes, normalized e.2 = e.2 := by decide
      exact (hall _ (mem_of_lookup h)).symm

theorem quotedRest_normalized {closing : Char} (h : ∀ e ∈ punctuation, e.1 ≠ closing ∧ e.2 ≠ closing)
    (cs : List Char) :
    quotedRest closing (cs.map normalized) =
      ((quotedRest closing cs).1.map normalized, (quotedRest closing cs).2) := by
  have hclosing := normalized_eq_iff h
  have hbackslash := normalized_eq_iff (d := '\\') (by decide)
  fun_induction quotedRest closing cs with
  | case1 => rfl
  | case2 => simp [quotedRest, hclosing]
  | case3 hne => simp [quotedRest, hclosing, hbackslash, hne]
  | case4 c hne hb => simp [quotedRest, hclosing, hbackslash, hne, hb]
  | case5 => simp [quotedRest, hclosing]
  | case6 d cs value n hrest hne ih =>
    rw [hrest] at ih
    simp [quotedRest, hclosing, hbackslash, hne, ih, unescaped_normalized]
  | case7 c d cs hne hb value n hrest ih =>
    rw [hrest, List.map_cons] at ih
    simp [quotedRest, hclosing, hbackslash, hne, hb, ih]

/-! ## Numerals -/

/-- No ideographic full stop stands between two digits. -/
def Unpointed (cs : List Char) : Prop :=
  ∀ a b, isDigit a → isDigit b → ¬ [a, '。', b] <:+: cs

theorem Unpointed.of_suffix {cs ds : List Char} (h : Unpointed cs) (hs : ds <:+ cs) :
    Unpointed ds := by
  intro a b ha hb hi
  exact h a b ha hb (hi.trans hs.isInfix)

theorem digitCount_normalized (cs : List Char) : digitCount (cs.map normalized) = digitCount cs := by
  unfold digitCount
  rw [takeWhile_normalized (by decide), List.length_map]

/-- A point that is read as one begins no fraction after a digit, since no digit follows it. -/
theorem fractionLength_normalized {x : Char} {cs : List Char} (hx : isDigit x)
    (h : Unpointed (x :: cs)) : fractionLength (cs.map normalized) = fractionLength cs := by
  cases cs with
  | nil => rfl
  | cons c cs =>
    by_cases hpoint : normalized c = '.'
    · have hdigits := digitCount_normalized cs
      rcases normalized_cases c with hc | hc
      · -- The only mark that is read as a point is the full stop.
        have hmark : ∀ e ∈ punctuation, e.2 = '.' → e.1 = '。' := by decide
        obtain rfl := hmark _ hc hpoint
        have hnone : digitCount cs = 0 := by
          cases cs with
          | nil => rfl
          | cons b cs =>
            by_cases hb : isDigit b
            · exact absurd (List.prefix_append [x, '。', b] cs).isInfix (h x b hx hb)
            · simp [digitCount, hb]
        simp [hpoint, fractionLength, hdigits, hnone]
      · rw [hc] at hpoint
        subst hpoint
        simp [hc, fractionLength, hdigits]
    · have hc : c ≠ '.' := by
        rintro rfl
        exact hpoint rfl
      simp [fractionLength, hpoint, hc]

theorem signLength_normalized (cs : List Char) : signLength (cs.map normalized) = signLength cs := by
  have hplus := normalized_eq_iff (d := '+') (by decide)
  have hminus := normalized_eq_iff (d := '-') (by decide)
  cases cs with
  | nil => rfl
  | cons c cs =>
    by_cases hp : c = '+'
    · subst hp
      rfl
    · by_cases hm : c = '-'
      · subst hm
        rfl
      · simp [signLength, hp, hm, hplus, hminus]

theorem exponentLength_normalized (cs : List Char) :
    exponentLength (cs.map normalized) = exponentLength cs := by
  have hlower := normalized_eq_iff (d := 'e') (by decide)
  have hupper := normalized_eq_iff (d := 'E') (by decide)
  cases cs with
  | nil => rfl
  | cons c cs =>
    simp only [List.map_cons, exponentLength, hlower, hupper, signLength_normalized, ← List.map_drop,
      digitCount_normalized]

/-- What comes after some digits still has a digit before it. -/
theorem Unpointed.drop_digits {x : Char} {cs : List Char} (hx : isDigit x) (h : Unpointed (x :: cs)) :
    ∃ y, isDigit y ∧ Unpointed (y :: cs.drop (digitCount cs)) := by
  induction cs generalizing x with
  | nil => exact ⟨x, hx, h⟩
  | cons c cs ih =>
    by_cases hc : isDigit c
    · obtain ⟨y, hy, hrest⟩ := ih hc (h.of_suffix (List.suffix_cons x (c :: cs)))
      exact ⟨y, hy, by simpa [digitCount, hc] using hrest⟩
    · exact ⟨x, hx, by simpa [digitCount, hc] using h⟩

theorem decimalLength_normalized {x : Char} {cs : List Char} (hx : isDigit x)
    (h : Unpointed (x :: cs)) : decimalLength (cs.map normalized) = decimalLength cs := by
  obtain ⟨y, hy, hrest⟩ := h.drop_digits hx
  simp only [decimalLength, digitCount_normalized, ← List.map_drop,
    fractionLength_normalized hy hrest, exponentLength_normalized]

theorem baseDigit?_normalized (c : Char) : baseDigit? (normalized c) = baseDigit? c :=
  normalized_agrees (by simp [punctuation, baseDigit?]) c

/-- The digits of a base are none of the marks, nor of their signs. -/
theorem baseDigit?_agrees {d : Char} {ok : Char → Bool} (h : baseDigit? d = some ok) :
    ∀ e ∈ punctuation, ok e.2 = ok e.1 := by
  have hparts : ∀ e ∈ punctuation, isWordPart e.1 = false ∧ isWordPart e.2 = false := by decide
  have hnone : ∀ c, isWordPart c = false → ok c = false := by
    intro c hc
    cases hok : ok c with
    | false => rfl
    | true =>
      rw [isWordPart_of_baseDigit h hok] at hc
      cases hc
  intro e he
  rw [hnone _ (hparts e he).1, hnone _ (hparts e he).2]

theorem numeralLength_normalized {c : Char} {cs : List Char} (hc : isDigit c)
    (h : Unpointed (c :: cs)) :
    numeralLength ((c :: cs).map normalized) = numeralLength (c :: cs) := by
  have hsame : normalized c = c := normalized_of_wordPart (by simp [isWordPart, hc])
  cases cs with
  | nil => rfl
  | cons d cs =>
    simp only [List.map_cons, numeralLength, hsame, baseDigit?_normalized]
    split
    · rename_i ok hbase
      have hok := baseDigit?_agrees (baseDigit?_of_zero hbase)
      rw [takeWhile_normalized hok, List.length_map]
    · rw [← List.map_cons, decimalLength_normalized hc h]

/-! ## Lexemes -/

/-- The text with the sign that each of its characters is read as. -/
def normalizedText (text : String) : String := String.ofList (text.toList.map normalized)

@[simp] theorem toList_normalizedText (text : String) :
    (normalizedText text).toList = text.toList.map normalized := String.toList_ofList

@[simp] theorem normalizedText_ofList (cs : List Char) :
    normalizedText (String.ofList cs) = String.ofList (cs.map normalized) := by
  rw [normalizedText, String.toList_ofList]

/-- A text stays as it is exactly if there is no mark in it. -/
theorem normalizedText_eq_iff {text : String} :
    normalizedText text = text ↔ ∀ c ∈ text.toList, c ∉ punctuation.map Prod.fst := by
  rw [← String.toList_inj, toList_normalizedText, map_normalized_eq_iff]
  simp only [← normalized_ne_iff, ne_eq, Decidable.not_not]

def Lexeme.normal (l : Lexeme) : Lexeme := { l with value := normalizedText l.value }

theorem quoted?_normalized (cs : List Char) :
    quoted? (cs.map normalized) = (quoted? cs).map Lexeme.normal := by
  cases cs with
  | nil => rfl
  | cons c cs =>
    have hopening : closing? (normalized c) = closing? c := normalized_agrees (by decide) c
    have htemplate := normalized_eq_iff (d := templateQuote) (by decide) c
    simp only [List.map_cons, quoted?, hopening, htemplate, Option.map_map]
    cases h : closing? c with
    | none => rfl
    | some closing =>
      have hclosing : ∀ q ∈ quotes, ∀ e ∈ punctuation, e.1 ≠ q.2 ∧ e.2 ≠ q.2 := by decide
      simp [quotedRest_normalized (hclosing _ (mem_of_lookup h)), Lexeme.normal]

theorem numeral_normalized {c : Char} {cs : List Char} (hc : isDigit c) (h : Unpointed (c :: cs)) :
    numeral ((c :: cs).map normalized) = (numeral (c :: cs)).normal := by
  unfold numeral Lexeme.normal
  rw [numeralLength_normalized hc h, ← List.map_take, normalizedText_ofList]

/-- There are no marks in words. -/
theorem takeWhile_wordPart_normalized (cs : List Char) :
    (cs.takeWhile isWordPart).map normalized = cs.takeWhile isWordPart := by
  rw [map_normalized_eq_iff]
  intro c hc
  exact normalized_of_wordPart (List.all_eq_true.mp List.all_takeWhile c hc)

theorem word_normalized (cs : List Char) : word (cs.map normalized) = (word cs).normal := by
  unfold word Lexeme.normal
  simp only [takeWhile_normalized (p := isWordPart) (by decide), takeWhile_wordPart_normalized,
    normalizedText_ofList]

theorem sign?_normalized (cs : List Char) : sign? (cs.map normalized) = sign? cs := by
  have hwindow : ((cs.map normalized).take 3).map normalized = (cs.take 3).map normalized := by
    rw [← List.map_take, List.map_map]
    congr 1
    funext c
    exact normalized_normalized c
  unfold sign?
  rw [hwindow]

/-- The signs are read through the table, so there are no marks in them. -/
theorem normalizedText_of_sign {e : String × TokenKind} (he : e ∈ signsAndTags) :
    normalizedText e.1 = e.1 := by
  have hall : ∀ e ∈ signsAndTags, normalizedText e.1 = e.1 := by decide
  exact hall e he

theorem stray_normalized (cs : List Char) : stray (cs.map normalized) = (stray cs).normal := by
  unfold stray Lexeme.normal
  rw [← List.map_take, List.length_map, normalizedText_ofList]

theorem next_normalized {cs : List Char} (h : Unpointed cs) :
    next (cs.map normalized) = (next cs).normal := by
  cases cs with
  | nil => rfl
  | cons c cs =>
    have hdigit : isDigit (normalized c) = isDigit c := normalized_agrees (by decide) c
    have hstart : isWordStart (normalized c) = isWordStart c := normalized_agrees (by decide) c
    by_cases hc : isDigit c
    · rw [List.map_cons, next_numeral (hdigit.trans hc), next_numeral hc, ← List.map_cons,
        numeral_normalized hc h]
    · by_cases hw : isWordStart c
      · rw [List.map_cons, next_word (hstart.trans hw), next_word hw, ← List.map_cons,
          word_normalized]
      · have hother : next ((c :: cs).map normalized) =
            ((quoted? (c :: cs)).map Lexeme.normal).getD
              ((sign? (c :: cs)).getD (stray ((c :: cs).map normalized))) := by
          rw [← quoted?_normalized, ← sign?_normalized, next]
          cases quoted? ((c :: cs).map normalized) <;> simp [hdigit, hstart, hc, hw]
        rw [hother, next]
        cases hq : quoted? (c :: cs) with
        | some l => rfl
        | none =>
          cases hs : sign? (c :: cs) with
          | some l =>
            have hvalue := normalizedText_of_sign (sign?_mem hs)
            simp [Lexeme.normal, hvalue, hc, hw]
          | none => simpa [hc, hw] using stray_normalized (c :: cs)

/-! ## The scanner -/

def Token.normal (t : Token) : Token := { t with value := normalizedText t.value }

theorem Place.after_normalized (p : Place) (cs : List Char) :
    p.after (cs.map normalized) = p.after cs := by
  have hbreak := normalized_eq_iff (d := '\n') (by decide)
  unfold after
  rw [List.foldl_map]
  congr 1
  funext q c
  unfold step
  simp only [hbreak]

namespace Scanner

/-- The scanner of the text with the sign that each character is read as. -/
def normal (s : Scanner) : Scanner :=
  { s with
    behind := s.behind.map normalized
    ahead := s.ahead.map normalized
    collected := s.collected.map Token.normal }

theorem advance_normal (s : Scanner) (n : Nat) : s.normal.advance n = (s.advance n).normal := by
  simp [advance, normal, ← List.map_take, ← List.map_drop, Place.after_normalized]

theorem accept_normal (s : Scanner) (l : Lexeme) :
    s.mark.normal.accept l.normal = (s.mark.accept l).normal := by
  unfold accept
  rw [Lexeme.normal, advance_normal]
  rfl

theorem scan_normal {s : Scanner} (h : Unpointed s.ahead) : s.normal.scan = s.scan.normal := by
  unfold scan
  have hgap : gap? s.normal.ahead = gap? s.ahead := gap?_normalized s.ahead
  have hnext : next s.normal.ahead = (next s.ahead).normal := next_normalized h
  rw [hgap, hnext]
  cases gap? s.ahead with
  | some n => exact advance_normal s n
  | none => exact accept_normal s (next s.ahead)

/-- What is ahead after a scan was ahead before it. -/
theorem ahead_scan_suffix (s : Scanner) : s.scan.ahead <:+ s.ahead := by
  unfold scan
  split
  · exact List.drop_suffix _ _
  · exact List.drop_suffix _ _

theorem scanTimes_normal (n : Nat) {s : Scanner} (h : Unpointed s.ahead) :
    scanTimes n s.normal = (scanTimes n s).normal := by
  induction n generalizing s with
  | zero => rfl
  | succ n ih =>
    have hempty : s.normal.ahead.isEmpty = s.ahead.isEmpty := by
      unfold normal
      exact List.isEmpty_map
    unfold scanTimes
    rw [hempty, scan_normal h, ih (h.of_suffix (ahead_scan_suffix s))]
    split
    · rfl
    · rfl

theorem scanAll_normal {s : Scanner} (h : Unpointed s.ahead) : s.normal.scanAll = s.scanAll.normal := by
  have hlength : s.normal.ahead.length = s.ahead.length := List.length_map _
  unfold scanAll
  rw [hlength, scanTimes_normal s.ahead.length h]
  rfl

end Scanner

theorem tokenize_normalized {source : String} (h : Unpointed source.toList) :
    tokenize (normalizedText source) = (tokenize source).map Token.normal := by
  have hstart : Scanner.ofSource (normalizedText source) = (Scanner.ofSource source).normal := by
    simp [Scanner.ofSource, Scanner.normal]
  unfold tokenize Scanner.tokens
  rw [hstart, Scanner.scanAll_normal h, List.map_reverse]
  rfl

/-! ## The values of tokens -/

/-- A mark that is not in a text is read as a sign. -/
theorem IsStray.normalized_eq {c : Char} (h : IsStray c) : normalized c = c := by
  have hall : ∀ e ∈ punctuation, (oneSign.lookup (String.ofList [e.2])).isSome := by decide
  rcases normalized_cases c with hc | hc
  · have hsign := hall _ hc
    rw [h.not_sign] at hsign
    cases hsign
  · exact hc

theorem TokenForm.normalizedText_eq {t : Terminal} (h : TokenForm t) (hs : t.kind ≠ .string)
    (ht : t.kind ≠ .template) : normalizedText t.value = t.value := by
  cases h with
  | string => exact absurd rfl hs
  | template => exact absurd rfl ht
  | number hx =>
    rw [← String.toList_inj, toList_normalizedText, map_normalized_eq_iff]
    intro c hc
    exact normalized_of_numeralPart (hx.numeralPart c hc)
  | word hx =>
    rw [← String.toList_inj, toList_normalizedText, map_normalized_eq_iff]
    intro c hc
    exact normalized_of_wordPart (List.all_eq_true.mp hx.2 c hc)
  | sign he => exact normalizedText_of_sign he
  | stray hc => simp only [normalizedText_ofList, List.map_cons, List.map_nil, hc.normalized_eq]

/-- Chinese and ASCII punctuation are interchangeable. If no full stop stands between two digits,
then the text with the sign that each of its characters is read as has the same tokens in the same
places, with their values read in the same way. These are the values that they had, unless a token
is a text with a mark in it. -/
theorem punctuation_is_interchangeable {source : String} (h : Unpointed source.toList) :
    tokenize (normalizedText source) = (tokenize source).map Token.normal ∧
    ∀ t ∈ tokenize source, t.normal = t ↔
      ¬ ((t.kind = .string ∨ t.kind = .template) ∧
        ∃ c ∈ t.value.toList, c ∈ punctuation.map Prod.fst) := by
  refine ⟨tokenize_normalized h, fun t ht => ?_⟩
  have hnormal : t.normal = t ↔ normalizedText t.value = t.value := by
    constructor
    · exact congrArg Token.value
    · intro hvalue
      simp only [Token.normal, hvalue]
  rw [hnormal]
  constructor
  · rintro hvalue ⟨-, c, hc, hmark⟩
    exact normalizedText_eq_iff.mp hvalue c hc hmark
  · intro hno
    by_cases hkind : t.kind = .string ∨ t.kind = .template
    · refine normalizedText_eq_iff.mpr fun c hc hmark => ?_
      exact hno ⟨hkind, c, hc, hmark⟩
    · rw [not_or] at hkind
      rcases tokenForm_or_end ht with hform | hend
      · exact hform.normalizedText_eq hkind.1 hkind.2
      · rw [show t.value = "" from congrArg Terminal.value hend]
        rfl

/-- A call written in Chinese punctuation. -/
def listing : String := "甲。加（【1，2.5】，“好！”）；"

theorem listing_in_ascii :
    Unpointed listing.toList ∧
      tokenize "甲.加([1,2.5],“好!”);" = (tokenize listing).map Token.normal := by
  have h : Unpointed listing.toList := by
    intro a b ha hb hi
    have hstop : a = '甲' ∧ b = '加' := by
      simpa [listing, List.infix_cons_iff, List.cons_prefix_cons] using hi
    rw [hstop.1] at ha
    cases ha
  exact ⟨h, (punctuation_is_interchangeable h).1⟩

/-- Between two digits a full stop makes no fraction, but a point does. -/
example : (tokenize "1。5").length = 4 ∧ (tokenize (normalizedText "1。5")).length = 2 := by decide

end HanScript
