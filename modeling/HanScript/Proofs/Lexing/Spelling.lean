-- How lexemes are read off: a word, a numeral, a quoted text or a sign gives its
-- token and leaves what comes after it to be read next.
import HanScript.Proofs.Lexing.Numeral
import HanScript.Proofs.Lexing.Terminals
import HanScript.Script.Text

namespace HanScript

open Lexeme Text Vocabulary

/-! ## Gaps -/

/-- A slash begins a comment only before another one or before a star. -/
theorem gap?_none {c : Char} {r : List Char} (hb : isBlank c = false)
    (hr : c = '/' → ∀ d ∈ r.head?, d ≠ '/' ∧ d ≠ '*') : gap? (c :: r) = none := by
  unfold gap?
  split
  · rfl
  · rename_i h
    cases h
    exact absurd rfl (hr rfl '/' rfl).1
  · rename_i h
    cases h
    exact absurd rfl (hr rfl '*' rfl).2
  · rename_i h
    cases h
    simp [hb]

theorem gap?_blank {c : Char} (hb : isBlank c) (r : List Char) : gap? (c :: r) = some 1 := by
  unfold gap?
  split
  · rename_i h
    cases h
  · rename_i h
    cases h
    cases hb
  · rename_i h
    cases h
    cases hb
  · rename_i h
    cases h
    simp [hb]

theorem terminals_blank {c : Char} (hb : isBlank c) (r : List Char) :
    terminals (c :: r) = terminals r := by
  rw [terminals_of_gap (gap?_blank hb r)]
  rfl

/-! ## Words -/

/-- The text is one word. -/
def IsWord (x : String) : Prop := x.toList.head?.any isWordStart ∧ x.toList.all isWordPart

theorem not_blank_of_wordPart {c : Char} (h : isWordPart c) : isBlank c = false := by
  by_cases hc : c = '_'
  · rw [hc]
    rfl
  · simp [isWordPart, isWordStart, isDigit, isLatin, isHan, isBlank, blanks, hc, Char.le_def,
      UInt32.le_iff_toNat_le] at h ⊢
    omega

theorem closing?_of_wordPart {c : Char} (h : isWordPart c) : closing? c = none := by
  have hq : ∀ e ∈ quotes, isWordPart e.1 = false := by decide
  refine List.lookup_eq_none_iff.mpr fun e he => ?_
  have hne : c ≠ e.1 := by
    rintro rfl
    rw [hq e he] at h
    cases h
  simpa using hne

/-- No word begins with a slash. -/
theorem gap?_of_wordPart {c : Char} (h : isWordPart c) (r : List Char) : gap? (c :: r) = none := by
  refine gap?_none (not_blank_of_wordPart h) ?_
  rintro rfl
  cases h

theorem next_word {c : Char} (h : isWordStart c) (cs : List Char) : next (c :: cs) = word (c :: cs) := by
  have hpart : isWordPart c := by simp [isWordPart, h]
  simp [next, quoted?, closing?_of_wordPart hpart, not_digit_of_wordStart h, h]

theorem next_numeral {c : Char} (h : isDigit c) (cs : List Char) :
    next (c :: cs) = numeral (c :: cs) := by
  have hpart : isWordPart c := by simp [isWordPart, h]
  simp [next, quoted?, closing?_of_wordPart hpart, h]

theorem terminals_word {x : String} (h : IsWord x) {r : List Char} (hr : Closes r) :
    terminals (x.toList ++ r) = ⟨wordKind x, x⟩ :: terminals r := by
  obtain ⟨hstart, hall⟩ := h
  have hword : word (x.toList ++ r) = ⟨wordKind x, x, x.toList.length⟩ := by
    have hnone : r.takeWhile isWordPart = [] :=
      takeWhile_append_of_head (fun c hc => (hr.head c hc).1) []
    simp [word, List.takeWhile_append_of_pos (List.all_eq_true.mp hall), hnone]
  cases hx : x.toList with
  | nil => simp [hx] at hstart
  | cons c cs =>
    rw [hx] at hstart hword
    have hc : isWordStart c := by simpa using hstart
    have hpart : isWordPart c := by simp [isWordPart, hc]
    exact terminals_append (List.cons_ne_nil c cs) (gap?_of_wordPart hpart _) ((next_word hc _).trans hword) rfl

/-! ## Numerals -/

/-- The text is one numeral. -/
def IsNumeral (x : String) : Prop :=
  x.toList.head?.any isDigit ∧ numeralLength x.toList = x.toList.length

theorem IsNumeral.ne_nil {x : String} (h : IsNumeral x) : x.toList ≠ [] := by
  intro hx
  have hstart := h.1
  rw [hx] at hstart
  cases hstart

theorem IsNumeral.numeralPart {x : String} (h : IsNumeral x) : ∀ c ∈ x.toList, isNumeralPart c := by
  obtain ⟨hstart, hlength⟩ := h
  cases hx : x.toList with
  | nil => simp
  | cons c cs =>
    rw [hx] at hstart hlength
    have hall := all_take_numeralLength (by simpa using hstart) cs
    rw [hlength, List.take_length] at hall
    exact List.all_eq_true.mp hall

theorem terminals_numeral {x : String} (h : IsNumeral x) {r : List Char} (hr : Closes r) :
    terminals (x.toList ++ r) = ⟨.number, x⟩ :: terminals r := by
  have hne := h.ne_nil
  obtain ⟨hstart, hlength⟩ := h
  have hnumeral : numeral (x.toList ++ r) = ⟨.number, x, x.toList.length⟩ := by
    simp [numeral, numeralLength_append hr _ hne, hlength]
  cases hx : x.toList with
  | nil => exact absurd hx hne
  | cons c cs =>
    rw [hx] at hstart hnumeral
    have hc : isDigit c := by simpa using hstart
    have hpart : isWordPart c := by simp [isWordPart, hc]
    exact terminals_append (List.cons_ne_nil c cs) (gap?_of_wordPart hpart _)
      ((next_numeral hc _).trans hnumeral) rfl

/-! ## Quoted texts -/

/-- A text as it stands between two marks. -/
def escaped (mark : Char) (cs : List Char) : List Char :=
  cs.flatMap fun c => if c = mark then ['\\', c] else [c]

/-- Between marks that a backslash may stand before, a text without a backslash is read as it
is. -/
theorem quotedRest_escaped {mark : Char} (hm : mark ≠ '\\') (hu : unescaped mark = mark)
    {cs : List Char} (hc : '\\' ∉ cs) (r : List Char) :
    quotedRest mark (escaped mark cs ++ mark :: r) = (cs, (escaped mark cs).length + 1) := by
  induction cs with
  | nil => cases r <;> simp [escaped, quotedRest]
  | cons c cs ih =>
    simp only [List.mem_cons, not_or] at hc
    have ih := ih hc.2
    by_cases h : c = mark
    · subst h
      simp [escaped, quotedRest, hm.symm, hu] at ih ⊢
      simp [ih]
    · obtain ⟨d, ds, hd⟩ : ∃ d ds, escaped mark cs ++ mark :: r = d :: ds :=
        List.exists_cons_of_ne_nil (by simp)
      have hrest : escaped mark (c :: cs) ++ mark :: r = c :: d :: ds := by
        simp [escaped, h, ← hd]
      rw [hrest, quotedRest, ← hd, ih]
      simp [h, Ne.symm hc.1, escaped]

theorem toList_between (mark : Char) (text : String) :
    (Script.between mark text).toList = mark :: escaped mark text.toList ++ [mark] :=
  String.toList_ofList

theorem terminals_between {mark : Char} (hm : mark = '"' ∨ mark = '\x60') {text : String}
    (ht : '\\' ∉ text.toList) (r : List Char) :
    terminals ((Script.between mark text).toList ++ r) =
      ⟨if mark = templateQuote then .template else .string, text⟩ :: terminals r := by
  have hne : mark ≠ '\\' := by rcases hm with rfl | rfl <;> decide
  have hu : unescaped mark = mark := by rcases hm with rfl | rfl <;> rfl
  have hclosing : closing? mark = some mark := by rcases hm with rfl | rfl <;> rfl
  have hblank : isBlank mark = false := by rcases hm with rfl | rfl <;> rfl
  have hslash : mark ≠ '/' := by rcases hm with rfl | rfl <;> decide
  have htext : (Script.between mark text).toList = mark :: (escaped mark text.toList ++ [mark]) :=
    toList_between mark text
  have hnext : next ((Script.between mark text).toList ++ r) =
      ⟨if mark = templateQuote then .template else .string, text,
        (Script.between mark text).toList.length⟩ := by
    simp [htext, next, quoted?, hclosing, quotedRest_escaped hne hu ht]
  refine terminals_append (by simp [htext]) ?_ hnext rfl
  rw [htext]
  exact gap?_none hblank fun h => absurd h hslash

/-! ## Signs -/

/-- How the signs of more than one character begin. -/
def signPairs : List (Char × Char) :=
  [('.', '.'), ('=', '='), ('!', '='), ('<', '='), ('>', '='), ('&', '&'), ('|', '|'), ('+', '='),
   ('-', '='), ('*', '='), ('/', '='), ('%', '='), ('=', '>'), ('*', '*'), ('?', '.'), ('?', '?'),
   ('<', '/'), ('/', '>')]

/-- A text that does not begin like a longer sign is none. -/
theorem lookup_none {table : List (String × TokenKind)}
    (ht : ∀ e ∈ table, ∃ p ∈ signPairs, e.1.toList.take 2 = [p.1, p.2]) {cs : List Char}
    (hc : ∀ p ∈ signPairs, cs.take 2 ≠ [p.1, p.2]) : table.lookup (String.ofList cs) = none := by
  cases h : table.lookup (String.ofList cs) with
  | none => rfl
  | some kind =>
    obtain ⟨p, hp, he⟩ := ht _ (mem_of_lookup h)
    rw [String.toList_ofList] at he
    exact absurd he (hc p hp)

/-- A character that no longer sign begins with is a sign of its own. -/
theorem sign?_cons {c : Char} {r : List Char}
    (hr : ∀ d ∈ r.head?, (normalized c, normalized d) ∉ signPairs) :
    sign? (c :: r) = (oneSign.lookup (String.ofList [normalized c])).map
      fun kind => ⟨kind, String.ofList [normalized c], 1⟩ := by
  have hthree : ∀ e ∈ threeSigns, ∃ p ∈ signPairs, e.1.toList.take 2 = [p.1, p.2] := by decide
  have htwo : ∀ e ∈ twoSigns, ∃ p ∈ signPairs, e.1.toList.take 2 = [p.1, p.2] := by decide
  have hbegin : ∀ p ∈ signPairs, (((c :: r).take 3).map normalized).take 2 ≠ [p.1, p.2] := by
    intro p hp h
    cases r with
    | nil => simp at h
    | cons d r =>
      simp at h
      exact hr d rfl (by rw [h.1, h.2]; exact hp)
  have htags : ∀ tag, (tag = closeTag ∨ tag = selfClose) →
      String.ofList ((((c :: r).take 3).map normalized).take 2) ≠ tag := by
    intro tag htag h
    have hchars := congrArg String.toList h
    rw [String.toList_ofList] at hchars
    rcases htag with rfl | rfl
    · exact hbegin ('<', '/') (by decide) hchars
    · exact hbegin ('/', '>') (by decide) hchars
  have hbegin' : ∀ p ∈ signPairs,
      ((((c :: r).take 3).map normalized).take 2).take 2 ≠ [p.1, p.2] := by
    intro p hp
    rw [List.take_take]
    exact hbegin p hp
  simp only [sign?, lookup_none hthree hbegin, htags _ (.inl rfl), htags _ (.inr rfl),
    lookup_none htwo hbegin', false_and, if_false]
  simp

/-- Signs begin with a character that is a sign of its own. -/
theorem sign?_none {c : Char} (h : oneSign.lookup (String.ofList [normalized c]) = none)
    (r : List Char) : sign? (c :: r) = none := by
  have hfirst : ∀ p ∈ signPairs, (oneSign.lookup (String.ofList [p.1])).isSome := by decide
  rw [sign?_cons, h]
  · rfl
  · intro d _ hp
    have := hfirst _ hp
    rw [h] at this
    cases this

theorem next_sign {c : Char} {r : List Char} {l : Lexeme} (hpart : isWordPart c = false)
    (hq : closing? c = none) (hs : sign? (c :: r) = some l) : next (c :: r) = l := by
  simp only [isWordPart, Bool.or_eq_false_iff] at hpart
  simp [next, quoted?, hq, hpart, hs]

theorem next_stray {c : Char} {r : List Char} (hpart : isWordPart c = false) (hq : closing? c = none)
    (hs : sign? (c :: r) = none) : next (c :: r) = stray (c :: r) := by
  simp only [isWordPart, Bool.or_eq_false_iff] at hpart
  simp [next, quoted?, hq, hpart, hs]

theorem next_quoted {c closing : Char} (hq : closing? c = some closing) (r : List Char) :
    next (c :: r) = ⟨if c = templateQuote then .template else .string,
      String.ofList (quotedRest closing r).1, (quotedRest closing r).2 + 1⟩ := by
  simp only [next, quoted?, hq, Option.map_some]

/-- The first character says what the next lexeme is. Where it begins neither a text nor a numeral
nor a word, there is a sign, or the character is a stray one. -/
theorem next_cases (c : Char) (r : List Char) :
    (∃ closing, closing? c = some closing) ∨
    (isDigit c ∧ next (c :: r) = numeral (c :: r)) ∨
    (isWordStart c ∧ next (c :: r) = word (c :: r)) ∨
    (isWordPart c = false ∧ closing? c = none ∧
      (sign? (c :: r) = some (next (c :: r)) ∨
        sign? (c :: r) = none ∧ next (c :: r) = stray (c :: r))) := by
  cases hq : closing? c with
  | some closing => exact .inl ⟨closing, rfl⟩
  | none =>
    by_cases hd : isDigit c
    · exact .inr (.inl ⟨hd, next_numeral hd r⟩)
    · by_cases hw : isWordStart c
      · exact .inr (.inr (.inl ⟨hw, next_word hw r⟩))
      · have hpart : isWordPart c = false := by simp [isWordPart, hd, hw]
        refine .inr (.inr (.inr ⟨hpart, rfl, ?_⟩))
        cases hs : sign? (c :: r) with
        | some l => exact .inl (congrArg some (next_sign hpart hq hs).symm)
        | none => exact .inr ⟨rfl, next_stray hpart hq hs⟩

/-- All the signs. -/
def signs : List (String × TokenKind) := threeSigns ++ twoSigns ++ oneSign

/-- A sign is nothing else than a sign. -/
theorem sign_head {e : String × TokenKind} (he : e ∈ signs) {c : Char} {cs : List Char}
    (hc : e.1.toList = c :: cs) :
    isWordPart c = false ∧ closing? c = none ∧ isBlank c = false ∧ normalized c = c := by
  have hall : ∀ e ∈ signs, e.1.toList.head?.all fun c =>
      isWordPart c = false ∧ closing? c = none ∧ isBlank c = false ∧ normalized c = c := by decide
  have hhead := hall e he
  rw [hc] at hhead
  exact of_decide_eq_true hhead

/-- A sign of one character before something that makes no longer sign of it. -/
theorem terminals_sign {s : String} {kind : TokenKind} {c : Char} {r : List Char}
    (he : (s, kind) ∈ oneSign) (hs : s.toList = [c]) (hslash : c ≠ '/')
    (hr : ∀ d ∈ r.head?, (c, normalized d) ∉ signPairs) :
    terminals (c :: r) = ⟨kind, s⟩ :: terminals r := by
  obtain ⟨hpart, hq, hblank, hnormal⟩ := sign_head (List.mem_append_right _ he) hs
  have hlookup : ∀ e ∈ oneSign, oneSign.lookup e.1 = some e.2 := by decide
  have hsign : sign? (c :: r) = some ⟨kind, s, 1⟩ := by
    rw [sign?_cons (by rwa [hnormal]), hnormal, ← hs, String.ofList_toList, hlookup _ he]
    rfl
  exact terminals_append (List.cons_ne_nil c []) (gap?_none hblank fun h => absurd h hslash)
    (next_sign hpart hq hsign) rfl

theorem sign?_operator {e : String × TokenKind} (he : e ∈ signs) (r : List Char) :
    sign? (e.1.toList ++ ' ' :: r) = some ⟨e.2, e.1, e.1.toList.length⟩ := by
  rcases List.mem_append.mp he with hlong | hone
  · have hall : ∀ e ∈ threeSigns ++ twoSigns,
        sign? (e.1.toList ++ ' ' :: r) = some ⟨e.2, e.1, e.1.toList.length⟩ := by
      simp only [threeSigns, twoSigns, List.cons_append, List.nil_append, List.forall_mem_cons]
      exact ⟨rfl, rfl, rfl, rfl, rfl, rfl, rfl, rfl, rfl, rfl, rfl, rfl, rfl, rfl, rfl, rfl, rfl, rfl, nofun⟩
    exact hall e hlong
  · have hlength : ∀ e ∈ oneSign, e.1.toList.length = 1 := by decide
    have hlookup : ∀ e ∈ oneSign, oneSign.lookup e.1 = some e.2 := by decide
    have hblank : ∀ p ∈ signPairs, p.2 ≠ ' ' := by decide
    obtain ⟨c, hc⟩ := List.length_eq_one_iff.mp (hlength e hone)
    have hnormal := (sign_head he hc).2.2.2
    rw [hc, List.singleton_append, sign?_cons, hnormal, ← hc, String.ofList_toList, hlookup e hone]
    · rw [hc]
      rfl
    · intro d hd hp
      cases hd
      exact hblank _ hp rfl

/-- A sign before a blank is never part of a longer one, nor of a comment. -/
theorem terminals_operator {e : String × TokenKind} (he : e ∈ signs) (r : List Char) :
    terminals (e.1.toList ++ ' ' :: r) = ⟨e.2, e.1⟩ :: terminals r := by
  have hcomment : ∀ e ∈ signs, e.1.toList.head? = some '/' →
      (e.1.toList.tail ++ [' ']).head?.all fun d => d ≠ '/' ∧ d ≠ '*' := by decide
  have hsign := sign?_operator he r
  cases hc : e.1.toList with
  | nil =>
    have hne : ∀ e ∈ signs, e.1.toList ≠ [] := by decide
    exact absurd hc (hne e he)
  | cons c cs =>
    obtain ⟨hpart, hq, hblank, -⟩ := sign_head he hc
    rw [hc] at hsign
    have hgap : gap? (c :: cs ++ ' ' :: r) = none := by
      refine gap?_none hblank fun hslash d hd => ?_
      subst hslash
      have hnext := hcomment e he (by rw [hc]; rfl)
      rw [hc] at hnext
      cases cs <;> cases hd <;> exact of_decide_eq_true hnext
    rw [terminals_append (List.cons_ne_nil c cs) hgap (next_sign hpart hq hsign) rfl,
      terminals_blank rfl]
    rfl

end HanScript
