-- What becomes of a text between two marks. Only the marks inside it are given
-- a backslash, so it comes back as it was exactly if it has no backslash of its
-- own, and its line breaks stay line breaks.
import HanScript.Proofs.Lexing.Spelling
import HanScript.Script.Expression

namespace HanScript

open Lexeme Vocabulary

/-! ## What a literal stands for -/

/-- What may stand after a backslash, for the scanner and in JavaScript alike. The mark may always. -/
def sharedEscapes (mark : Char) : List (Char × Char) :=
  [('n', '\n'), ('t', '\t'), ('r', '\r'), ('\\', '\\'), ('"', '"'), ('\x27', '\x27'), (mark, mark)]

/-- The characters between two marks stand for the value: a backslash with the character after it
for what the table says, and every other character but the mark for itself. -/
inductive StandsFor (mark : Char) : List Char → List Char → Prop where
  | nil : StandsFor mark [] []
  | plain {c body value} : c ≠ mark → c ≠ '\\' → StandsFor mark body value →
    StandsFor mark (c :: body) (c :: value)
  | escape {e body value} : e ∈ sharedEscapes mark → StandsFor mark body value →
    StandsFor mark ('\\' :: e.1 :: body) (e.2 :: value)

/-- How many characters stand before the first mark without a backslash before it. -/
def firstMark? (mark : Char) : List Char → Option Nat
  | [] => none
  | [c] => if c = mark then some 0 else none
  | c :: d :: cs =>
    if c = mark then some 0
    else if c = '\\' then (firstMark? mark cs).map (· + 2)
    else (firstMark? mark (d :: cs)).map (· + 1)

/-- The text is a literal between two marks for the value: no mark after the first one stands
without a backslash before it but the last character. -/
def IsLiteral (mark : Char) (text value : String) : Prop :=
  ∃ body, text.toList = mark :: body ++ [mark] ∧
    firstMark? mark (body ++ [mark]) = some body.length ∧ StandsFor mark body value.toList

/-- The scanner makes one token of the text, and the end token. -/
def ReadAs (kind : TokenKind) (text value : String) : Prop :=
  (tokenize text).map Token.terminal = [⟨kind, value⟩, ⟨.eof, ""⟩]

/-- The characters that may not stand in a quoted text of JavaScript. -/
def lineBreaks : List Char := ['\n', '\r']

theorem firstMark?_of_standsFor {mark : Char} (hm : mark ≠ '\\') {body value : List Char}
    (h : StandsFor mark body value) : firstMark? mark (body ++ [mark]) = some body.length := by
  induction h with
  | nil => simp [firstMark?]
  | @plain c body value hc hb _ ih =>
    obtain ⟨d, ds, hd⟩ : ∃ d ds, body ++ [mark] = d :: ds := List.exists_cons_of_ne_nil (by simp)
    rw [List.cons_append, hd, firstMark?, ← hd, ih]
    simp [hc, hb]
  | escape _ _ ih => simp [firstMark?, hm.symm, ih]

/-- No character is both the mark and a backslash. -/
theorem count_cons_le {mark : Char} (hm : mark ≠ '\\') (c : Char) (cs : List Char) :
    (c :: cs).count mark + (c :: cs).count '\\' ≤ cs.count mark + cs.count '\\' + 1 := by
  by_cases hc : c = mark
  · rw [hc, List.count_cons_self, List.count_cons_of_ne hm]
    omega
  · rw [List.count_cons_of_ne hc]
    simp only [List.count_cons]
    split <;> omega

/-- Every mark and every backslash of the value has taken up two characters. -/
theorem StandsFor.length_le {mark : Char} (hm : mark ≠ '\\') {body value : List Char}
    (h : StandsFor mark body value) :
    value.length + value.count mark + value.count '\\' ≤ body.length := by
  induction h with
  | nil => simp
  | plain hc hb _ ih =>
    rw [List.count_cons_of_ne hc, List.count_cons_of_ne hb]
    simp only [List.length_cons]
    omega
  | @escape e body value _ _ ih =>
    have := count_cons_le hm e.2 value
    simp only [List.length_cons]
    omega

/-! ## Texts between marks -/

theorem length_escaped (mark : Char) (cs : List Char) :
    (escaped mark cs).length = cs.length + cs.count mark := by
  unfold escaped
  induction cs with
  | nil => rfl
  | cons c cs ih =>
    rw [List.flatMap_cons, List.length_append, ih]
    by_cases hc : c = mark
    · simp [hc]
      omega
    · simp [hc]
      omega

theorem standsFor_escaped (mark : Char) {cs : List Char} (hc : '\\' ∉ cs) :
    StandsFor mark (escaped mark cs) cs := by
  unfold escaped
  induction cs with
  | nil => exact .nil
  | cons c cs ih =>
    rw [List.mem_cons, not_or] at hc
    rw [List.flatMap_cons]
    by_cases h : c = mark
    · subst h
      rw [if_pos rfl]
      exact .escape (e := (c, c)) (by simp [sharedEscapes]) (ih hc.2)
    · rw [if_neg h]
      exact .plain h (Ne.symm hc.1) (ih hc.2)

/-- Between marks a text stands for itself exactly if it has no backslash. -/
theorem between_isLiteral_iff {mark : Char} (hm : mark ≠ '\\') (text : String) :
    IsLiteral mark (Script.between mark text) text ↔ '\\' ∉ text.toList := by
  constructor
  · rintro ⟨body, htext, -, hstands⟩
    have hbody : body = escaped mark text.toList := by
      rw [toList_between] at htext
      exact (List.append_cancel_right (List.cons.inj htext).2).symm
    have hle := hstands.length_le hm
    rw [hbody, length_escaped] at hle
    exact List.count_eq_zero.mp (by omega)
  · intro h
    have hstands := standsFor_escaped mark h
    exact ⟨_, toList_between mark text, firstMark?_of_standsFor hm hstands, hstands⟩

/-! ## What the scanner makes of them -/

theorem quotedRest_length_le {mark : Char} (hm : mark ≠ '\\') (cs : List Char) :
    (quotedRest mark cs).1.length + (quotedRest mark cs).1.count mark
      + (quotedRest mark cs).1.count '\\' ≤ cs.length := by
  fun_induction quotedRest mark cs with
  | case1 => simp
  | case2 => simp
  | case3 => simp
  | case4 c hc hb => simp [List.count_cons_of_ne hc, List.count_cons_of_ne hb]
  | case5 => simp
  | case6 d cs value n hr _ ih =>
    rw [hr] at ih
    have := count_cons_le hm (unescaped d) value
    simp only [List.length_cons] at ih ⊢
    omega
  | case7 c d cs hc hb value n hr ih =>
    rw [hr] at ih
    rw [List.count_cons_of_ne hc, List.count_cons_of_ne hb]
    simp only [List.length_cons] at ih ⊢
    omega

theorem eq_backslash_of_unescaped {c : Char} (h : unescaped c = '\\') : c = '\\' := by
  unfold unescaped at h
  cases hl : escapes.lookup c with
  | none => simpa [hl] using h
  | some d =>
    have hall : ∀ e ∈ escapes, e.2 = '\\' → e.1 = '\\' := by decide
    rw [hl] at h
    exact hall _ (mem_of_lookup hl) h

/-- A text without a backslash is read off before whatever comes next. -/
theorem quotedRest_escaped_append {mark : Char} (hm : mark ≠ '\\') (hu : unescaped mark = mark)
    {cs r : List Char} (hc : '\\' ∉ cs) (hr : r ≠ []) :
    (quotedRest mark (escaped mark cs ++ r)).1 = cs ++ (quotedRest mark r).1 := by
  induction cs with
  | nil => rfl
  | cons c cs ih =>
    rw [List.mem_cons, not_or] at hc
    have ih := ih hc.2
    by_cases h : c = mark
    · subst h
      have hrest : escaped c (c :: cs) ++ r = '\\' :: c :: (escaped c cs ++ r) := by simp [escaped]
      rw [hrest, quotedRest]
      simp [hm.symm, hu, ih]
    · obtain ⟨d, ds, hd⟩ : ∃ d ds, escaped mark cs ++ r = d :: ds :=
        List.exists_cons_of_ne_nil (by simp [hr])
      have hrest : escaped mark (c :: cs) ++ r = c :: d :: ds := by simp [escaped, h, ← hd]
      rw [hrest, quotedRest, ← hd]
      simp [h, Ne.symm hc.1, ih]

/-- What is read back as it was has no backslash: there is room for one at most, and after the
first one comes what it takes away. -/
theorem no_backslash_of_quotedRest {mark : Char} (hm : mark ≠ '\\') (hu : unescaped mark = mark)
    {cs : List Char} (h : (quotedRest mark (escaped mark cs ++ [mark])).1 = cs) : '\\' ∉ cs := by
  intro hmem
  have hle := quotedRest_length_le hm (escaped mark cs ++ [mark])
  rw [h, List.length_append, length_escaped, List.length_singleton] at hle
  obtain ⟨u, w, rfl⟩ := List.append_of_mem hmem
  have hcount : (u ++ '\\' :: w).count '\\' = u.count '\\' + (w.count '\\' + 1) := by
    rw [List.count_append, List.count_cons_self]
  have hu' : '\\' ∉ u := List.count_eq_zero.mp (by omega)
  have hw' : '\\' ∉ w := List.count_eq_zero.mp (by omega)
  have hsplit : escaped mark (u ++ '\\' :: w) ++ [mark] =
      escaped mark u ++ '\\' :: (escaped mark w ++ [mark]) := by simp [escaped, hm.symm]
  rw [hsplit, quotedRest_escaped_append hm hu hu' (by simp)] at h
  replace h := List.append_cancel_left h
  cases w with
  | nil =>
    simp [escaped, quotedRest, hm.symm, hu] at h
    exact hm h
  | cons c w =>
    rw [List.mem_cons, not_or] at hw'
    by_cases hc : c = mark
    · -- The backslash takes away the one that is put before the mark, and the mark ends the text.
      subst hc
      have hrest : escaped c (c :: w) ++ [c] = '\\' :: c :: (escaped c w ++ [c]) := by simp [escaped]
      have hnil : (quotedRest c (c :: (escaped c w ++ [c]))).1 = [] := by
        cases hr : escaped c w ++ [c] with
        | nil => simp [quotedRest]
        | cons d ds => simp [quotedRest]
      rw [hrest, quotedRest] at h
      simp [hm.symm, hnil] at h
    · have hrest : escaped mark (c :: w) ++ [mark] = c :: (escaped mark w ++ [mark]) := by
        simp [escaped, hc]
      rw [hrest, quotedRest] at h
      simp [hm.symm] at h
      exact hw'.1 (eq_backslash_of_unescaped h.1).symm

/-- Between quotes, and between the marks of a template, the scanner reads a text as it is exactly
if it has no backslash. -/
theorem between_readAs_iff {mark : Char} (hmark : mark = '"' ∨ mark = '\x60') (text : String) :
    ReadAs (if mark = templateQuote then .template else .string) (Script.between mark text) text ↔
      '\\' ∉ text.toList := by
  have hm : mark ≠ '\\' := by rcases hmark with rfl | rfl <;> decide
  have hu : unescaped mark = mark := by rcases hmark with rfl | rfl <;> rfl
  have hclosing : closing? mark = some mark := by rcases hmark with rfl | rfl <;> rfl
  have hblank : Text.isBlank mark = false := by rcases hmark with rfl | rfl <;> rfl
  have hslash : mark ≠ '/' := by rcases hmark with rfl | rfl <;> decide
  unfold ReadAs
  rw [tokenize_terminals]
  constructor
  · intro h
    have hone : terminals (Script.between mark text).toList = [⟨_, text⟩] :=
      List.append_cancel_right h
    rw [toList_between, List.cons_append, terminals_of_next (by simp)
      (gap?_none hblank fun h => absurd h hslash)] at hone
    have hvalue := congrArg Terminal.value (List.cons.inj hone).1
    simp only [Lexeme.terminal, next, quoted?, hclosing, Option.map_some] at hvalue
    refine no_backslash_of_quotedRest hm hu ?_
    rw [← String.toList_ofList (l := (quotedRest mark _).1), hvalue]
  · intro h
    have hall := terminals_between hmark h []
    rw [List.append_nil, terminals_nil] at hall
    rw [hall]
    rfl

/-- Nothing is done to line breaks. -/
theorem lineBreak_mem_between {mark c : Char} (hm : mark ∉ lineBreaks) (hc : c ∈ lineBreaks)
    (text : String) : c ∈ (Script.between mark text).toList ↔ c ∈ text.toList := by
  have hne : c ≠ mark := fun h => hm (h ▸ hc)
  have hback : c ≠ '\\' := by
    rintro rfl
    exact absurd hc (by decide)
  have hpiece : ∀ d, c ∈ (if d = mark then ['\\', d] else [d]) ↔ d = c := by
    intro d
    split
    · simp [hback, eq_comm]
    · simp [eq_comm]
  rw [toList_between]
  simp [escaped, hne, hpiece]

/-! ## Quoted texts and templates -/

/-- A quoted text, and likewise a template, is a literal for its value, and is scanned as that
value and nothing else, exactly if the value has no backslash. A quoted text has just the line
breaks that its value has. -/
theorem quoted_comes_back_iff (v : String) (s : Span) (raw : String) :
    (IsLiteral '"' (Script.quote v) v ↔ '\\' ∉ v.toList) ∧
    (ReadAs .string (Script.quote v) v ↔ '\\' ∉ v.toList) ∧
    (∀ c ∈ lineBreaks, c ∈ (Script.quote v).toList ↔ c ∈ v.toList) ∧
    ∃ text, Script.expression (.literal s (.text v) raw true) = .ok text ∧
      (IsLiteral '\x60' text v ↔ '\\' ∉ v.toList) ∧
      (ReadAs .template text v ↔ '\\' ∉ v.toList) := by
  refine ⟨between_isLiteral_iff (by decide) v, between_readAs_iff (.inl rfl) v, fun c hc => ?_,
    Script.template v, ?_, between_isLiteral_iff (by decide) v, between_readAs_iff (.inr rfl) v⟩
  · exact lineBreak_mem_between (by decide) hc v
  · rw [Script.expression]
    rfl

/-- A backslash at the end keeps the quotes from closing, and a line break stands as it is. -/
theorem backslash_is_lost :
    ¬ IsLiteral '"' (Script.quote "\\") "\\" ∧ ¬ ReadAs .string (Script.quote "\\") "\\" ∧
      '\n' ∈ (Script.quote "\n").toList := by
  refine ⟨?_, ?_, by decide⟩
  · rw [Script.quote, between_isLiteral_iff (by decide)]
    decide
  · unfold ReadAs
    decide

end HanScript
