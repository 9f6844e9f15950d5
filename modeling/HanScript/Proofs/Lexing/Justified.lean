-- Every token is justified by its own slice of the source text. How words,
-- numerals, quoted texts and signs are written is said apart from how they are
-- scanned, and each of them goes on for as long as it can.
import HanScript.Proofs.Lexing.Seams

namespace HanScript

open Lexeme Text Vocabulary

/-! ## How tokens are written -/

/-- The point of a numeral and the digits after it, which may be missing together. -/
inductive Fraction : List Char → Prop where
  | none : Fraction []
  | some {ds} : ds ≠ [] → ds.all isDigit → Fraction ('.' :: ds)

/-- The exponent of a numeral, which may be missing. It need not have a sign, nor digits. -/
inductive Exponent : List Char → Prop where
  | none : Exponent []
  | some {letter sign ds} : letter ∈ ['e', 'E'] → sign ∈ [[], ['+'], ['-']] → ds.all isDigit →
    Exponent (letter :: (sign ++ ds))

/-- The letters for the bases, each with the digits that follow it. -/
def bases : List (Char × (Char → Bool)) :=
  [('x', isHexDigit), ('X', isHexDigit), ('b', isBinaryDigit), ('B', isBinaryDigit),
   ('o', isOctalDigit), ('O', isOctalDigit)]

/-- How numerals are written: with a base, or in tens. -/
inductive NumeralForm : List Char → Prop where
  | based {base ds} : base ∈ bases → ds.all base.2 → NumeralForm ('0' :: base.1 :: ds)
  | decimal {whole fraction exponent} : whole ≠ [] → whole.all isDigit → Fraction fraction →
    Exponent exponent → NumeralForm (whole ++ fraction ++ exponent)

/-- The characters after an opening quote stand for the value: a backslash with the character after
it for what the table of escapes says, and every other character but the closing quote for itself. -/
inductive Denotes (closing : Char) : List Char → List Char → Prop where
  | nil : Denotes closing [] []
  | plain {c body value} : c ≠ closing → c ≠ '\\' → Denotes closing body value →
    Denotes closing (c :: body) (c :: value)
  | escape {c body value} : Denotes closing body value →
    Denotes closing ('\\' :: c :: body) (unescaped c :: value)

/-- How a quoted text ends: with its closing quote, or with the source text, of which a backslash may
be left over. -/
inductive QuoteEnd (closing : Char) : List Char → List Char → Prop where
  | closed {rest} : QuoteEnd closing [closing] rest
  | unclosed : QuoteEnd closing [] []
  | leftOver : QuoteEnd closing ['\\'] []

/-- The text begins with the sign, read through the table of punctuation. A closing tag does not
begin directly before a `>`. -/
def BeginsWith (cs : List Char) (x : String) : Prop :=
  x.toList <+: cs.map normalized ∧ ¬ (x = Vocabulary.closeTag ∧ (cs.map normalized)[2]? = some '>')

/-- The slice, before the rest of the source text, is written as the token. -/
inductive Justified : List Char → List Char → Terminal → Prop where
  | word {slice rest kind} : slice.head?.any isWordStart → slice.all isWordPart →
    (∀ c ∈ rest.head?, isWordPart c = false) → WordMeans (String.ofList slice) kind →
    Justified slice rest ⟨kind, String.ofList slice⟩
  | number {slice rest} : NumeralForm slice →
    (∀ longer, longer <+: slice ++ rest → NumeralForm longer → longer.length ≤ slice.length) →
    Justified slice rest ⟨.number, String.ofList slice⟩
  | quoted {opening closing body value ending rest} : (opening, closing) ∈ quotes →
    Denotes closing body value → QuoteEnd closing ending rest →
    Justified (opening :: body ++ ending) rest
      ⟨if opening = templateQuote then .template else .string, String.ofList value⟩
  | sign {slice rest e} : e ∈ signsAndTags → e.1.toList = slice.map normalized →
    BeginsWith (slice ++ rest) e.1 →
    (∀ other ∈ signsAndTags, BeginsWith (slice ++ rest) other.1 → other.1.length ≤ e.1.length) →
    Justified slice rest ⟨e.2, e.1⟩
  | stray {c rest} : isBlank c = false → (∀ e ∈ quotes, e.1 ≠ c) → isDigit c = false →
    isWordStart c = false → (∀ e ∈ signsAndTags, e.1.toList.head? ≠ some (normalized c)) →
    Justified [c] rest ⟨.unrecognized, String.ofList [c]⟩

/-! ## Quoted texts -/

theorem quotedRest_cases (closing : Char) (cs : List Char) :
    ∃ body ending rest, cs = body ++ ending ++ rest ∧
      (body ++ ending).length = (quotedRest closing cs).2 ∧
      Denotes closing body (quotedRest closing cs).1 ∧ QuoteEnd closing ending rest := by
  fun_induction quotedRest closing cs with
  | case1 => exact ⟨[], [], [], rfl, rfl, .nil, .unclosed⟩
  | case2 => exact ⟨[], [closing], [], rfl, rfl, .nil, .closed⟩
  | case3 => exact ⟨[], ['\\'], [], rfl, rfl, .nil, .leftOver⟩
  | case4 c hc hb => exact ⟨[c], [], [], rfl, rfl, .plain hc hb .nil, .unclosed⟩
  | case5 d cs => exact ⟨[], [closing], d :: cs, rfl, rfl, .nil, .closed⟩
  | case6 d cs value n heq hc ih =>
    obtain ⟨body, ending, rest, rfl, hlength, hbody, hending⟩ := ih
    rw [heq] at hlength hbody
    refine ⟨'\\' :: d :: body, ending, rest, rfl, ?_, .escape hbody, hending⟩
    rw [List.cons_append, List.cons_append, List.length_cons, List.length_cons, hlength]
  | case7 c d cs hc hb value n heq ih =>
    obtain ⟨body, ending, rest, hcs, hlength, hbody, hending⟩ := ih
    rw [heq] at hlength hbody
    refine ⟨c :: body, ending, rest, by rw [hcs]; rfl, ?_, .plain hc hb hbody, hending⟩
    rw [List.cons_append, List.length_cons, hlength]

/-! ## Numerals -/

theorem all_digits_take (cs : List Char) : (cs.take (digitCount cs)).all isDigit := by
  rw [digitCount, take_takeWhile_length]
  exact List.all_takeWhile

theorem fraction_take (cs : List Char) : Fraction (cs.take (fractionLength cs)) := by
  unfold fractionLength
  split
  · rename_i cs
    split
    · exact .none
    · rename_i hcount
      rw [List.take_succ_cons]
      refine .some ?_ (all_digits_take cs)
      intro hnil
      have hlength := congrArg List.length hnil
      rw [List.length_take, List.length_nil] at hlength
      have := digitCount_le cs
      omega
  · exact .none

theorem sign_take (cs : List Char) : cs.take (signLength cs) ∈ [[], ['+'], ['-']] := by
  unfold signLength
  split <;> simp

theorem exponent_take (cs : List Char) : Exponent (cs.take (exponentLength cs)) := by
  cases cs with
  | nil => exact .none
  | cons c cs =>
    rw [exponentLength]
    split
    · rename_i he
      rw [Nat.add_assoc, Nat.add_comm 1, List.take_succ_cons, List.take_add]
      exact .some (by simpa using he) (sign_take cs) (all_digits_take _)
    · exact .none

theorem mem_bases {c : Char} {ok : Char → Bool} (h : baseDigit? c = some ok) : (c, ok) ∈ bases := by
  unfold baseDigit? at h
  unfold bases
  split at h <;> cases h <;> simp

theorem baseDigit?_of_mem {base : Char × (Char → Bool)} (h : base ∈ bases) :
    baseDigit? base.1 = some base.2 := by
  simp only [bases, List.mem_cons, List.not_mem_nil, or_false] at h
  rcases h with rfl | rfl | rfl | rfl | rfl | rfl <;> rfl

/-- What is scanned as a numeral is written as one. -/
theorem numeralForm_take {c : Char} (hc : isDigit c) (cs : List Char) :
    NumeralForm ((c :: cs).take (numeralLength (c :: cs))) := by
  cases cs with
  | nil => exact @NumeralForm.decimal [c] [] [] (by simp) (by simpa using hc) .none .none
  | cons d cs =>
    cases hbase : if c = '0' then baseDigit? d else none with
    | some ok =>
      have hlength : numeralLength (c :: d :: cs) = (cs.takeWhile ok).length + 2 := by
        simp [numeralLength, hbase, Nat.add_comm]
      have hzero : c = '0' := by
        by_cases h : c = '0'
        · exact h
        · rw [if_neg h] at hbase
          cases hbase
      subst hzero
      rw [hlength, List.take_succ_cons, List.take_succ_cons, take_takeWhile_length]
      exact .based (mem_bases (baseDigit?_of_zero hbase)) List.all_takeWhile
    | none =>
      have hlength : numeralLength (c :: d :: cs) = decimalLength (d :: cs) + 1 := by
        simp [numeralLength, hbase, Nat.add_comm]
      rw [hlength, List.take_succ_cons]
      unfold decimalLength
      rw [List.take_add, List.take_add, ← List.cons_append, ← List.cons_append]
      refine .decimal (by simp) ?_ (fraction_take _) (exponent_take _)
      rw [List.all_cons, hc, all_digits_take]
      rfl

theorem IsNumeral.form {x : String} (h : IsNumeral x) : NumeralForm x.toList := by
  obtain ⟨hstart, hlength⟩ := h
  cases hx : x.toList with
  | nil => simp [hx] at hstart
  | cons c cs =>
    rw [hx] at hstart hlength
    have hform := numeralForm_take (by simpa using hstart) cs
    rwa [hlength, List.take_length] at hform

theorem digitCount_append_digits {ds : List Char} (hds : ds.all isDigit) (r : List Char) :
    digitCount (ds ++ r) = ds.length + digitCount r := by
  unfold digitCount
  rw [List.takeWhile_append_of_pos (List.all_eq_true.mp hds), List.length_append]

theorem signLength_digits {ds : List Char} (hds : ds.all isDigit) (hne : ds ≠ []) (r : List Char) :
    signLength (ds ++ r) = 0 := by
  cases ds with
  | nil => exact absurd rfl hne
  | cons d ds =>
    rw [List.all_cons, Bool.and_eq_true] at hds
    unfold signLength
    split
    · rename_i h
      cases h
      exact absurd hds.1 (by decide)
    · rename_i h
      cases h
      exact absurd hds.1 (by decide)
    · rfl

theorem Exponent.length_le {e : List Char} (h : Exponent e) (r : List Char) :
    e.length ≤ exponentLength (e ++ r) := by
  cases h with
  | none => exact Nat.zero_le _
  | @some letter sign ds hletter hsign hds =>
    have hletter : letter = 'e' ∨ letter = 'E' := by simpa using hletter
    simp only [List.cons_append, List.length_cons, exponentLength, if_pos hletter, List.append_assoc,
      List.length_append]
    simp only [List.mem_cons, List.not_mem_nil, or_false] at hsign
    rcases hsign with rfl | rfl | rfl
    · by_cases hne : ds = []
      · simp [hne]
        omega
      · rw [List.nil_append, signLength_digits hds hne, List.drop_zero, digitCount_append_digits hds]
        simp
        omega
    · have hcount := digitCount_append_digits hds r
      simp [signLength, hcount]
      omega
    · have hcount := digitCount_append_digits hds r
      simp [signLength, hcount]
      omega

/-- An exponent begins with a letter. -/
theorem Exponent.digitCount_eq {e : List Char} (h : Exponent e) (hne : e ≠ []) (r : List Char) :
    digitCount (e ++ r) = 0 ∧ fractionLength (e ++ r) = 0 := by
  cases h with
  | none => exact absurd rfl hne
  | @some letter sign ds hletter =>
    simp only [List.mem_cons, List.not_mem_nil, or_false] at hletter
    rcases hletter with rfl | rfl <;> exact ⟨rfl, rfl⟩

/-- A fraction and an exponent are scanned as such. If both are missing, what comes next may go on
with the digits before them. -/
theorem length_le_of_fraction {f e : List Char} (hf : Fraction f) (he : Exponent e)
    (hne : f ++ e ≠ []) (r : List Char) :
    digitCount (f ++ e ++ r) = 0 ∧ (f ++ e).length ≤ fractionLength (f ++ e ++ r) +
      exponentLength ((f ++ e ++ r).drop (fractionLength (f ++ e ++ r))) := by
  cases hf with
  | none =>
    obtain ⟨hdigits, hfraction⟩ := he.digitCount_eq hne r
    rw [List.nil_append, hfraction, List.drop_zero, Nat.zero_add]
    exact ⟨hdigits, he.length_le r⟩
  | @some ds hds hall =>
    refine ⟨rfl, ?_⟩
    have hpos : 0 < ds.length := List.length_pos_iff.mpr hds
    have hcount := digitCount_append_digits hall (e ++ r)
    by_cases hnil : e = []
    · subst hnil
      simp only [List.cons_append, List.append_nil, fractionLength, List.nil_append,
        List.length_cons] at hcount ⊢
      rw [if_neg (by omega)]
      omega
    · rw [(he.digitCount_eq hnil r).1] at hcount
      have hlength : fractionLength ('.' :: ds ++ e ++ r) = ('.' :: ds).length := by
        simp only [List.cons_append, List.append_assoc, fractionLength, List.length_cons]
        rw [if_neg (by omega)]
        omega
      rw [hlength, List.append_assoc, List.drop_left, List.length_append]
      exact Nat.add_le_add_left (he.length_le r) _

theorem le_decimalLength {ds f e : List Char} (hds : ds.all isDigit) (hf : Fraction f)
    (he : Exponent e) (r : List Char) :
    (ds ++ f ++ e).length ≤ decimalLength (ds ++ f ++ e ++ r) := by
  have hcount := digitCount_append_digits hds (f ++ e ++ r)
  have hassoc : ds ++ f ++ e ++ r = ds ++ (f ++ e ++ r) := by simp
  unfold decimalLength
  rw [hassoc, List.append_assoc, List.length_append]
  simp only [hcount]
  by_cases hne : f ++ e = []
  · rw [hne, List.length_nil]
    omega
  · obtain ⟨hzero, hle⟩ := length_le_of_fraction hf he hne r
    rw [hzero, Nat.add_zero, List.drop_left, ← List.drop_drop, List.drop_left]
    omega

/-- A letter for a base is nothing that a numeral in tens goes on with. -/
theorem nil_of_base {ds f e r : List Char} (hds : ds.all isDigit) (hf : Fraction f) (he : Exponent e)
    {c : Char} {cs : List Char} {ok : Char → Bool} (hc : baseDigit? c = some ok)
    (h : ds ++ f ++ e ++ r = c :: cs) : ds ++ f ++ e = [] := by
  have hbase : ∀ base ∈ bases, isDigit base.1 = false ∧ base.1 ≠ '.' ∧ base.1 ≠ 'e' ∧ base.1 ≠ 'E' := by
    simp only [bases, List.forall_mem_cons]
    decide
  obtain ⟨hdigit, hpoint, hlower, hupper⟩ := hbase _ (mem_bases hc)
  cases ds with
  | cons d ds =>
    cases h
    rw [List.all_cons, Bool.and_eq_true] at hds
    rw [hds.1] at hdigit
    cases hdigit
  | nil =>
    cases hf with
    | some =>
      cases h
      exact absurd rfl hpoint
    | none =>
      cases he with
      | none => rfl
      | some hletter =>
        cases h
        simp only [List.mem_cons, List.not_mem_nil, or_false] at hletter
        rcases hletter with rfl | rfl
        · exact absurd rfl hlower
        · exact absurd rfl hupper

/-- No numeral at the head of a text is longer than the one that is scanned. -/
theorem NumeralForm.length_le {cs : List Char} (h : NumeralForm cs) (r : List Char) :
    cs.length ≤ numeralLength (cs ++ r) := by
  cases h with
  | @based base ds hbase hds =>
    have htake : (ds ++ r).takeWhile base.2 = ds ++ r.takeWhile base.2 :=
      List.takeWhile_append_of_pos (List.all_eq_true.mp hds)
    simp only [List.cons_append, numeralLength, if_pos, baseDigit?_of_mem hbase, htake,
      List.length_cons, List.length_append]
    omega
  | @decimal whole f e hne hall hf he =>
    obtain ⟨c, ds, rfl⟩ := List.exists_cons_of_ne_nil hne
    rw [List.all_cons, Bool.and_eq_true] at hall
    have hle := le_decimalLength hall.2 hf he r
    simp only [List.cons_append, List.length_cons]
    cases hrest : ds ++ f ++ e ++ r with
    | nil =>
      rw [hrest] at hle
      exact Nat.succ_le_succ hle
    | cons d cs =>
      rw [hrest] at hle
      rw [numeralLength]
      split
      · rename_i ok hok
        rw [nil_of_base hall.2 hf he (baseDigit?_of_zero hok) hrest, List.length_nil]
        omega
      · omega

/-! ## Signs -/

/-- A sign that the text begins with is its first characters. -/
theorem BeginsWith.eq_take {cs : List Char} {x : String} (h : BeginsWith cs x) :
    x = String.ofList ((cs.map normalized).take x.length) := by
  rw [← String.length_toList, ← List.prefix_iff_eq_take.mp h.1, String.ofList_toList]

/-- If the table does not have the first characters, the text begins with none of its signs. -/
theorem not_beginsWith {table : List (String × TokenKind)} {n : Nat}
    (hn : ∀ e ∈ table, e.1.length = n) {cs : List Char}
    (h : table.lookup (String.ofList ((cs.map normalized).take n)) = none) :
    ∀ e ∈ table, ¬ BeginsWith cs e.1 := by
  intro e he hbegins
  have heq := hbegins.eq_take
  rw [hn e he] at heq
  have hne := List.lookup_eq_none_iff.mp h e he
  simp [← heq] at hne

/-- What is scanned as a sign is the longest one that the text begins with. -/
theorem sign?_longest {cs : List Char} {l : Lexeme} (h : sign? cs = some l) :
    BeginsWith cs l.value ∧
      ∀ e ∈ signsAndTags, BeginsWith cs e.1 → e.1.length ≤ l.value.length := by
  have hthree : ∀ e ∈ signsAndTags, e.1.length ≤ 3 := by decide
  have htwo : ∀ e ∈ signsAndTags, e ∉ threeSigns → e.1.length ≤ 2 := by decide
  have hone : ∀ e ∈ signsAndTags, e ∉ threeSigns → e ∉ twoSigns → e.1 ≠ Vocabulary.closeTag →
      e.1 ≠ Vocabulary.selfClose → e.1.length ≤ 1 := by decide
  have hsigns : ∀ e ∈ signs, e.1 ≠ Vocabulary.closeTag := by decide
  obtain ⟨hvalue, hlength, -⟩ := sign?_cases h
  have hchars : l.value.toList <+: cs.map normalized := by
    rw [hvalue, String.toList_ofList]
    exact List.take_prefix _ _
  have hthird : ((cs.map normalized).take 3)[2]? = (cs.map normalized)[2]? :=
    List.getElem?_take_of_lt (by decide)
  rw [hlength]
  unfold sign? at h
  simp only [List.map_take, List.take_take, hthird] at h
  split at h
  · rename_i kind hk
    cases h
    have hmem := List.mem_append_left oneSign (List.mem_append_left twoSigns (mem_of_lookup hk))
    exact ⟨⟨hchars, fun hclose => hsigns _ hmem hclose.1⟩, fun e he _ => hthree e he⟩
  · rename_i hk
    have hshort : ∀ e ∈ signsAndTags, BeginsWith cs e.1 → e.1.length ≤ 2 := fun e he hbegins =>
      htwo e he fun hin => not_beginsWith (by decide) hk e hin hbegins
    split at h
    · rename_i hclose
      cases h
      exact ⟨⟨hchars, fun hbefore => hclose.2 hbefore.2⟩, hshort⟩
    · rename_i hclose
      split at h
      · rename_i hself
        cases h
        exact ⟨⟨hchars, fun hbefore => absurd (hself.symm.trans hbefore.1) (by decide)⟩, hshort⟩
      · rename_i hself
        split at h
        · rename_i kind hk2
          cases h
          have hmem := List.mem_append_left oneSign (List.mem_append_right threeSigns (mem_of_lookup hk2))
          exact ⟨⟨hchars, fun hbefore => hsigns _ hmem hbefore.1⟩, hshort⟩
        · rename_i hk2
          obtain ⟨kind, hk1, rfl⟩ := Option.map_eq_some_iff.mp h
          have hmem := List.mem_append_right (threeSigns ++ twoSigns) (mem_of_lookup hk1)
          refine ⟨⟨hchars, fun hbefore => hsigns _ hmem hbefore.1⟩, fun e he hbegins => ?_⟩
          apply hone e he
          · exact fun hin => not_beginsWith (by decide) hk e hin hbegins
          · exact fun hin => not_beginsWith (by decide) hk2 e hin hbegins
          · intro htag
            have heq := hbegins.eq_take
            rw [htag] at heq
            exact hclose ⟨heq.symm, fun hbefore => hbegins.2 ⟨htag, hbefore⟩⟩
          · intro htag
            have heq := hbegins.eq_take
            rw [htag] at heq
            exact hself heq.symm

/-- Every sign begins with a character that is a sign of its own. -/
theorem head_ne_of_not_sign {c : Char} (h : oneSign.lookup (String.ofList [c]) = none) :
    ∀ e ∈ signsAndTags, e.1.toList.head? ≠ some c := by
  have hfirst : ∀ e ∈ signsAndTags, (oneSign.lookup (String.ofList (e.1.toList.take 1))).isSome := by
    decide
  intro e he hhead
  have hsome := hfirst e he
  cases hx : e.1.toList with
  | nil =>
    rw [hx] at hhead
    cases hhead
  | cons d ds =>
    rw [hx] at hhead hsome
    cases hhead
    rw [List.take_succ_cons, List.take_zero, h] at hsome
    cases hsome

/-! ## Tokens -/

theorem word_justified {c : Char} (hc : isWordStart c) (cs : List Char) :
    Justified ((c :: cs).takeWhile isWordPart) ((c :: cs).dropWhile isWordPart)
      (word (c :: cs)).terminal := by
  have hpart : isWordPart c := by simp [isWordPart, hc]
  refine .word ?_ List.all_takeWhile ?_ (wordMeans_wordKind _)
  · rw [List.takeWhile_cons_of_pos hpart]
    simpa using hc
  · intro d hd
    have hnot := List.head?_dropWhile_not isWordPart (c :: cs)
    rw [Option.mem_def.mp hd] at hnot
    exact hnot

theorem sign_justified {cs : List Char} {l : Lexeme} (h : sign? cs = some l) :
    Justified (cs.take l.length) (cs.drop l.length) l.terminal := by
  obtain ⟨hvalue, -, hmem⟩ := sign?_cases h
  obtain ⟨hbegins, hlongest⟩ := sign?_longest h
  rw [← List.take_append_drop l.length cs] at hbegins hlongest
  refine .sign (e := (l.value, l.kind)) hmem ?_ hbegins hlongest
  rw [hvalue, String.toList_ofList, List.map_take]

theorem number_justified {c : Char} (hc : isDigit c) (cs : List Char) :
    Justified ((c :: cs).take (numeralLength (c :: cs))) ((c :: cs).drop (numeralLength (c :: cs)))
      (numeral (c :: cs)).terminal := by
  refine .number (numeralForm_take hc cs) fun longer hlonger hform => ?_
  rw [List.take_append_drop] at hlonger
  obtain ⟨r, hr⟩ := hlonger
  have hle := hform.length_le r
  rw [hr] at hle
  rw [List.length_take, Nat.min_eq_left (numeralLength_le _)]
  exact hle

/-- What is scanned next is written as the token that it gives. -/
theorem next_justified {cs : List Char} (hne : cs ≠ []) (hg : gap? cs = none) :
    Justified (cs.take (next cs).length) (cs.drop (next cs).length) (next cs).terminal := by
  obtain ⟨c, cs, rfl⟩ := List.exists_cons_of_ne_nil hne
  rcases next_cases c cs with ⟨closing, hq⟩ | ⟨hd, hn⟩ | ⟨hw, hn⟩ | ⟨hpart, hq, hs | ⟨hs, hn⟩⟩
  · obtain ⟨body, ending, rest, hcs, hlength, hbody, hending⟩ := quotedRest_cases closing cs
    rw [next_quoted hq, ← hlength]
    have hslice : (c :: cs).take ((body ++ ending).length + 1) = c :: body ++ ending := by
      rw [List.take_succ_cons, hcs, List.take_left, List.cons_append]
    have hrest : (c :: cs).drop ((body ++ ending).length + 1) = rest := by
      rw [List.drop_succ_cons, hcs, List.drop_left]
    simp only [hslice, hrest]
    exact .quoted (mem_of_lookup hq) hbody hending
  · rw [hn]
    exact number_justified hd cs
  · rw [hn]
    have hslice : (c :: cs).take (word (c :: cs)).length = (c :: cs).takeWhile isWordPart :=
      take_takeWhile_length isWordPart (c :: cs)
    have hrest : (c :: cs).drop (word (c :: cs)).length = (c :: cs).dropWhile isWordPart := by
      have hdrop : (((c :: cs).takeWhile isWordPart ++ (c :: cs).dropWhile isWordPart).drop
          ((c :: cs).takeWhile isWordPart).length) = (c :: cs).dropWhile isWordPart := List.drop_left
      rw [List.takeWhile_append_dropWhile] at hdrop
      exact hdrop
    rw [hslice, hrest]
    exact word_justified hw cs
  · exact sign_justified hs
  · rw [hn]
    simp only [isWordPart, Bool.or_eq_false_iff] at hpart
    refine .stray (not_blank_of_gap?_none hg) ?_ hpart.2 hpart.1
      (head_ne_of_not_sign (not_sign_of_sign?_none hs))
    rintro e he rfl
    have hne := List.lookup_eq_none_iff.mp hq e he
    simp at hne

/-- Every token but the end token is justified by its slice of the source text: it is what the slice
is written as, and the slice goes on for as long as it can. -/
theorem tokens_justified_by_slices {source : String} {t : Token} (ht : t ∈ tokenize source)
    (hkind : t.kind ≠ .eof) :
    ∃ front slice rest, source.toList = front ++ slice ++ rest ∧ t.span.start = front.length ∧
      t.span.stop = (front ++ slice).length ∧ Justified slice rest t.terminal := by
  have hread := readAt_tokenize ht hkind
  generalize source.toList = cs at hread
  cases hread with
  | @intro front rest _ _ _ hne hg hterminal hstart hstop =>
    refine ⟨front, rest.take (next rest).length, rest.drop (next rest).length, ?_, ?_, ?_, ?_⟩
    · rw [List.append_assoc, List.take_append_drop]
    · simpa using hstart
    · rw [hstop, List.length_append, List.length_take, Nat.min_eq_left (next_le rest)]
      simp
    · rw [← hterminal]
      exact next_justified hne hg

/-- The one place where a sign of two characters is not taken for one. -/
def emptyTag : String := "</>"

theorem emptyTag_justified :
    ∃ t ∈ tokenize emptyTag, t.terminal = ⟨.less, "<"⟩ ∧
      ∃ front slice rest, emptyTag.toList = front ++ slice ++ rest ∧ t.span.start = front.length ∧
        t.span.stop = (front ++ slice).length ∧ Justified slice rest t.terminal := by
  obtain ⟨t, ht, hterminal⟩ : ∃ t ∈ tokenize emptyTag, t.terminal = ⟨.less, "<"⟩ := by decide
  have hkind : t.kind = .less := congrArg Terminal.kind hterminal
  exact ⟨t, ht, hterminal, tokens_justified_by_slices ht (by rw [hkind]; decide)⟩

end HanScript
