-- What a whole number is worth once it is printed. It is printed as it was
-- written, and JavaScript reads what was written as the same number, unless it
-- has a zero too many in front: then it may count in eights and not in tens.
import HanScript.Proofs.Lexing.Lexical
import HanScript.Proofs.Parsing.Steps
import HanScript.Script.Expression
import Mathlib.Data.Nat.Digits.Defs

namespace HanScript

open Lexeme Text

/-! ## Whole numbers in JavaScript -/

/-- What a digit of a base up to sixteen is worth. -/
def faceValue (c : Char) : Nat :=
  if isDigit c then c.toNat - '0'.toNat
  else if 'a' ≤ c then c.toNat - 'a'.toNat + 10
  else c.toNat - 'A'.toNat + 10

/-- The number that digits stand for in a base. -/
def positional (base : Nat) (digits : List Char) : Nat :=
  Nat.ofDigits base (digits.map faceValue).reverse

/-- The base that a letter after a zero stands for, and the digits of the base. -/
def radix? : List Char → Option (Nat × (Char → Bool))
  | '0' :: c :: _ =>
    if c = 'x' ∨ c = 'X' then some (16, isHexDigit)
    else if c = 'o' ∨ c = 'O' then some (8, isOctalDigit)
    else if c = 'b' ∨ c = 'B' then some (2, isBinaryDigit)
    else none
  | _ => none

/-- More than one digit, of which the first is a zero and none is an eight or a nine. -/
def CountsInEights (text : List Char) : Prop :=
  text.head? = some '0' ∧ 1 < text.length ∧ text.all isOctalDigit

instance (text : List Char) : Decidable (CountsInEights text) := instDecidableAnd

/-- The whole number that a text stands for in JavaScript. -/
def scriptInteger? (text : List Char) : Option Int :=
  match radix? text with
  | some (base, ok) =>
    let digits := text.drop 2
    if digits ≠ [] ∧ digits.all ok then some (positional base digits) else none
  | none =>
    if text ≠ [] ∧ text.all isDigit then
      some (positional (if CountsInEights text then 8 else 10) text)
    else none

/-! ## Digits -/

theorem isDigit_iff {c : Char} : isDigit c ↔ 48 ≤ c.toNat ∧ c.toNat ≤ 57 := by
  simp [isDigit, Char.le_def, UInt32.le_iff_toNat_le]

theorem isOctalDigit_iff {c : Char} : isOctalDigit c ↔ 48 ≤ c.toNat ∧ c.toNat ≤ 55 := by
  simp [isOctalDigit, Char.le_def, UInt32.le_iff_toNat_le]

theorem isHexDigit_iff {c : Char} : isHexDigit c ↔
    (48 ≤ c.toNat ∧ c.toNat ≤ 57) ∨ (97 ≤ c.toNat ∧ c.toNat ≤ 102) ∨
      (65 ≤ c.toNat ∧ c.toNat ≤ 70) := by
  simp [isHexDigit, isDigit, Char.le_def, UInt32.le_iff_toNat_le, or_assoc]

theorem isDigit_of_octal {c : Char} (h : isOctalDigit c) : isDigit c := by
  rw [isOctalDigit_iff] at h
  rw [isDigit_iff]
  omega

theorem isHexDigit_of_digit {c : Char} (h : isDigit c) : isHexDigit c := by
  simp [isHexDigit, h]

theorem faceValue_of_digit {c : Char} (h : isDigit c) : faceValue c = c.toNat - 48 := if_pos h

theorem faceValue_lt_of_octal {c : Char} (h : isOctalDigit c) : faceValue c < 8 := by
  rw [faceValue_of_digit (isDigit_of_octal h)]
  rw [isOctalDigit_iff] at h
  omega

theorem faceValue_lt_of_digit {c : Char} (h : isDigit c) : faceValue c < 10 := by
  rw [faceValue_of_digit h]
  rw [isDigit_iff] at h
  omega

theorem faceValue_lt_of_hex {c : Char} (h : isHexDigit c) : faceValue c < 16 := by
  rw [isHexDigit_iff] at h
  unfold faceValue
  simp only [isDigit_iff, Char.le_def, UInt32.le_iff_toNat_le, Char.toNat_val]
  have h0 : '0'.toNat = 48 := rfl
  have ha : 'a'.toNat = 97 := rfl
  have hA : 'A'.toNat = 65 := rfl
  split
  · omega
  · split <;> omega

theorem decimalValue?_of_digit {c : Char} (h : isDigit c) : decimalValue? c = some (faceValue c) := by
  rw [faceValue_of_digit h]
  rw [isDigit_iff] at h
  simp only [decimalValue?, zeros]
  rw [List.find?_cons_of_pos (by simp; omega)]
  rfl

/-- A digit of a base is worth the same to the parser. -/
theorem digitValue?_of_hexDigit {base : Nat} {c : Char} (h : isHexDigit c)
    (hlt : faceValue c < base) : Numeral.digitValue? base c = some (faceValue c) := by
  have hlower : ('a' ≤ c ∧ c ≤ 'f') ↔ 97 ≤ c.toNat ∧ c.toNat ≤ 102 := by
    simp [Char.le_def, UInt32.le_iff_toNat_le]
  have hupper : ('A' ≤ c ∧ c ≤ 'F') ↔ 65 ≤ c.toNat ∧ c.toNat ≤ 70 := by
    simp [Char.le_def, UInt32.le_iff_toNat_le]
  have hletter : 'a' ≤ c ↔ 97 ≤ c.toNat := by
    simp [Char.le_def, UInt32.le_iff_toNat_le]
  have hvalue : (if 'a' ≤ c ∧ c ≤ 'f' then some (c.toNat - 'a'.toNat + 10)
      else if 'A' ≤ c ∧ c ≤ 'F' then some (c.toNat - 'A'.toNat + 10)
      else decimalValue? c) = some (faceValue c) := by
    rcases isHexDigit_iff.mp h with hd | hl | hu
    · rw [if_neg (by rw [hlower]; omega), if_neg (by rw [hupper]; omega),
        decimalValue?_of_digit (isDigit_iff.mpr hd)]
    · rw [if_pos (hlower.mpr hl), faceValue, if_neg (by rw [isDigit_iff]; omega),
        if_pos (hletter.mpr hl.1)]
    · rw [if_neg (by rw [hlower]; omega), if_pos (hupper.mpr hu), faceValue,
        if_neg (by rw [isDigit_iff]; omega), if_neg (by rw [hletter]; omega)]
  simp only [Numeral.digitValue?, hvalue]
  simp [hlt]

/-! ## Digits in a row -/

theorem digits?_of_all {base : Nat} {cs : List Char} (hne : cs ≠ [])
    (h : ∀ c ∈ cs, isHexDigit c ∧ faceValue c < base) :
    Numeral.digits? base cs = some (cs.map faceValue) := by
  induction cs with
  | nil => exact absurd rfl hne
  | cons c cs ih =>
    obtain ⟨hc, hrest⟩ := List.forall_mem_cons.mp h
    have hfirst := digitValue?_of_hexDigit hc.1 hc.2
    cases cs with
    | nil => simp [Numeral.digits?, hfirst]
    | cons d cs =>
      have hd : d ≠ '_' := by
        rintro rfl
        exact absurd (hrest '_' List.mem_cons_self).1 (by decide)
      simp [Numeral.digits?, hfirst, hd, ih (List.cons_ne_nil d cs) hrest]

theorem digits?_of_digits {cs : List Char} (hne : cs ≠ []) (h : ∀ c ∈ cs, isDigit c) :
    Numeral.digits? 10 cs = some (cs.map faceValue) :=
  digits?_of_all hne fun c hc => ⟨isHexDigit_of_digit (h c hc), faceValue_lt_of_digit (h c hc)⟩

theorem ofDigits_eq_ofDigits_reverse (base : Nat) (ds : List Nat) :
    Numeral.ofDigits base ds = Nat.ofDigits base ds.reverse := by
  have hfold : ∀ n, ds.foldl (fun n d => n * base + d) n =
      n * base ^ ds.length + Nat.ofDigits base ds.reverse := by
    induction ds with
    | nil => simp
    | cons d ds ih =>
      intro n
      rw [List.foldl_cons, ih, List.reverse_cons, Nat.ofDigits_append, List.length_reverse,
        List.length_cons, Nat.ofDigits_singleton]
      ring
  simpa [Numeral.ofDigits] using hfold 0

theorem ofDigits_map_faceValue (base : Nat) (cs : List Char) :
    Numeral.ofDigits base (cs.map faceValue) = positional base cs :=
  ofDigits_eq_ofDigits_reverse base _

/-- Digits of an octal number are worth the same in tens exactly if there is but one that counts. -/
theorem ofDigits_eight_eq_ten_iff {ds : List Nat} (h : ∀ d ∈ ds, d < 8) :
    Nat.ofDigits 8 ds = Nat.ofDigits 10 ds ↔ Nat.ofDigits 10 ds < 8 := by
  cases ds with
  | nil => simp
  | cons d ds =>
    have hd := h d List.mem_cons_self
    have hle : Nat.ofDigits 8 ds ≤ Nat.ofDigits 10 ds := Nat.ofDigits_monotone ds (by decide)
    rw [Nat.ofDigits_cons, Nat.ofDigits_cons]
    omega

/-! ## Numerals -/

theorem not_padding_of_hexDigit {c : Char} (h : isHexDigit c) : Numeral.isPadding c = false := by
  rw [isHexDigit_iff] at h
  simp [Numeral.isPadding, isBlank, blanks]
  omega

theorem trimmedEnd_of_all {cs : List Char} (h : ∀ c ∈ cs, Numeral.isPadding c = false) :
    Numeral.trimmedEnd cs = cs := by
  have hlast : cs.reverse.dropWhile Numeral.isPadding = cs.reverse := by
    cases hr : cs.reverse with
    | nil => rfl
    | cons c r =>
      have hc : c ∈ cs := List.mem_reverse.mp (hr ▸ List.mem_cons_self)
      rw [List.dropWhile_cons_of_neg (by simp [h c hc])]
  rw [Numeral.trimmedEnd, hlast, List.reverse_reverse]

theorem trimmed_of_all {cs : List Char} (h : ∀ c ∈ cs, Numeral.isPadding c = false) :
    Numeral.trimmed cs = cs := by
  have hfirst : cs.dropWhile Numeral.isPadding = cs := by
    cases cs with
    | nil => rfl
    | cons c r => rw [List.dropWhile_cons_of_neg (by simp [h c List.mem_cons_self])]
  rw [Numeral.trimmed, hfirst, trimmedEnd_of_all h]

theorem signed_of_head {cs : List Char} (h : ∀ c ∈ cs.head?, c ≠ '-' ∧ c ≠ '+') :
    Numeral.signed cs = (false, cs) := by
  unfold Numeral.signed
  split
  · exact absurd rfl (h '-' rfl).1
  · exact absurd rfl (h '+' rfl).2
  · rfl

theorem not_sign_of_digit {c : Char} (h : isDigit c) : c ≠ '-' ∧ c ≠ '+' := by
  constructor <;> rintro rfl <;> cases h

/-- After the letter of a base. -/
theorem based?_of_all {base : Nat} {cs : List Char} (h : ∀ c ∈ cs, isHexDigit c ∧ faceValue c < base) :
    Numeral.based? base cs = if cs = [] then none else some (.integer (positional base cs)) := by
  have hhead : cs.head? ≠ some '_' := fun hu =>
    absurd (h '_' (List.mem_of_mem_head? hu)).1 (by decide)
  have htrimmed := trimmedEnd_of_all fun c hc => not_padding_of_hexDigit (h c hc).1
  simp only [Numeral.based?, htrimmed, if_neg hhead]
  by_cases hne : cs = []
  · rw [hne]
    rfl
  · rw [digits?_of_all hne h, if_neg hne, Option.map_some, ofDigits_map_faceValue]

/-- Digits only. There may be too many of them. -/
theorem whole?_of_all {cs : List Char} (hne : cs ≠ []) (h : ∀ c ∈ cs, isDigit c) :
    Numeral.whole? cs =
      if cs.length > Numeral.mostDigits then none else some (.integer (positional 10 cs)) := by
  have htrimmed := trimmed_of_all fun c hc => not_padding_of_hexDigit (isHexDigit_of_digit (h c hc))
  have hsigned := signed_of_head fun c hc => not_sign_of_digit (h c (List.mem_of_mem_head? hc))
  simp only [Numeral.whole?, htrimmed, hsigned, digits?_of_digits hne h, List.length_map,
    ofDigits_map_faceValue]
  rfl

theorem decimal?_ne_integer (cs : List Char) (n : Int) : Numeral.decimal? cs ≠ some (.integer n) := by
  intro h
  simp only [Numeral.decimal?, Option.bind_eq_bind] at h
  split at h
  all_goals
    simp only [Option.bind_eq_some_iff] at h
    obtain ⟨_, -, _, -, _, -, h⟩ := h
    split at h <;> cases h

/-- Scanner, parser and JavaScript know the same bases. -/
theorem radix_of_baseDigit {d : Char} {ok : Char → Bool} (h : baseDigit? d = some ok) :
    ∃ base, (∀ cs, radix? ('0' :: d :: cs) = some (base, ok)) ∧
      (∀ cs, Numeral.announcedBase? ('0' :: d :: cs) = some base) ∧
      ∀ c, ok c → isHexDigit c ∧ faceValue c < base := by
  have hoctal : ∀ c, isOctalDigit c → isHexDigit c ∧ faceValue c < 8 := fun c hc =>
    ⟨isHexDigit_of_digit (isDigit_of_octal hc), faceValue_lt_of_octal hc⟩
  have hbinary : ∀ c, isBinaryDigit c → isHexDigit c ∧ faceValue c < 2 := by
    intro c hc
    simp only [isBinaryDigit, Bool.or_eq_true, decide_eq_true_eq] at hc
    rcases hc with rfl | rfl <;> decide
  unfold baseDigit? at h
  split at h
  · cases h
    exact ⟨16, fun _ => rfl, fun _ => rfl, fun c hc => ⟨hc, faceValue_lt_of_hex hc⟩⟩
  · cases h
    exact ⟨16, fun _ => rfl, fun _ => rfl, fun c hc => ⟨hc, faceValue_lt_of_hex hc⟩⟩
  · cases h
    exact ⟨2, fun _ => rfl, fun _ => rfl, hbinary⟩
  · cases h
    exact ⟨2, fun _ => rfl, fun _ => rfl, hbinary⟩
  · cases h
    exact ⟨8, fun _ => rfl, fun _ => rfl, hoctal⟩
  · cases h
    exact ⟨8, fun _ => rfl, fun _ => rfl, hoctal⟩
  · cases h

theorem no_radix_of_baseDigit {c d : Char} (h : (if c = '0' then baseDigit? d else none) = none)
    (cs : List Char) :
    radix? (c :: d :: cs) = none ∧ Numeral.announcedBase? (c :: d :: cs) = none := by
  by_cases hc : c = '0'
  · subst hc
    rw [if_pos rfl] at h
    have hbases : ['x', 'X', 'b', 'B', 'o', 'O'].all fun l => (baseDigit? l).isSome := by decide
    have hd : d ∉ ['x', 'X', 'b', 'B', 'o', 'O'] := fun hd => by
      simpa [h] using List.all_eq_true.mp hbases d hd
    simp only [List.mem_cons, List.not_mem_nil, or_false, not_or] at hd
    simp [radix?, Numeral.announcedBase?, hd]
  · simp [radix?, Numeral.announcedBase?, hc]

theorem radix?_of_digits {cs : List Char} (h : ∀ c ∈ cs, isDigit c) : radix? cs = none := by
  match cs with
  | [] => rfl
  | [c] => simp [radix?]
  | c :: d :: cs =>
    refine (no_radix_of_baseDigit ?_ cs).1
    have hd : isDigit d := h d (by simp)
    rw [ite_eq_right_iff]
    intro _
    unfold baseDigit?
    split <;> first | rfl | cases hd

theorem all_of_takeWhile_length {p : Char → Bool} {cs : List Char}
    (h : (cs.takeWhile p).length = cs.length) : ∀ c ∈ cs, p c := by
  rw [← (List.takeWhile_prefix p).eq_of_length h]
  exact fun c hc => List.all_eq_true.mp List.all_takeWhile c hc

/-- The characters that make a numeral a decimal. -/
def isDecimalMark (c : Char) : Bool := c = '.' ∨ c = 'e' ∨ c = 'E'

theorem all_digits_of_decimalLength {cs : List Char} (h : decimalLength cs = cs.length)
    (hmark : ∀ c ∈ cs, isDecimalMark c = false) : ∀ c ∈ cs, isDigit c := by
  have hfraction : ∀ r, (∀ c ∈ r, isDecimalMark c = false) → fractionLength r = 0 := by
    intro r hr
    unfold fractionLength
    split
    · exact absurd (hr '.' List.mem_cons_self) (by decide)
    · rfl
  have hexponent : ∀ r, (∀ c ∈ r, isDecimalMark c = false) → exponentLength r = 0 := by
    intro r hr
    cases r with
    | nil => rfl
    | cons c r =>
      have hc := hr c List.mem_cons_self
      simp only [isDecimalMark, decide_eq_false_iff_not, not_or] at hc
      simp [exponentLength, hc]
  have hdrop : ∀ n, ∀ c ∈ cs.drop n, isDecimalMark c = false :=
    fun n c hc => hmark c (List.mem_of_mem_drop hc)
  simp only [decimalLength, hfraction _ (hdrop _), hexponent _ (hdrop _)] at h
  exact all_of_takeWhile_length h

/-- A numeral is a zero, the letter of a base and digits of the base; or it begins with no base, and
then it is made of digits if nothing makes it a decimal. -/
theorem numeral_cases {x : String} (h : IsNumeral x) :
    (∃ base ok, radix? x.toList = some (base, ok) ∧
      Numeral.announcedBase? x.toList = some base ∧
      ∀ c ∈ x.toList.drop 2, ok c ∧ isHexDigit c ∧ faceValue c < base) ∨
    (radix? x.toList = none ∧ Numeral.announcedBase? x.toList = none ∧
      (x.toList.any isDecimalMark = false → ∀ c ∈ x.toList, isDigit c)) := by
  obtain ⟨hstart, hlength⟩ := h
  match hx : x.toList with
  | [] => simp [hx] at hstart
  | [c] =>
    refine .inr ⟨by simp [radix?], by simp [Numeral.announcedBase?], fun _ => ?_⟩
    simpa [hx] using hstart
  | c :: d :: cs =>
    rw [hx] at hstart hlength
    cases hbase : if c = '0' then baseDigit? d else none with
    | some ok =>
      have hc : c = '0' := by
        by_contra hc
        rw [if_neg hc] at hbase
        cases hbase
      subst hc
      rw [if_pos rfl] at hbase
      obtain ⟨base, hradix, hannounced, hok⟩ := radix_of_baseDigit hbase
      simp only [numeralLength, if_true, hbase, List.length_cons] at hlength
      have hall : ∀ c ∈ cs, ok c := all_of_takeWhile_length (by omega)
      exact .inl ⟨base, ok, hradix cs, hannounced cs, fun c hc => ⟨hall c hc, hok c (hall c hc)⟩⟩
    | none =>
      obtain ⟨hradix, hannounced⟩ := no_radix_of_baseDigit hbase cs
      simp only [numeralLength, hbase] at hlength
      refine .inr ⟨hradix, hannounced, fun hmark => ?_⟩
      rw [List.any_eq_false] at hmark
      refine List.forall_mem_cons.mpr ⟨by simpa using hstart, ?_⟩
      apply all_digits_of_decimalLength
      · rw [List.length_cons] at hlength
        omega
      · intro e he
        simpa using hmark e (List.mem_cons_of_mem c he)

/-! ## Printed numbers -/

/-- What a numeral that is worth a whole number is worth to JavaScript: at most as much, and less
exactly if it counts in eights and has more than one digit that counts. -/
theorem scriptInteger?_of_value {x : String} (h : IsNumeral x) {n : Int}
    (hn : Numeral.value? x = some (.integer n)) :
    ∃ m, scriptInteger? x.toList = some m ∧ m ≤ n ∧
      (m = n ↔ ¬ (CountsInEights x.toList ∧ 8 ≤ n)) := by
  rcases numeral_cases h with ⟨base, ok, hradix, hannounced, hall⟩ | ⟨hradix, hannounced, hall⟩
  · simp only [Numeral.value?, hannounced] at hn
    rw [based?_of_all fun c hc => (hall c hc).2, ite_eq_iff] at hn
    obtain ⟨-, hn⟩ | ⟨hne, hn⟩ := hn
    · cases hn
    obtain rfl : (positional base (x.toList.drop 2) : Int) = n := by simpa using hn
    have hok : (x.toList.drop 2).all ok := List.all_eq_true.mpr fun c hc => (hall c hc).1
    have heights : ¬ CountsInEights x.toList := by
      rintro ⟨-, -, hoctal⟩
      have hdigits : ∀ c ∈ x.toList, isDigit c := fun c hc =>
        isDigit_of_octal (List.all_eq_true.mp hoctal c hc)
      rw [radix?_of_digits hdigits] at hradix
      cases hradix
    refine ⟨positional base (x.toList.drop 2), ?_, le_rfl, by simp [heights]⟩
    simp only [scriptInteger?, hradix]
    rw [if_pos ⟨hne, hok⟩]
  · simp only [Numeral.value?, hannounced] at hn
    split at hn
    · exact absurd hn (decimal?_ne_integer _ _)
    · rename_i hmark
      replace hall := hall (by simpa [isDecimalMark] using hmark)
      have hne := h.ne_nil
      rw [whole?_of_all hne hall, ite_eq_iff] at hn
      obtain ⟨-, hn⟩ | ⟨-, hn⟩ := hn
      · cases hn
      obtain rfl : (positional 10 x.toList : Int) = n := by simpa using hn
      have hvalue : scriptInteger? x.toList =
          some (positional (if CountsInEights x.toList then 8 else 10) x.toList : Int) := by
        simp only [scriptInteger?, hradix]
        rw [if_pos ⟨hne, List.all_eq_true.mpr hall⟩]
      refine ⟨_, hvalue, ?_⟩
      by_cases heights : CountsInEights x.toList
      · rw [if_pos heights]
        have hlt : ∀ d ∈ (x.toList.map faceValue).reverse, d < 8 := by
          intro d hd
          obtain ⟨c, hc, rfl⟩ := List.mem_map.mp (List.mem_reverse.mp hd)
          exact faceValue_lt_of_octal (List.all_eq_true.mp heights.2.2 c hc)
        have hle := Nat.ofDigits_monotone (x.toList.map faceValue).reverse (by decide : 8 ≤ 10)
        have hiff := ofDigits_eight_eq_ten_iff hlt
        unfold positional
        constructor
        · exact_mod_cast hle
        · simp only [heights, true_and]
          rw [Nat.cast_inj, hiff]
          omega
      · simp [heights]

/-- A whole number that the scanner finds is printed as a whole number of JavaScript, which is the
same one, unless it counts in eights there and is eight or more. -/
theorem printed_integer_keeps_value_iff {source : String} {c : Cursor}
    (ht : c.current ∈ tokenize source) (hk : c.current.kind = .number) {n : Int}
    (hn : Numeral.value? c.current.value = some (.integer n)) (inner : Parser.Inner) :
    ∃ node text m, (Parser.Rule.primary inner).Gives c node c.advance ∧
      Script.expression node = .ok text ∧ scriptInteger? text.toList = some m ∧ m ≤ n ∧
      (m = n ↔ ¬ (CountsInEights text.toList ∧ 8 ≤ n)) := by
  have hnumeral : IsNumeral c.current.value := by
    have hterminal := List.mem_map_of_mem (f := Token.terminal) ht
    rw [tokenize_terminals, List.mem_append] at hterminal
    rcases hterminal with hmem | hend
    · exact (terminals_lexical hmem).number hk
    · have hkind := congrArg Terminal.kind (List.mem_singleton.mp hend)
      rw [Token.terminal, hk] at hkind
      cases hkind
  obtain ⟨m, hm, hle, hiff⟩ := scriptInteger?_of_value hnumeral hn
  refine ⟨.literal (c.advance.spanFrom c.current.span) (.number (.integer n)) c.current.value false,
    c.current.value, m, ?_, ?_, hm, hle, hiff⟩
  · unfold Parser.Rule.primary
    rw [Parser.bind_gives]
    refine ⟨c.current, c, rfl, ?_⟩
    rw [hk]
    exact Parser.numeral_gives.mpr ⟨rfl, _, hn, rfl⟩
  · have hne : c.current.value.isEmpty = false := by
      rw [← Bool.not_eq_true, String.isEmpty_iff]
      intro hempty
      have hstart := hnumeral.1
      rw [hempty] at hstart
      cases hstart
    rw [Script.expression]
    simp [Script.literal, Script.numberOr, hne]

/-- Seven is seven even with zeros in front. -/
theorem printed_seven :
    (Cursor.ofTokens (tokenize "007")).current ∈ tokenize "007" ∧
      (Cursor.ofTokens (tokenize "007")).current.kind = .number ∧
      Numeral.value? (Cursor.ofTokens (tokenize "007")).current.value = some (.integer 7) ∧
      ∃ node text m, (Parser.Rule.primary (Parser.inner [])).Gives (Cursor.ofTokens (tokenize "007"))
          node (Cursor.ofTokens (tokenize "007")).advance ∧
        Script.expression node = .ok text ∧ scriptInteger? text.toList = some m ∧ m ≤ 7 ∧
        (m = 7 ↔ ¬ (CountsInEights text.toList ∧ (8 : Int) ≤ 7)) :=
  ⟨by decide, by decide, by decide,
    @printed_integer_keeps_value_iff "007" _ (by decide) (by decide) _ (by decide) _⟩

/-- Ten with a zero in front is printed as a number that JavaScript reads as eight. -/
theorem leading_zero_changes_value :
    (tokenize "010").map Token.terminal = [⟨.number, "010"⟩, ⟨.eof, ""⟩] ∧
      Numeral.value? "010" = some (.integer 10) ∧
      Script.expression (.literal {} (.number (.integer 10)) "010" false) = .ok "010" ∧
      scriptInteger? "010".toList = some 8 := by
  refine ⟨by decide, by decide, ?_, by decide⟩
  rw [Script.expression]
  rfl

end HanScript
