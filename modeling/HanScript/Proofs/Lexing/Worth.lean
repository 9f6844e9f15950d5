-- What the numerals of a source text are worth. How they are scanned and how
-- they are converted is said apart, but the two agree: a numeral is worth what
-- its digits show, unless digits are missing from it or there are too many.
import HanScript.Proofs.Lexing.Justified
import HanScript.Proofs.Printing.Integer
import Mathlib.Data.List.TakeDrop

namespace HanScript

open Lexeme Text

/-! ## What is shown by how a numeral is written -/

/-- The letter of an exponent stands in the text, and there is no digit after it. -/
def HasBareExponent (text : List Char) : Prop :=
  ∃ front letter back, text = front ++ letter :: back ∧ letter ∈ ['e', 'E'] ∧ ∀ c ∈ back, isDigit c = false

/-- The ways in which a numeral is worth nothing. -/
inductive Defective : List Char → Prop where
  | base {text} : (radix? text).isSome → text.length = 2 → Defective text
  | exponent {text} : radix? text = none → HasBareExponent text → Defective text
  | length {text} : text.all isDigit → 4300 < text.length → Defective text

/-- The power of ten that an exponent stands for. -/
inductive PowerOf : List Char → Int → Prop where
  | none : PowerOf [] 0
  | up {letter sign ds} : letter ∈ ['e', 'E'] → sign ∈ [[], ['+']] → ds ≠ [] → ds.all isDigit →
    PowerOf (letter :: (sign ++ ds)) (positional 10 ds)
  | down {letter ds} : letter ∈ ['e', 'E'] → ds ≠ [] → ds.all isDigit →
    PowerOf (letter :: '-' :: ds) (-positional 10 ds)

/-- The text shows a number in tens, with a point and an exponent or without, and the double is the
nearest to it. -/
inductive Shows : List Char → Double → Prop where
  | intro {whole fraction exponent power} : whole ≠ [] → whole.all isDigit → Fraction fraction →
    PowerOf exponent power →
    Shows (whole ++ fraction ++ exponent)
      (.ofDecimal false (positional 10 (whole ++ fraction.drop 1)) (power - (fraction.drop 1).length))

/-- What a numeral is worth: the whole number that its digits denote in its base or in tens, and else
the double that it shows. -/
structure Worth (text : List Char) (n : Number) : Prop where
  based : ∀ base ok, radix? text = some (base, ok) → n = .integer (positional base (text.drop 2))
  whole : text.all isDigit → n = .integer (positional 10 text)
  decimal : radix? text = none → ¬ text.all isDigit → ∃ d, n = .double d ∧ Shows text d

/-! ## Bare exponents -/

theorem HasBareExponent.append {text : List Char} (h : HasBareExponent text) (front : List Char) :
    HasBareExponent (front ++ text) := by
  obtain ⟨before, letter, back, rfl, hletter, hback⟩ := h
  exact ⟨front ++ before, letter, back, by simp, hletter, hback⟩

/-- A text that ends with digits has none: the last of them comes after every letter. -/
theorem not_hasBareExponent {ds : List Char} (hne : ds ≠ []) (hds : ds.all isDigit) (front : List Char) :
    ¬ HasBareExponent (front ++ ds) := by
  rintro ⟨before, letter, back, heq, hletter, hback⟩
  have hlast := congrArg List.getLast? heq
  rw [List.getLast?_append_of_ne_nil _ hne, List.getLast?_append_of_ne_nil _ (List.cons_ne_nil _ _),
    List.getLast?_eq_some_getLast hne] at hlast
  have hdigit : isDigit (ds.getLast hne) := List.all_eq_true.mp hds _ (List.getLast_mem hne)
  rcases List.mem_cons.mp (List.mem_of_getLast? hlast.symm) with hl | hb
  · rw [hl] at hdigit
    simp only [List.mem_cons, List.not_mem_nil, or_false] at hletter
    rcases hletter with rfl | rfl <;> cases hdigit
  · rw [hback _ hb] at hdigit
    cases hdigit

theorem PowerOf.not_bare {whole fraction exponent : List Char} {power : Int} (h : PowerOf exponent power)
    (hne : whole ≠ []) (hwhole : whole.all isDigit) (hf : Fraction fraction) :
    ¬ HasBareExponent (whole ++ fraction ++ exponent) := by
  cases h with
  | none =>
    rw [List.append_nil]
    cases hf with
    | none =>
      rw [List.append_nil]
      exact not_hasBareExponent hne hwhole []
    | @some ds hds hall =>
      rw [← List.singleton_append, ← List.append_assoc]
      exact not_hasBareExponent hds hall _
  | @up letter sign ds _ _ hds hall =>
    rw [← List.cons_append, ← List.append_assoc]
    exact not_hasBareExponent hds hall _
  | @down letter ds _ hds hall =>
    have hsplit : letter :: '-' :: ds = [letter, '-'] ++ ds := rfl
    rw [hsplit, ← List.append_assoc]
    exact not_hasBareExponent hds hall _

/-! ## Decimals -/

/-- The part of a decimal from the letter of its exponent on. -/
def power? : List Char → Option Int
  | [] => some 0
  | _ :: tail => Numeral.exponent? tail

theorem exponent?_of_digits {sign ds : List Char} (hsign : sign ∈ [[], ['+'], ['-']])
    (hds : ∀ c ∈ ds, isDigit c) :
    Numeral.exponent? (sign ++ ds) =
      if ds = [] then none
      else some (if sign = ['-'] then -(positional 10 ds : Int) else positional 10 ds) := by
  have hsigned : Numeral.signed (sign ++ ds) = (decide (sign = ['-']), ds) := by
    simp only [List.mem_cons, List.not_mem_nil, or_false] at hsign
    rcases hsign with rfl | rfl | rfl
    · exact signed_of_head fun c hc => not_sign_of_digit (hds c (List.mem_of_mem_head? hc))
    · rfl
    · rfl
  unfold Numeral.exponent?
  rw [hsigned]
  by_cases hne : ds = []
  · rw [hne]
    rfl
  · simp only [digits?_of_digits hne hds, if_neg hne, Option.map_some, ofDigits_map_faceValue,
      decide_eq_true_eq]

/-- An exponent has digits and stands for a power of ten, or it is bare and stands for none. -/
theorem power?_cases {e : List Char} (h : Exponent e) :
    (∃ power, PowerOf e power ∧ power? e = some power) ∨ HasBareExponent e ∧ power? e = none := by
  cases h with
  | none => exact .inl ⟨0, .none, rfl⟩
  | @some letter sign ds hletter hsign hds =>
    have hvalue : power? (letter :: (sign ++ ds)) = _ :=
      exponent?_of_digits hsign (List.all_eq_true.mp hds)
    rw [hvalue]
    by_cases hne : ds = []
    · right
      refine ⟨⟨[], letter, sign ++ ds, rfl, hletter, ?_⟩, if_pos hne⟩
      have hsigns : ∀ sign ∈ [[], ['+'], ['-']], sign.all (isDigit · = false) := by decide
      rw [hne, List.append_nil]
      simpa using hsigns sign hsign
    · left
      rw [if_neg hne]
      by_cases hminus : sign = ['-']
      · rw [if_pos hminus, hminus]
        exact ⟨_, .down hletter hne hds, rfl⟩
      · rw [if_neg hminus]
        refine ⟨_, .up hletter ?_ hne hds, rfl⟩
        simpa [hminus] using hsign

theorem span_append {p : Char → Bool} {cs ds : List Char} (hcs : ∀ c ∈ cs, p c)
    (hds : ∀ d ∈ ds.head?, p d = false) : (cs ++ ds).span p = (cs, ds) := by
  have hnone : ds.takeWhile p = [] ∧ ds.dropWhile p = ds := by
    cases ds with
    | nil => exact ⟨rfl, rfl⟩
    | cons d ds =>
      have hd : ¬ p d := by simpa using hds d rfl
      exact ⟨List.takeWhile_cons_of_neg hd, List.dropWhile_cons_of_neg hd⟩
  rw [List.span_eq_takeWhile_dropWhile, List.takeWhile_append_of_pos hcs, List.dropWhile_append_of_pos hcs,
    hnone.1, hnone.2, List.append_nil]

theorem digitsOrNone?_of_digits {ds : List Char} (h : ∀ c ∈ ds, isDigit c) :
    Numeral.digitsOrNone? ds = some (ds.map faceValue) := by
  cases ds with
  | nil => rfl
  | cons d ds => exact digits?_of_digits (List.cons_ne_nil d ds) h

theorem not_padding_of_numeralPart {c : Char} (h : isNumeralPart c) : Numeral.isPadding c = false := by
  have hblank : isBlank c = false := by
    simp only [isNumeralPart, Bool.or_eq_true, decide_eq_true_eq] at h
    rcases h with ((hword | rfl) | rfl) | rfl
    · exact not_blank_of_wordPart hword
    · rfl
    · rfl
    · rfl
  rw [Numeral.isPadding, hblank, Bool.false_and]

theorem not_mark_of_digit {c : Char} (h : isDigit c) : c ≠ '.' ∧ c ≠ 'e' ∧ c ≠ 'E' := by
  refine ⟨?_, ?_, ?_⟩ <;> rintro rfl <;> cases h

theorem Exponent.head {e : List Char} (h : Exponent e) : ∀ c ∈ e.head?, c = 'e' ∨ c = 'E' := by
  cases h with
  | none => simp
  | some hletter => simpa using hletter

theorem Fraction.digits {f : List Char} (h : Fraction f) :
    (∀ c ∈ f.head?, c = '.') ∧ ∀ c ∈ f.drop 1, isDigit c := by
  cases h with
  | none => simp
  | some _ hds => exact ⟨by simp, List.all_eq_true.mp hds⟩

/-- A decimal is worth the number that its digits show, if its exponent stands for a power. -/
theorem decimal?_of_form {whole fraction exponent : List Char} (hne : whole ≠ [])
    (hwhole : ∀ c ∈ whole, isDigit c) (hf : Fraction fraction) (he : Exponent exponent)
    (hparts : ∀ c ∈ whole ++ fraction ++ exponent, isNumeralPart c) :
    Numeral.decimal? (whole ++ fraction ++ exponent) = (power? exponent).map fun power =>
      .double (.ofDecimal false (positional 10 (whole ++ fraction.drop 1))
        (power - (fraction.drop 1).length)) := by
  obtain ⟨hhead, hdigits⟩ := hf.digits
  have hfraction : ∀ c ∈ fraction, c ≠ 'e' ∧ c ≠ 'E' := by
    cases hf with
    | none => simp
    | some _ hds =>
      refine List.forall_mem_cons.mpr ⟨by decide, fun c hc => ?_⟩
      exact (not_mark_of_digit (List.all_eq_true.mp hds c hc)).2
  have htrimmed := trimmed_of_all fun c hc => not_padding_of_numeralPart (hparts c hc)
  have hsigned : Numeral.signed (whole ++ fraction ++ exponent) =
      (false, whole ++ fraction ++ exponent) := by
    obtain ⟨d, ds, rfl⟩ := List.exists_cons_of_ne_nil hne
    exact signed_of_head fun c hc => by
      cases hc
      exact not_sign_of_digit (hwhole d List.mem_cons_self)
  have hmantissa : (whole ++ fraction ++ exponent).span (fun c => c ≠ 'e' ∧ c ≠ 'E') =
      (whole ++ fraction, exponent) := by
    apply span_append
    · refine List.forall_mem_append.mpr ⟨fun c hc => ?_, fun c hc => ?_⟩
      · exact decide_eq_true (not_mark_of_digit (hwhole c hc)).2
      · exact decide_eq_true (hfraction c hc)
    · intro c hc
      rcases he.head c hc with rfl | rfl <;> rfl
  have hpoint : (whole ++ fraction).span (· ≠ '.') = (whole, fraction) := by
    apply span_append
    · exact fun c hc => decide_eq_true (not_mark_of_digit (hwhole c hc)).1
    · intro c hc
      rw [hhead c hc]
      rfl
  simp only [Numeral.decimal?, htrimmed, hsigned, hmantissa, hpoint, digitsOrNone?_of_digits hwhole,
    digitsOrNone?_of_digits hdigits]
  cases exponent with
  | nil => simp [power?, hne, ← ofDigits_map_faceValue]
  | cons letter tail =>
    cases hp : Numeral.exponent? tail with
    | none => simp [power?, hp]
    | some power => simp [power?, hp, hne, ← ofDigits_map_faceValue]

/-! ## Numerals -/

theorem radix?_some {text : List Char} {r : Nat × (Char → Bool)} (h : radix? text = some r) :
    ∃ letter ds, text = '0' :: letter :: ds := by
  unfold radix? at h
  split at h
  · exact ⟨_, _, rfl⟩
  · cases h

theorem not_digits_of_radix {text : List Char} {r : Nat × (Char → Bool)} (h : radix? text = some r) :
    ¬ text.all isDigit := by
  intro hall
  rw [radix?_of_digits (List.all_eq_true.mp hall)] at h
  cases h

/-- The conversion of a numeral, by how it is written. -/
def Converted (text : List Char) (value : Option Number) : Prop :=
  Defective text ∧ value = none ∨ ¬ Defective text ∧ ∃ n, value = some n ∧ Worth text n

theorem converted_based {text : List Char} {base : Nat} {ok : Char → Bool}
    (hradix : radix? text = some (base, ok))
    (hall : ∀ c ∈ text.drop 2, isHexDigit c ∧ faceValue c < base) :
    Converted text (Numeral.based? base (text.drop 2)) := by
  have hnot := not_digits_of_radix hradix
  obtain ⟨letter, ds, rfl⟩ := radix?_some hradix
  rw [based?_of_all hall]
  by_cases hds : ds = []
  · left
    rw [hds] at hradix ⊢
    exact ⟨.base (by rw [hradix]; rfl) rfl, rfl⟩
  · right
    refine ⟨?_, _, if_neg hds, ?_, fun h => absurd h hnot, fun h => ?_⟩
    · intro hdefect
      cases hdefect with
      | base _ hlength => exact hds (List.eq_nil_of_length_eq_zero (by simpa using hlength))
      | exponent hnone =>
        rw [hradix] at hnone
        cases hnone
      | length h => exact hnot h
    · intro base' ok' h
      rw [hradix] at h
      cases h
      rfl
    · rw [hradix] at h
      cases h

theorem converted_whole {text : List Char} (hne : text ≠ []) (hall : text.all isDigit) :
    Converted text (Numeral.whole? text) := by
  have hdigits := List.all_eq_true.mp hall
  have hradix := radix?_of_digits hdigits
  rw [whole?_of_all hne hdigits]
  by_cases hlong : 4300 < text.length
  · exact .inl ⟨.length hall hlong, if_pos hlong⟩
  · right
    refine ⟨?_, _, if_neg hlong, fun base ok h => ?_, fun _ => rfl, fun _ h => absurd hall h⟩
    · intro hdefect
      cases hdefect with
      | base hsome =>
        rw [hradix] at hsome
        cases hsome
      | exponent _ hbare => exact not_hasBareExponent hne hall [] hbare
      | length _ h => exact hlong h
    · rw [hradix] at h
      cases h

theorem converted_decimal {text : List Char} (hform : NumeralForm text) (hradix : radix? text = none)
    (hparts : ∀ c ∈ text, isNumeralPart c) (hnot : ¬ text.all isDigit) :
    Converted text (Numeral.decimal? text) := by
  cases hform with
  | @based base ds hbase _ =>
    obtain ⟨_, hsome, -⟩ := radix_of_baseDigit (baseDigit?_of_mem hbase)
    rw [hsome ds] at hradix
    cases hradix
  | @decimal whole fraction exponent hne hwhole hf he =>
    rw [decimal?_of_form hne (List.all_eq_true.mp hwhole) hf he hparts]
    rcases power?_cases he with ⟨power, hpower, hvalue⟩ | ⟨hbare, hvalue⟩
    · right
      rw [hvalue]
      refine ⟨?_, _, rfl, fun base ok h => ?_, fun h => absurd h hnot, fun _ _ => ?_⟩
      · intro hdefect
        cases hdefect with
        | base hsome =>
          rw [hradix] at hsome
          cases hsome
        | exponent _ hbare => exact hpower.not_bare hne hwhole hf hbare
        | length h => exact hnot h
      · rw [hradix] at h
        cases h
      · exact ⟨_, rfl, .intro hne hwhole hf hpower⟩
    · left
      rw [hvalue]
      exact ⟨.exponent hradix (hbare.append _), rfl⟩

/-- Every numeral is converted by how it is written. -/
theorem converted_of_numeral {x : String} (h : IsNumeral x) : Converted x.toList (Numeral.value? x) := by
  unfold Numeral.value?
  rcases numeral_cases h with ⟨base, ok, hradix, hannounced, hall⟩ | ⟨hradix, hannounced, hdigits⟩
  · simp only [hannounced]
    exact converted_based hradix fun c hc => (hall c hc).2
  · simp only [hannounced]
    split
    · rename_i hmark
      refine converted_decimal h.form hradix h.numeralPart fun hall => ?_
      obtain ⟨c, hc, hm⟩ := List.any_eq_true.mp hmark
      have hnot := not_mark_of_digit (List.all_eq_true.mp hall c hc)
      exact absurd (of_decide_eq_true hm) (by simp [hnot])
    · rename_i hmark
      refine converted_whole h.ne_nil (List.all_eq_true.mpr (hdigits ?_))
      simpa [isDecimalMark] using hmark

theorem numberOf_eq (t : Token) (c : Cursor) :
    (Parser.numberOf t c).1 = match Numeral.value? t.value with
      | some n => .ok n
      | none => .error (.atToken t (.badNumeral t.value)) := by
  unfold Parser.numberOf
  cases Numeral.value? t.value with
  | none => rfl
  | some n => rfl

/-- For every numeral that the scanner finds: it is no number exactly if a base or an exponent has no
digits or a number in tens has more than 4300; and else it is the number that its digits show. -/
theorem numerals_are_worth_their_digits {source : String} {t : Token} (ht : t ∈ tokenize source)
    (hk : t.kind = .number) (c : Cursor) :
    ((∃ e, (Parser.numberOf t c).1 = .error e) ↔ Defective t.value.toList) ∧
    (¬ Defective t.value.toList →
      ∃ n, (Parser.numberOf t c).1 = .ok n ∧ Worth t.value.toList n) := by
  rw [numberOf_eq]
  rcases converted_of_numeral (isNumeral_of_token ht hk) with ⟨hdefect, hvalue⟩ | ⟨hsound, n, hvalue, hn⟩
  · rw [hvalue]
    exact ⟨⟨fun _ => hdefect, fun _ => ⟨_, rfl⟩⟩, fun hsound => absurd hdefect hsound⟩
  · rw [hvalue]
    refine ⟨⟨fun ⟨_, he⟩ => ?_, fun hdefect => absurd hdefect hsound⟩, fun _ => ⟨n, rfl, hn⟩⟩
    cases he

/-- Digits of base sixteen that end like a bare exponent. -/
def hexLikeExponent : Token := ⟨.number, "0X1e", ⟨1, 1, 0, 4⟩⟩

def bareExponent : Token := ⟨.number, "1.5e+", ⟨1, 6, 5, 10⟩⟩

theorem hexLikeExponent_is_worth_thirty :
    hexLikeExponent ∈ tokenize "0X1e 1.5e+" ∧ hexLikeExponent.kind = .number ∧
      Worth hexLikeExponent.value.toList (.integer 30) ∧
      bareExponent ∈ tokenize "0X1e 1.5e+" ∧ bareExponent.kind = .number ∧
      Defective bareExponent.value.toList := by
  have hhex : hexLikeExponent ∈ tokenize "0X1e 1.5e+" := by decide
  have hbare : bareExponent ∈ tokenize "0X1e 1.5e+" := by decide
  obtain ⟨herror, hworth⟩ := numerals_are_worth_their_digits hhex rfl (.ofTokens [])
  have hsound : ¬ Defective hexLikeExponent.value.toList := by
    intro hdefect
    obtain ⟨e, he⟩ := herror.mpr hdefect
    cases he
  obtain ⟨n, hn, hw⟩ := hworth hsound
  cases hn
  have hdefect := (numerals_are_worth_their_digits hbare rfl (.ofTokens [])).1.mp ⟨_, rfl⟩
  exact ⟨hhex, rfl, hw, hbare, rfl, hdefect⟩

end HanScript
