-- Which tokens a text spells, as long as what comes after it cannot go on with
-- its last one. Texts are put together from words, numerals, quoted texts and
-- signs, and so are the tokens that they spell. A name may be read as another
-- token than the scanner makes of it; all the rest stays what it is.
import HanScript.Proofs.Lexing.Lexical

namespace HanScript

open Lexeme Text Vocabulary

/-- Tokens that are no names are read as they are. -/
def KeepsSigns (ρ : Terminal → Terminal) : Prop := ∀ t : Terminal, t.kind ≠ .identifier → ρ t = t

theorem KeepsSigns.sign {ρ : Terminal → Terminal} (hρ : KeepsSigns ρ) (kind : TokenKind) (x : String)
    (hk : kind ≠ .identifier) : ρ ⟨kind, x⟩ = ⟨kind, x⟩ := hρ _ hk

/-- A name that is read as it is. -/
structure Named (ρ : Terminal → Terminal) (x : String) : Prop where
  isName : IsName x
  keeps : ρ ⟨.identifier, x⟩ = ⟨.identifier, x⟩

/-- With each token read by `ρ`, the text is read as the tokens, before anything that could not go
on with it. -/
def Spells (ρ : Terminal → Terminal) (text : String) (w : List Terminal) : Prop :=
  ∀ r, Closes r → (terminals (text.toList ++ r)).map ρ = w ++ (terminals r).map ρ

/-! ## Signs -/

theorem sign_not_name {e : String × TokenKind} (he : e ∈ signs) : e.2 ≠ .identifier := by
  have hall : ∀ e ∈ signs, e.2 ≠ .identifier := by decide
  exact hall e he

/-- Signs and blanks that end whatever stands before them. -/
def closers : List Char := [' ', '\n', '(', ')', '[', ']', ',', ';', ':']

theorem closes_closer {c : Char} (hc : c ∈ closers) (r : List Char) : Closes (c :: r) := by
  have hall : closers.all fun c =>
      (isWordPart c = false ∧ c ≠ '+' ∧ c ≠ '-') ∧ c ≠ '.' := by decide
  obtain ⟨hhead, hpoint⟩ := of_decide_eq_true (List.all_eq_true.mp hall c hc)
  exact closes_cons hhead hpoint r

/-- A sign that no longer sign begins with. -/
theorem terminals_lone {s : String} {kind : TokenKind} {c : Char} (he : (s, kind) ∈ oneSign)
    (hs : s.toList = [c]) (hc : ∀ p ∈ signPairs, p.1 ≠ c) (r : List Char) :
    terminals (c :: r) = ⟨kind, s⟩ :: terminals r := by
  refine terminals_sign he hs ?_ fun d _ hp => hc _ hp rfl
  rintro rfl
  exact hc ('/', '=') (by decide) rfl

section

variable (r : List Char)

@[simp] theorem terminals_space : terminals (' ' :: r) = terminals r :=
  terminals_blank rfl r

@[simp] theorem terminals_newline : terminals ('\n' :: r) = terminals r :=
  terminals_blank rfl r

@[simp] theorem terminals_leftParen : terminals ('(' :: r) = ⟨.leftParen, "("⟩ :: terminals r :=
  terminals_lone (by decide) rfl (by decide) r

@[simp] theorem terminals_rightParen : terminals (')' :: r) = ⟨.rightParen, ")"⟩ :: terminals r :=
  terminals_lone (by decide) rfl (by decide) r

@[simp] theorem terminals_leftBracket : terminals ('[' :: r) = ⟨.leftBracket, "["⟩ :: terminals r :=
  terminals_lone (by decide) rfl (by decide) r

@[simp] theorem terminals_rightBracket : terminals (']' :: r) = ⟨.rightBracket, "]"⟩ :: terminals r :=
  terminals_lone (by decide) rfl (by decide) r

@[simp] theorem terminals_leftBrace : terminals ('\x7b' :: r) = ⟨.leftBrace, "\x7b"⟩ :: terminals r :=
  terminals_lone (by decide) rfl (by decide) r

@[simp] theorem terminals_rightBrace : terminals ('\x7d' :: r) = ⟨.rightBrace, "\x7d"⟩ :: terminals r :=
  terminals_lone (by decide) rfl (by decide) r

@[simp] theorem terminals_comma : terminals (',' :: r) = ⟨.comma, ","⟩ :: terminals r :=
  terminals_lone (by decide) rfl (by decide) r

@[simp] theorem terminals_semicolon : terminals (';' :: r) = ⟨.semicolon, ";"⟩ :: terminals r :=
  terminals_lone (by decide) rfl (by decide) r

@[simp] theorem terminals_colon : terminals (':' :: r) = ⟨.colon, ":"⟩ :: terminals r :=
  terminals_lone (by decide) rfl (by decide) r

end

/-! ## Words, numerals and quoted texts -/

section

variable {ρ : Terminal → Terminal} {x : String}

theorem spells_nothing : Spells ρ "" [] := fun _ _ => rfl

theorem spells_word (h : IsWord x) : Spells ρ x [ρ ⟨wordKind x, x⟩] := by
  intro r hr
  rw [terminals_word h hr]
  rfl

/-- A name that may be read as a keyword. -/
theorem spells_name (h : IsName x) {t : Terminal} (ht : ρ ⟨.identifier, x⟩ = t) : Spells ρ x [t] := by
  rw [← ht, ← h.2]
  exact spells_word h.1

theorem Named.spells (h : Named ρ x) : Spells ρ x [⟨.identifier, x⟩] := spells_name h.isName h.keeps

variable (hρ : KeepsSigns ρ)

include hρ

theorem spells_numeral (h : IsNumeral x) : Spells ρ x [⟨.number, x⟩] := by
  intro r hr
  rw [terminals_numeral h hr, List.map_cons, hρ.sign _ _ (by decide)]
  rfl

theorem spells_quote (h : '\\' ∉ x.toList) : Spells ρ (Script.quote x) [⟨.string, x⟩] := by
  intro r _
  rw [Script.quote, terminals_between (.inl rfl) h, List.map_cons, hρ.sign _ _ (by decide)]
  rfl

theorem spells_template (h : '\\' ∉ x.toList) : Spells ρ (Script.template x) [⟨.template, x⟩] := by
  intro r _
  rw [Script.template, terminals_between (.inr rfl) h, List.map_cons, hρ.sign _ _ (by decide)]
  rfl

end

theorem IsWord.head {x : String} (h : IsWord x) : ∃ c cs, x.toList = c :: cs ∧ isWordStart c := by
  cases hc : x.toList with
  | nil => simp [IsWord, hc] at h
  | cons c cs => exact ⟨c, cs, rfl, by simpa [hc] using h.1⟩

theorem normalized_of_wordStart {c : Char} (h : isWordStart c) : normalized c = c := by
  have hnone : punctuation.lookup c = none := by
    refine List.lookup_eq_none_iff.mpr fun e he => ?_
    have hall : ∀ e ∈ punctuation, isWordStart e.1 = false := by decide
    have hne : c ≠ e.1 := by
      rintro rfl
      rw [hall e he] at h
      cases h
    simpa using hne
  simp [normalized, hnone]

theorem eq_equals_of_normalized {c : Char} (h : normalized c = '=') : c = '=' := by
  unfold normalized at h
  cases hl : punctuation.lookup c with
  | none => simpa [hl] using h
  | some d =>
    have hall : ∀ e ∈ punctuation, e.2 ≠ '=' := by decide
    rw [hl] at h
    exact absurd h (hall _ (mem_of_lookup hl))

/-- A point before a word is neither part of a number nor of a longer sign. -/
theorem closes_field {x : String} (hx : IsWord x) (r : List Char) :
    Closes ('.' :: (x.toList ++ r)) := by
  obtain ⟨c, cs, hc, hstart⟩ := hx.head
  rw [hc]
  exact closes_point hstart _

theorem terminals_point {x : String} (hx : IsWord x) (r : List Char) :
    terminals ('.' :: (x.toList ++ r)) = ⟨.dot, "."⟩ :: terminals (x.toList ++ r) := by
  obtain ⟨c, cs, hc, hstart⟩ := hx.head
  refine terminals_sign (by decide) rfl (by decide) fun d hd hp => ?_
  have hd : d = c := by simpa [hc] using hd.symm
  have hpairs : ∀ p ∈ signPairs, p.1 = '.' → isWordStart p.2 = false := by decide
  have hnot := hpairs _ hp rfl
  rw [hd, normalized_of_wordStart hstart, hstart] at hnot
  cases hnot

/-- The sign of a unary operator makes a longer sign only with `=`. -/
theorem terminals_unary {s : String} {kind : TokenKind} {c : Char} {r : List Char}
    (he : (s, kind) ∈ oneSign) (hs : s.toList = [c]) (hc : c ∈ ['-', '+', '!'])
    (hr : ∀ d ∈ r.head?, d ≠ '=') : terminals (c :: r) = ⟨kind, s⟩ :: terminals r := by
  have hpairs : ∀ p ∈ signPairs, p.1 ∈ ['-', '+', '!'] → p.2 = '=' := by decide
  refine terminals_sign he hs ?_ fun d hd hp => ?_
  · rintro rfl
    exact absurd hc (by decide)
  · exact hr d hd (eq_equals_of_normalized (hpairs _ hp hc))

/-! ## Texts made of texts -/

section

variable {ρ : Terminal → Terminal} (hρ : KeepsSigns ρ) {a b : String} {v w : List Terminal}

/-- A text with one of the signs after it that end it. -/
theorem Spells.before (ha : Spells ρ a v) (c : Char) (r : List Char) (hc : c ∈ closers) :
    (terminals (a.toList ++ c :: r)).map ρ = v ++ (terminals (c :: r)).map ρ :=
  ha _ (closes_closer hc r)

include hρ

theorem Spells.parenthesized (ha : Spells ρ a v) :
    Spells ρ (Script.parenthesized a) (⟨.leftParen, "("⟩ :: v ++ [⟨.rightParen, ")"⟩]) := by
  intro r _
  simp (disch := decide) [Script.parenthesized, ha.before, hρ.sign]

theorem Spells.operator (ha : Spells ρ a v) {e : String × TokenKind} (he : e ∈ signs)
    (hb : Spells ρ b w) : Spells ρ (a ++ " " ++ e.1 ++ " " ++ b) (v ++ ⟨e.2, e.1⟩ :: w) := by
  intro r hr
  simp (disch := decide) [ha.before, terminals_operator he, hb r hr, hρ.sign _ _ (sign_not_name he)]

theorem Spells.applied (ha : Spells ρ a v) (hb : Spells ρ b w) :
    Spells ρ (a ++ Script.parenthesized b) (v ++ ⟨.leftParen, "("⟩ :: w ++ [⟨.rightParen, ")"⟩]) := by
  intro r _
  simp (disch := decide) [Script.parenthesized, ha.before, hb.before, hρ.sign]

theorem Spells.indexed (ha : Spells ρ a v) (hb : Spells ρ b w) :
    Spells ρ (a ++ "[" ++ b ++ "]") (v ++ ⟨.leftBracket, "["⟩ :: w ++ [⟨.rightBracket, "]"⟩]) := by
  intro r _
  simp (disch := decide) [ha.before, hb.before, hρ.sign]

theorem Spells.keyed (hb : Spells ρ b w) {x : String} (hx : Named ρ x) :
    Spells ρ (x ++ ": " ++ b) (⟨.identifier, x⟩ :: ⟨.colon, ":"⟩ :: w) := by
  intro r hr
  simp (disch := decide) [hx.spells.before, hb r hr, hρ.sign]

theorem Spells.pointed (ha : Spells ρ a v) {x : String} (hx : Named ρ x) :
    Spells ρ (a ++ "." ++ x) (v ++ [⟨.dot, "."⟩, ⟨.identifier, x⟩]) := by
  intro r hr
  simp (disch := decide) [ha _ (closes_field hx.isName.1 r), terminals_point hx.isName.1, hx.spells r hr,
    hρ.sign]

omit hρ

/-- The kinds of the signs that begin with `=`. -/
def equalsKinds : List TokenKind := [.assign, .equal, .strictEqual, .arrow]

theorem sign?_equals (cs : List Char) : ∃ l, sign? ('=' :: cs) = some l ∧ l.kind ∈ equalsKinds := by
  have hkinds : ∀ e ∈ signsAndTags, e.1.toList.head? = some '=' → e.2 ∈ equalsKinds := by decide
  obtain ⟨l, hl, hmem, hhead⟩ := sign?_of_head (c := '=') (by decide) cs
  exact ⟨l, hl, hkinds _ hmem hhead⟩

include hρ

/-- A text that spells what an expression begins with does not begin with `=`. -/
theorem Spells.head_ne_equals {t : Terminal} (ha : Spells ρ a (t :: v)) (ht : t.kind ∉ equalsKinds) :
    ∃ d cs, a.toList = d :: cs ∧ d ≠ '=' := by
  have hterminals : (terminals a.toList).map ρ = t :: v := by simpa using ha [] closes_nil
  cases hc : a.toList with
  | nil => simp [hc] at hterminals
  | cons d cs =>
    refine ⟨d, cs, rfl, ?_⟩
    rintro rfl
    obtain ⟨l, hl, hkind⟩ := sign?_equals cs
    have hnext : next ('=' :: cs) = l := next_sign rfl rfl hl
    have hgap : gap? ('=' :: cs) = none := gap?_none rfl nofun
    have hname : ∀ kind ∈ equalsKinds, kind ≠ .identifier := by decide
    rw [hc, terminals_of_next (List.cons_ne_nil _ _) hgap, hnext, List.map_cons,
      hρ _ (hname _ hkind)] at hterminals
    cases hterminals
    exact ht hkind

/-- A sign before an operand, if the two do not make a longer sign. -/
theorem Spells.prefixed {s : String} {kind : TokenKind} {c : Char} (hs : s.toList = [c])
    (he : (s, kind) ∈ oneSign) (hc : c ∈ ['-', '+', '!']) (ha : Spells ρ a v)
    (hd : ∃ d cs, a.toList = d :: cs ∧ d ≠ '=') : Spells ρ (s ++ a) (⟨kind, s⟩ :: v) := by
  intro r hr
  obtain ⟨d, cs, hd, hne⟩ := hd
  have hsign := terminals_unary (r := a.toList ++ r) he hs hc (by simpa [hd] using hne)
  have hname : ∀ e ∈ oneSign, e.2 ≠ .identifier := by decide
  simp [hs, hsign, ha r hr, hρ.sign _ _ (hname _ he)]

end

end HanScript
