-- Texts as rows of pieces: words, numerals, quoted texts, signs, and what keeps
-- them apart. Which pieces may meet is said once, and what the row is read as is
-- found by going from piece to piece.
import HanScript.Proofs.Grammar.Expression
import HanScript.Proofs.Lexing.Justified
import HanScript.Proofs.Printing.Spells
import Mathlib.Data.List.Chain

namespace HanScript

open Grammar Lexeme Text Vocabulary

/-! ## Pieces -/

/-- Brackets, commas and colons, with the blanks that are written with them. -/
def brackets : List String := ["(", ")", "[", "]", ",", ", ", "\x7b ", " \x7d", "\x7b\x7d", ": "]

/-- The kinds of the signs that begin with a point. -/
def pointKinds : List TokenKind := [.dot, .spread]

/-- The characters that a sign before them could go on with. -/
def joiners : List Char := ['+', '-', '*', '/', '!', '=']

theorem not_mem_of_wordPart {cs : List Char} (hcs : cs.all fun c => isWordPart c = false) {c : Char}
    (h : isWordPart c) : c ∉ cs := by
  intro hc
  have hnot := of_decide_eq_true (List.all_eq_true.mp hcs c hc)
  rw [h] at hnot
  cases hnot

theorem not_joiner_of_wordPart {c : Char} (h : isWordPart c) : c ∉ joiners :=
  not_mem_of_wordPart (by decide) h

theorem unary_sign {e : String × TokenKind} (he : e ∈ signs) (hu : e.2 ∈ unaryOperators) :
    ∃ c ∈ ['-', '+', '!'], e.1.toList = [c] ∧ e ∈ oneSign := by
  have hall : ∀ e ∈ signs, e.2 ∈ unaryOperators →
      e.1.toList ∈ [['-'], ['+'], ['!']] ∧ e ∈ oneSign := by decide
  obtain ⟨hchars, hone⟩ := hall e he hu
  simp only [List.mem_cons, List.not_mem_nil, or_false] at hchars
  rcases hchars with h | h | h
  · exact ⟨'-', by simp, h, hone⟩
  · exact ⟨'+', by simp, h, hone⟩
  · exact ⟨'!', by simp, h, hone⟩

theorem bracket_chars {x : String} (hx : x ∈ brackets) :
    ∃ c cs, x.toList = c :: cs ∧ c ∉ joiners ∧ isWordPart c = false ∧ c ≠ '.' := by
  have hall : ∀ x ∈ brackets, x.toList.head?.any fun c =>
      c ∉ joiners ∧ isWordPart c = false ∧ c ≠ '.' := by decide
  have hhead := hall x hx
  cases hc : x.toList with
  | nil => simp [hc] at hhead
  | cons c cs => exact ⟨c, cs, rfl, by simpa [hc] using hhead⟩

/-- A piece of a text. -/
inductive Piece where
  | bracket (x : String) (listed : x ∈ brackets)
  /-- A sign between two blanks. -/
  | operator (e : String × TokenKind) (listed : e ∈ signs) (notPoint : e.2 ∉ pointKinds)
  /-- A sign right before its operand. -/
  | sign (e : String × TokenKind) (listed : e ∈ signs) (isUnary : e.2 ∈ unaryOperators)
  | word (x : String) (isWord : IsWord x)
  | number (x : String) (isNumeral : IsNumeral x)
  | quoted (mark : Char) (x : String) (isMark : mark = '"' ∨ mark = '\x60') (plain : '\\' ∉ x.toList)
  /-- A point with the word after it. -/
  | field (x : String) (isWord : IsWord x)

namespace Piece

def chars : Piece → List Char
  | bracket x _ | word x _ | number x _ => x.toList
  | operator e _ _ => ' ' :: (e.1.toList ++ [' '])
  | sign e _ _ => e.1.toList
  | quoted mark x _ _ => (Script.between mark x).toList
  | field x _ => '.' :: x.toList

/-- What is left of the piece outside of quotes. -/
def outline : Piece → List Char
  | quoted mark _ _ _ => [mark, mark]
  | p => p.chars

def tokens : Piece → List Terminal
  | bracket x _ => terminals x.toList
  | operator e _ _ | sign e _ _ => [⟨e.2, e.1⟩]
  | word x _ => [⟨wordKind x, x⟩]
  | number x _ => [⟨.number, x⟩]
  | quoted mark x _ _ => [⟨if mark = templateQuote then .template else .string, x⟩]
  | field x _ => [⟨.dot, "."⟩, ⟨wordKind x, x⟩]

/-- The piece keeps apart what stands on its two sides. -/
def isGlue : Piece → Bool
  | bracket .. | operator .. => true
  | _ => false

def isSign : Piece → Bool
  | sign .. => true
  | _ => false

/-- A number written in digits only. -/
def isInteger : Piece → Bool
  | number x _ => x.toList.all isDigit
  | _ => false

/-- The first piece may stand right before the second. -/
inductive Meets : Piece → Piece → Prop where
  | after {p q} : p.isGlue → Meets p q
  | before {p q} : q.isGlue → Meets p q
  | field {p x hx} : p.isInteger = false → Meets p (.field x hx)
  -- Only `!` may stand right before itself.
  | signed {d hd hu q} : (∀ e he hv, q = .sign e he hv → e.1 = d.1 → d.1 = "!") →
    Meets (.sign d hd hu) q

/-- What holds inside of each piece and where two of them meet holds all along. -/
theorem isChain_flatMap {α : Type} {R : α → α → Prop} {f : Piece → List α} (hne : ∀ p, f p ≠ [])
    (hin : ∀ p, (f p).IsChain R)
    (hmeet : ∀ p q, Meets p q → ∀ x ∈ (f p).getLast?, ∀ y ∈ (f q).head?, R x y) {ps : List Piece}
    (h : ps.IsChain Meets) : (ps.flatMap f).IsChain R := by
  have hnil : [] ∉ ps.map f := by
    intro hmem
    obtain ⟨p, -, hp⟩ := List.mem_map.mp hmem
    exact hne p hp
  rw [List.flatMap_def, List.isChain_flatten hnil]
  refine ⟨by simpa using fun p _ => hin p, ?_⟩
  rw [List.isChain_map]
  exact h.imp hmeet

/-! ## How pieces begin -/

/-- No piece begins like a sign but those that are one. -/
theorem head_chars (p : Piece) : ∃ c cs ds, p.chars = c :: cs ∧ p.outline = c :: ds ∧
    (c ∉ joiners ∨ ∃ e he hu, p = sign e he hu ∧ e.1.toList = [c] ∧ c ∈ ['-', '+', '!']) := by
  cases p with
  | bracket x hx =>
    obtain ⟨c, cs, hc, hjoiner, -⟩ := bracket_chars hx
    exact ⟨c, cs, cs, hc, hc, .inl hjoiner⟩
  | operator e => exact ⟨' ', _, _, rfl, rfl, .inl (by decide)⟩
  | sign e he hu =>
    obtain ⟨c, hc, hchars, -⟩ := unary_sign he hu
    exact ⟨c, [], [], hchars, hchars, .inr ⟨e, he, hu, rfl, hchars, hc⟩⟩
  | word x hx =>
    obtain ⟨c, cs, hc, hstart⟩ := hx.head
    exact ⟨c, cs, cs, hc, hc, .inl (not_joiner_of_wordPart (by simp [isWordPart, hstart]))⟩
  | number x hx =>
    cases hc : x.toList with
    | nil => simp [IsNumeral, hc] at hx
    | cons c cs =>
      have hdigit : isDigit c := by simpa [hc] using hx.1
      exact ⟨c, cs, cs, hc, hc, .inl (not_joiner_of_wordPart (by simp [isWordPart, hdigit]))⟩
  | quoted mark x hm hx =>
    refine ⟨mark, _, [mark], toList_between mark x, rfl, .inl ?_⟩
    rcases hm with rfl | rfl <;> decide
  | field x hx => exact ⟨'.', _, _, rfl, rfl, .inl (by decide)⟩

/-! ## Tokens -/

theorem closes_glue {p : Piece} (h : p.isGlue) (r : List Char) : Closes (p.chars ++ r) := by
  cases p with
  | bracket x hx =>
    obtain ⟨c, cs, hc, hjoiner, hpart, hpoint⟩ := bracket_chars hx
    simp only [joiners, List.mem_cons, not_or] at hjoiner
    simp only [chars, hc]
    exact closes_cons ⟨hpart, hjoiner.1, hjoiner.2.1⟩ hpoint _
  | operator e => exact closes_closer (by decide) _
  | _ => cases h

/-- What may follow a word, a numeral or a field does not go on with it. -/
theorem Meets.closes {p q : Piece} (h : Meets p q) (hglue : p.isGlue = false)
    (hsign : p.isSign = false) (r : List Char) : Closes (q.chars ++ r) := by
  cases h with
  | after hp =>
    rw [hp] at hglue
    cases hglue
  | before hq => exact closes_glue hq r
  | @field _ x hx _ => exact closes_field hx r
  | signed => cases hsign

theorem closes_rest {p : Piece} {ps : List Piece} (h : (p :: ps).IsChain Meets)
    (hglue : p.isGlue = false) (hsign : p.isSign = false) : Closes (ps.flatMap chars) := by
  cases ps with
  | nil => exact closes_nil
  | cons q qs =>
    rw [List.flatMap_cons]
    exact (List.isChain_cons_cons.mp h).1.closes hglue hsign _

theorem rest_ne_equals (ps : List Piece) : ∀ d ∈ (ps.flatMap chars).head?, d ≠ '=' := by
  cases ps with
  | nil => simp
  | cons q qs =>
    obtain ⟨c, cs, -, hc, -, hjoiner⟩ := q.head_chars
    have hne : c ≠ '=' := by
      rintro rfl
      rcases hjoiner with h | ⟨_, _, _, _, _, h⟩
      · exact h (by decide)
      · exact absurd h (by decide)
    simpa [hc] using hne

theorem terminals_bracket {x : String} (hx : x ∈ brackets) (r : List Char) :
    terminals (x.toList ++ r) = terminals x.toList ++ terminals r := by
  simp only [brackets, List.mem_cons, List.not_mem_nil, or_false] at hx
  rcases hx with rfl | rfl | rfl | rfl | rfl | rfl | rfl | rfl | rfl | rfl <;> simp

/-- The first piece of a text is read off by itself. -/
theorem terminals_piece {p : Piece} {ps : List Piece} (h : (p :: ps).IsChain Meets) :
    terminals (p.chars ++ ps.flatMap chars) = p.tokens ++ terminals (ps.flatMap chars) := by
  cases p with
  | bracket x hx => exact terminals_bracket hx _
  | operator e he => simp [chars, tokens, terminals_operator he]
  | sign e he hu =>
    obtain ⟨c, hc, hchars, hone⟩ := unary_sign he hu
    simp only [chars, hchars]
    exact terminals_unary hone hchars hc (rest_ne_equals ps)
  | word x hx => exact terminals_word hx (closes_rest h rfl rfl)
  | number x hx => exact terminals_numeral hx (closes_rest h rfl rfl)
  | quoted mark x hm hx => exact terminals_between hm hx _
  | field x hx =>
    have hword := terminals_word hx (closes_rest h rfl rfl)
    exact (terminals_point hx _).trans (congrArg _ hword)

theorem terminals_pieces {ps : List Piece} (h : ps.IsChain Meets) :
    terminals (ps.flatMap chars) = ps.flatMap tokens := by
  induction ps with
  | nil => simp
  | cons p ps ih => rw [List.flatMap_cons, terminals_piece h, ih h.tail, List.flatMap_cons]

/-! ## Integers before points -/

theorem bracket_tokens {x : String} (hx : x ∈ brackets) :
    terminals x.toList ≠ [] ∧ ∀ t ∈ terminals x.toList, t.kind ≠ .number ∧ t.kind ∉ pointKinds := by
  simp only [brackets, List.mem_cons, List.not_mem_nil, or_false] at hx
  rcases hx with rfl | rfl | rfl | rfl | rfl | rfl | rfl | rfl | rfl | rfl <;> simp [pointKinds]

theorem tokens_ne_nil (p : Piece) : p.tokens ≠ [] := by
  cases p with
  | bracket x hx => exact (bracket_tokens hx).1
  | _ => exact List.cons_ne_nil _ _

theorem number_of_token {p : Piece} {t : Terminal} (ht : t ∈ p.tokens) (hk : t.kind = .number) :
    ∃ hx, p = number t.value hx := by
  have hsigns : ∀ e ∈ signs, e.2 ≠ .number := by decide
  have hwords : ∀ kind ∈ wordKinds, kind ≠ .number := by decide
  cases p with
  | bracket x hx => exact absurd hk ((bracket_tokens hx).2 t ht).1
  | operator e he | sign e he =>
    rw [List.mem_singleton.mp ht] at hk
    exact absurd hk (hsigns e he)
  | word x hx =>
    rw [List.mem_singleton.mp ht] at hk
    exact absurd hk (hwords _ (wordKind_mem x))
  | number x hx =>
    obtain rfl := List.mem_singleton.mp ht
    exact ⟨hx, rfl⟩
  | quoted mark x =>
    rw [List.mem_singleton.mp ht] at hk
    revert hk
    simp only
    split <;> nofun
  | field x hx =>
    rcases List.mem_cons.mp ht with rfl | ht
    · cases hk
    · rw [List.mem_singleton.mp ht] at hk
      exact absurd hk (hwords _ (wordKind_mem x))

theorem glue_not_point {p : Piece} (h : p.isGlue) : ∀ t ∈ p.tokens, t.kind ∉ pointKinds := by
  cases p with
  | bracket x hx => exact fun t ht => ((bracket_tokens hx).2 t ht).2
  | operator e _ hpoint => simpa [tokens] using hpoint
  | _ => cases h

/-- The tokens are no integer with a point after it. -/
def Parted (s t : Terminal) : Prop :=
  s.kind = .number → s.value.toList.all isDigit → t.kind ∉ pointKinds

theorem Meets.parted {p q : Piece} (h : Meets p q) {s t : Terminal} (hs : s ∈ p.tokens)
    (ht : t ∈ q.tokens) : Parted s t := by
  intro hk hdigits
  obtain ⟨hx, rfl⟩ := number_of_token hs hk
  cases h with
  | after hp => cases hp
  | before hq => exact glue_not_point hq t ht
  | field hp =>
    rw [isInteger, hdigits] at hp
    cases hp

theorem parted_pieces {ps : List Piece} (h : ps.IsChain Meets) :
    (terminals (ps.flatMap chars)).IsChain Parted := by
  rw [terminals_pieces h]
  refine isChain_flatMap tokens_ne_nil (fun p => ?_) ?_ h
  · cases p with
    | number x hx => exact .singleton _
    | _ =>
      refine (List.pairwise_of_forall_mem_list fun s hs t _ hk => ?_).isChain
      obtain ⟨hx, hp⟩ := number_of_token hs hk
      cases hp
  · exact fun p q hpq s hs t ht =>
      hpq.parted (List.mem_of_getLast? hs) (List.mem_of_head? ht)

end Piece

end HanScript
