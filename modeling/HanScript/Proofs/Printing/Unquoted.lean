-- What a text shows outside of quotes. Strings and templates can hold anything, so
-- they are cut out before two characters of a text are looked at side by side.
import HanScript.Proofs.Printing.Pieces

namespace HanScript

open Lexeme Text Vocabulary

/-! ## Cutting out what is quoted -/

def quoteMarks : List Char := ['"', '\x27', '\x60']

/-- The text without what stands in quotes. The state is the mark of the quotes that are open. -/
def unquoted : Option Char → List Char → List Char
  | _, [] => []
  | none, c :: cs => c :: unquoted (if c ∈ quoteMarks then some c else none) cs
  | some mark, '\\' :: _ :: cs => unquoted (some mark) cs
  | some mark, c :: cs => if c = mark then c :: unquoted none cs else unquoted (some mark) cs

theorem unquoted_append {cs : List Char} (h : ∀ c ∈ cs, c ∉ quoteMarks) (r : List Char) :
    unquoted none (cs ++ r) = cs ++ unquoted none r := by
  induction cs with
  | nil => rfl
  | cons c cs ih =>
    rw [List.forall_mem_cons] at h
    rw [List.cons_append, unquoted, if_neg h.1, ih h.2, List.cons_append]

theorem unquoted_escaped {mark : Char} (hm : mark ≠ '\\') {cs : List Char} (hc : '\\' ∉ cs)
    (r : List Char) : unquoted (some mark) (escaped mark cs ++ mark :: r) = mark :: unquoted none r := by
  induction cs with
  | nil => simp [escaped, unquoted, hm]
  | cons c cs ih =>
    simp only [List.mem_cons, not_or] at hc
    have ih := ih hc.2
    by_cases h : c = mark
    · have hcons : escaped mark (c :: cs) = '\\' :: c :: escaped mark cs := by simp [escaped, h]
      rw [hcons, List.cons_append, List.cons_append, unquoted, ih]
    · have hcons : escaped mark (c :: cs) = c :: escaped mark cs := by simp [escaped, h]
      rw [hcons, List.cons_append, unquoted, if_neg h, ih]
      rintro _ _ rfl
      exact absurd rfl hc.1

/-! ## Pairs of characters -/

/-- The pairs of characters that are read as one sign, or as the beginning of a comment. -/
def merging : List (Char × Char) := [('+', '+'), ('-', '-'), ('/', '/'), ('/', '*')]

def Apart (c d : Char) : Prop := (c, d) ∉ merging

instance (c d : Char) : Decidable (Apart c d) := inferInstanceAs (Decidable ((c, d) ∉ merging))

theorem apart_of_right {c d : Char} (h : d ∉ joiners) : Apart c d := by
  intro hmem
  have hall : ∀ e ∈ merging, e.2 ∈ joiners := by decide
  exact h (hall _ hmem)

theorem apart_of_left {c d : Char} (h : c ∉ joiners) : Apart c d := by
  intro hmem
  have hall : ∀ e ∈ merging, e.1 ∈ joiners := by decide
  exact h (hall _ hmem)

theorem apart_signs {c d : Char} (hc : c ∈ ['-', '+', '!']) (h : c = d → c = '!') : Apart c d := by
  intro hmem
  have hall : ∀ e ∈ merging, e.1 ∈ ['-', '+', '!'] → e.1 = e.2 ∧ e.1 ≠ '!' := by decide
  obtain ⟨heq, hne⟩ := hall _ hmem hc
  exact hne (h heq)

theorem isChain_of_not_joiners {cs : List Char} (h : ∀ c ∈ cs, c ∉ joiners) : cs.IsChain Apart :=
  (List.pairwise_of_forall_mem_list fun _ _ d hd => apart_of_right (h d hd)).isChain

/-! ## Numerals -/

/-- There is at most one sign in the characters. Letters and digits may stand everywhere, and points
only before the sign. -/
def SignedOnce (cs : List Char) : Prop :=
  ∃ front back, cs = front ++ back ∧ (∀ c ∈ front, isWordPart c ∨ c = '.') ∧
    (back = [] ∨ ∃ s ds, back = s :: ds ∧ s ∈ ['+', '-'] ∧ ∀ c ∈ ds, isWordPart c)

theorem SignedOnce.append {cs ds : List Char} (hcs : ∀ c ∈ cs, isWordPart c ∨ c = '.')
    (h : SignedOnce ds) : SignedOnce (cs ++ ds) := by
  obtain ⟨front, back, rfl, hfront, hback⟩ := h
  exact ⟨cs ++ front, back, (List.append_assoc ..).symm, List.forall_mem_append.mpr ⟨hcs, hfront⟩, hback⟩

theorem wordPart_of_digits {ds : List Char} (hds : ds.all isDigit) : ∀ c ∈ ds, isWordPart c := by
  intro c hc
  simp [isWordPart, List.all_eq_true.mp hds c hc]

theorem Exponent.signedOnce {e : List Char} (h : Exponent e) : SignedOnce e := by
  cases h with
  | none => exact ⟨[], [], rfl, by simp, .inl rfl⟩
  | @some letter sign ds hletter hsign hds =>
    have hpart : isWordPart letter := by
      simp only [List.mem_cons, List.not_mem_nil, or_false] at hletter
      rcases hletter with rfl | rfl <;> rfl
    have hdigits := wordPart_of_digits hds
    simp only [List.mem_cons, List.not_mem_nil, or_false] at hsign
    rcases hsign with rfl | rfl | rfl
    · refine ⟨letter :: ds, [], by simp, ?_, .inl rfl⟩
      exact List.forall_mem_cons.mpr ⟨.inl hpart, fun c hc => .inl (hdigits c hc)⟩
    · exact ⟨[letter], '+' :: ds, rfl, by simp [hpart], .inr ⟨_, ds, rfl, by decide, hdigits⟩⟩
    · exact ⟨[letter], '-' :: ds, rfl, by simp [hpart], .inr ⟨_, ds, rfl, by decide, hdigits⟩⟩

theorem NumeralForm.signedOnce {cs : List Char} (h : NumeralForm cs) : SignedOnce cs := by
  cases h with
  | @based base ds hbase hds =>
    have hletters : ∀ base ∈ bases, isWordPart base.1 := by
      simp only [bases, List.forall_mem_cons]
      decide
    have hdigits : ∀ c ∈ ds, isWordPart c := fun c hc =>
      isWordPart_of_baseDigit (baseDigit?_of_mem hbase) (List.all_eq_true.mp hds c hc)
    refine ⟨'0' :: base.1 :: ds, [], by simp, ?_, .inl rfl⟩
    simp only [List.forall_mem_cons]
    exact ⟨.inl rfl, .inl (hletters base hbase), fun c hc => .inl (hdigits c hc)⟩
  | @decimal whole f e _ hwhole hf he =>
    have hfraction : ∀ c ∈ f, isWordPart c ∨ c = '.' := by
      cases hf with
      | none => simp
      | some _ hds =>
        exact List.forall_mem_cons.mpr ⟨.inr rfl, fun c hc => .inl (wordPart_of_digits hds c hc)⟩
    refine he.signedOnce.append (List.forall_mem_append.mpr ⟨fun c hc => ?_, hfraction⟩)
    exact .inl (wordPart_of_digits hwhole c hc)

theorem not_mark_of_wordPart {c : Char} (h : isWordPart c) : c ∉ quoteMarks :=
  not_mem_of_wordPart (by decide) h

theorem SignedOnce.not_mark {cs : List Char} (h : SignedOnce cs) : ∀ c ∈ cs, c ∉ quoteMarks := by
  obtain ⟨front, back, rfl, hfront, hback⟩ := h
  refine List.forall_mem_append.mpr ⟨fun c hc => ?_, ?_⟩
  · rcases hfront c hc with hpart | rfl
    · exact not_mark_of_wordPart hpart
    · decide
  · rcases hback with rfl | ⟨s, ds, rfl, hs, hds⟩
    · simp
    · refine List.forall_mem_cons.mpr ⟨?_, fun c hc => not_mark_of_wordPart (hds c hc)⟩
      simp only [List.mem_cons, List.not_mem_nil, or_false] at hs
      rcases hs with rfl | rfl <;> decide

theorem SignedOnce.apart {cs : List Char} (h : SignedOnce cs) : cs.IsChain Apart := by
  obtain ⟨front, back, rfl, hfront, hback⟩ := h
  have hfront : ∀ c ∈ front, c ∉ joiners := by
    intro c hc
    rcases hfront c hc with hpart | rfl
    · exact not_joiner_of_wordPart hpart
    · decide
  rcases hback with rfl | ⟨s, ds, rfl, -, hds⟩
  · simpa using isChain_of_not_joiners hfront
  · have hds : ∀ c ∈ ds, c ∉ joiners := fun c hc => not_joiner_of_wordPart (hds c hc)
    refine (isChain_of_not_joiners hfront).append ?_ fun c hc _ _ =>
      apart_of_left (hfront c (List.mem_of_getLast? hc))
    exact List.isChain_cons.mpr
      ⟨fun d hd => apart_of_right (hds d (List.mem_of_head? hd)), isChain_of_not_joiners hds⟩

/-! ## Rows of pieces -/

namespace Piece

/-- Outside of quotes there is nothing but the outline. -/
theorem unquoted_piece (p : Piece) (r : List Char) :
    unquoted none (p.chars ++ r) = p.outline ++ unquoted none r := by
  have hsigns : ∀ e ∈ signs, e.1.toList.all (· ∉ quoteMarks) := by decide
  cases p with
  | bracket x hx =>
    have hall : ∀ x ∈ brackets, x.toList.all (· ∉ quoteMarks) := by decide
    exact unquoted_append (by simpa [chars] using hall x hx) r
  | operator e he =>
    have hchars : ∀ c ∈ e.1.toList, c ∉ quoteMarks := by simpa using hsigns e he
    refine unquoted_append (List.forall_mem_cons.mpr ⟨by decide, ?_⟩) r
    exact List.forall_mem_append.mpr ⟨hchars, by simp [quoteMarks]⟩
  | sign e he => exact unquoted_append (by simpa [chars] using hsigns e he) r
  | word x hx => exact unquoted_append (fun c hc => not_mark_of_wordPart (List.all_eq_true.mp hx.2 c hc)) r
  | number x hx => exact unquoted_append hx.form.signedOnce.not_mark r
  | quoted mark x hm hx =>
    have hmark : mark ∈ quoteMarks ∧ mark ≠ '\\' := by
      rcases hm with rfl | rfl <;> decide
    simp only [chars, outline, toList_between, List.cons_append, List.append_assoc, List.nil_append]
    rw [unquoted, if_pos hmark.1, unquoted_escaped hmark.2 hx]
  | field x hx =>
    refine unquoted_append (List.forall_mem_cons.mpr ⟨by decide, fun c hc => ?_⟩) r
    exact not_mark_of_wordPart (List.all_eq_true.mp hx.2 c hc)

theorem unquoted_pieces (ps : List Piece) :
    unquoted none (ps.flatMap chars) = ps.flatMap outline := by
  induction ps with
  | nil => rfl
  | cons p ps ih => rw [List.flatMap_cons, unquoted_piece, ih, List.flatMap_cons]

theorem outline_apart (p : Piece) : p.outline.IsChain Apart := by
  cases p with
  | bracket x hx =>
    have hall : ∀ x ∈ brackets, x.toList.IsChain Apart := by decide
    exact hall x hx
  | operator e he =>
    have hall : ∀ e ∈ signs, (' ' :: (e.1.toList ++ [' '])).IsChain Apart := by decide
    exact hall e he
  | sign e he hu =>
    obtain ⟨c, -, hchars, -⟩ := unary_sign he hu
    simp [outline, chars, hchars]
  | word x hx =>
    exact isChain_of_not_joiners fun c hc => not_joiner_of_wordPart (List.all_eq_true.mp hx.2 c hc)
  | number x hx => exact hx.form.signedOnce.apart
  | quoted mark x hm hx =>
    rcases hm with rfl | rfl <;> simp [outline] <;> decide
  | field x hx =>
    refine isChain_of_not_joiners (List.forall_mem_cons.mpr ⟨by decide, fun c hc => ?_⟩)
    exact not_joiner_of_wordPart (List.all_eq_true.mp hx.2 c hc)

theorem glue_ends {p : Piece} (h : p.isGlue) : ∀ c ∈ p.outline.getLast?, c ∉ joiners := by
  cases p with
  | bracket x hx =>
    have hall : ∀ x ∈ brackets, x.toList.getLast?.all fun c => c ∉ joiners := by decide
    intro c hc
    have hlast := hall x hx
    simp only [outline, chars] at hc
    rw [hc] at hlast
    simpa using hlast
  | operator e he hk =>
    have hlast : (operator e he hk).outline.getLast? = some ' ' :=
      List.getLast?_concat (l := ' ' :: e.1.toList)
    rw [hlast]
    simp [joiners]
  | _ => cases h

theorem Meets.apart {p q : Piece} (h : Meets p q) : ∀ c ∈ p.outline.getLast?, ∀ d ∈ q.outline.head?,
    Apart c d := by
  intro c hc d hd
  obtain ⟨d', _, ds, -, hq, hjoiner⟩ := q.head_chars
  obtain rfl : d' = d := by simpa [hq] using hd
  rcases hjoiner with hjoiner | ⟨e, he, hv, rfl, hchars, hmem⟩
  · exact apart_of_right hjoiner
  · cases h with
    | after hp => exact apart_of_left (glue_ends hp c hc)
    | before hq => cases hq
    | @signed a ha hu _ hne =>
      obtain ⟨c', hc', hsign, -⟩ := unary_sign ha hu
      obtain rfl : c' = c := by simpa [outline, chars, hsign] using hc
      refine apart_signs hc' fun hsame => ?_
      have heq : e.1 = a.1 := String.toList_inj.mp (by rw [hchars, hsign, hsame])
      have hnot := hne e he hv rfl heq
      rw [hnot] at hsign
      exact (List.cons.inj hsign).1.symm

theorem apart_pieces {ps : List Piece} (h : ps.IsChain Meets) :
    (unquoted none (ps.flatMap chars)).IsChain Apart := by
  rw [unquoted_pieces]
  refine isChain_flatMap (fun p => ?_) outline_apart (fun _ _ hpq => hpq.apart) h
  obtain ⟨c, _, ds, -, hp, -⟩ := p.head_chars
  rw [hp]
  exact List.cons_ne_nil c ds

end Piece

end HanScript
