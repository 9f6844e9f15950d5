-- A scanner always knows where it is. Whatever it is asked for, in whatever
-- order, its line and its column are those of its offset, it never goes back,
-- and every token that it has collected stands where its span says.
import HanScript.Proofs.Lexing.Tiling
import HanScript.Scanner.Call
import Mathlib.Logic.Relation

namespace HanScript

/-! ## Places in a text -/

/-- The line of an offset: one more than there are line feeds before it. -/
def lineAt (text : List Char) (offset : Nat) : Nat := 1 + (text.take offset).count '\n'

/-- The column of an offset: one more than there are characters after the last line feed
before it. -/
def columnAt (text : List Char) (offset : Nat) : Nat :=
  1 + ((text.take offset).reverse.takeWhile (· ≠ '\n')).length

namespace Place

/-- The place is one of the text, and its line and its column are those of its offset. -/
structure Within (p : Place) (text : List Char) : Prop where
  offset_le : p.offset ≤ text.length
  line : p.line = lineAt text p.offset
  column : p.column = columnAt text p.offset

/-- The place after the characters that a text begins with. -/
def behind (cs : List Char) : Place :=
  ⟨cs.length, 1 + cs.count '\n', 1 + (cs.reverse.takeWhile (· ≠ '\n')).length⟩

theorem behind_concat (cs : List Char) (c : Char) : behind (cs ++ [c]) = (behind cs).step c := by
  unfold behind step
  by_cases hc : c = '\n'
  · simp [hc, Nat.add_assoc]
  · simp [hc, Nat.add_comm]

/-- Characters that are passed one by one are behind in the end. -/
theorem behind_append (cs ds : List Char) : behind (cs ++ ds) = (behind cs).after ds := by
  induction ds generalizing cs with
  | nil => simp [after]
  | cons d ds ih =>
    have hsplit : cs ++ d :: ds = (cs ++ [d]) ++ ds := by simp
    rw [hsplit, ih, behind_concat]
    rfl

theorem behind_within {cs text : List Char} (h : cs <+: text) : (behind cs).Within text := by
  have htake : text.take cs.length = cs := (List.prefix_iff_eq_take.mp h).symm
  refine ⟨h.length_le, ?_, ?_⟩
  · simp only [behind, lineAt, htake]
  · simp only [behind, columnAt, htake]

end Place

namespace Scanner

/-! ## What a scanner does -/

/-- All that a scanner does to itself: it moves on, begins a token or ends one. -/
inductive Move : Scanner → Scanner → Prop where
  | advance (s : Scanner) (n : Nat) : Move s (s.advance n)
  | mark (s : Scanner) : Move s s.mark
  | add (s : Scanner) (kind : TokenKind) (value : String) : Move s (s.add kind value)

/-- One move after the other. -/
def Moves : Scanner → Scanner → Prop := Relation.ReflTransGen Move

theorem moves_accept (s : Scanner) (l : Lexeme) : Moves s (s.accept l) :=
  .tail (.single (.advance s l.length)) (.add _ l.kind l.value)

theorem moves_scan (s : Scanner) : Moves s s.scan := by
  unfold scan
  split
  · exact .single (.advance s _)
  · exact .head (.mark s) (moves_accept s.mark _)

theorem moves_scanTimes (n : Nat) (s : Scanner) : Moves s (scanTimes n s) := by
  induction n generalizing s with
  | zero => exact .refl
  | succ n ih =>
    unfold scanTimes
    split
    · exact .refl
    · exact (moves_scan s).trans (ih s.scan)

theorem moves_scanAll (s : Scanner) : Moves s s.scanAll :=
  .tail (.tail (moves_scanTimes s.ahead.length s) (.mark _)) (.add _ .eof "")

theorem moves_scanQuoted (s : Scanner) : Moves s s.scanQuoted.2 := by
  unfold scanQuoted
  split
  · exact moves_accept s _
  · exact .single (.advance s 1)

theorem moves_scanSign (s : Scanner) : Moves s s.scanSign.2 := by
  unfold scanSign
  split
  · exact moves_accept s _
  · exact .refl

theorem moves_call (s : Scanner) (c : Call) : Moves s (s.call c).2 := by
  cases c with
  | peek offset =>
    simp only [call]
    split <;> exact .refl
  | advance count => exact .single (.advance s _)
  | startsWith text => exact .refl
  | mark => exact .single (.mark s)
  | add kind value => exact .single (.add s kind value)
  | scan => exact moves_scan s
  | scanQuoted => exact moves_scanQuoted s
  | scanNumeral => exact moves_accept s _
  | scanWord => exact moves_accept s _
  | scanSign => exact moves_scanSign s
  | scanAll => exact moves_scanAll s

theorem moves_afterCalls (s : Scanner) (calls : List Call) : Moves s (s.afterCalls calls) := by
  induction calls generalizing s with
  | nil => exact .refl
  | cons c calls ih => exact (moves_call s c).trans (ih (s.call c).2)

/-! ## What every move keeps -/

/-- The token has been ended by a scanner on the text: it goes from one place of it to another. -/
def Stands (text : List Char) (t : Token) : Prop :=
  ∃ p q : Place, p.Within text ∧ q.Within text ∧ p.offset ≤ q.offset ∧ t.span = p.spanTo q

/-- The second token begins no sooner than the first, and ends no sooner. -/
def NoSooner (t u : Token) : Prop := t.span.start ≤ u.span.start ∧ t.span.stop ≤ u.span.stop

/-- The scanner knows where it is in the text. The latest token bounds those before it. -/
structure Oriented (text : List Char) (s : Scanner) : Prop where
  text_eq : s.text = text
  place : s.place = .behind s.behind.reverse
  origin : ∃ cs, cs <+: s.behind.reverse ∧ s.origin = .behind cs
  stands : ∀ t ∈ s.collected, Stands text t
  bounded : ∀ t ∈ s.collected, t.span.start ≤ s.origin.offset ∧ t.span.stop ≤ s.place.offset
  sorted : s.collected.Pairwise fun u t => NoSooner t u

namespace Oriented

variable {text : List Char} {s : Scanner}

theorem behind_prefix (h : Oriented text s) : s.behind.reverse <+: text :=
  ⟨s.ahead, h.text_eq⟩

theorem place_within (h : Oriented text s) : s.place.Within text := by
  rw [h.place]
  exact Place.behind_within h.behind_prefix

theorem origin_within (h : Oriented text s) : s.origin.Within text := by
  obtain ⟨cs, hcs, horigin⟩ := h.origin
  rw [horigin]
  exact Place.behind_within (hcs.trans h.behind_prefix)

theorem origin_le (h : Oriented text s) : s.origin.offset ≤ s.place.offset := by
  obtain ⟨cs, hcs, horigin⟩ := h.origin
  rw [horigin, h.place]
  exact hcs.length_le

theorem advance (h : Oriented text s) (n : Nat) : Oriented text (s.advance n) := by
  have hbehind : (s.advance n).behind.reverse = s.behind.reverse ++ s.ahead.take n := by
    simp [Scanner.advance]
  have hplace : (s.advance n).place = .behind (s.advance n).behind.reverse := by
    rw [hbehind, Place.behind_append, ← h.place]
    rfl
  obtain ⟨cs, hcs, horigin⟩ := h.origin
  refine ⟨(text_advance s n).trans h.text_eq, hplace, ⟨cs, ?_, horigin⟩, h.stands, fun t ht => ?_,
    h.sorted⟩
  · rw [hbehind]
    exact hcs.trans (List.prefix_append _ _)
  · have hon : s.place.offset ≤ (s.advance n).place.offset := by
      rw [hplace, h.place, hbehind]
      simp [Place.behind]
    obtain ⟨hstart, hstop⟩ := h.bounded t ht
    exact ⟨hstart, by omega⟩

theorem mark (h : Oriented text s) : Oriented text s.mark := by
  refine ⟨h.text_eq, h.place, ⟨s.behind.reverse, List.prefix_refl _, h.place⟩, h.stands,
    fun t ht => ?_, h.sorted⟩
  obtain ⟨hstart, hstop⟩ := h.bounded t ht
  have hle := h.origin_le
  refine ⟨?_, hstop⟩
  change t.span.start ≤ s.place.offset
  omega

/-- A new token begins and ends at the latest places so far. -/
theorem add (h : Oriented text s) (kind : TokenKind) (value : String) :
    Oriented text (s.add kind value) := by
  refine ⟨h.text_eq, h.place, h.origin, ?_, ?_, ?_⟩
  · refine List.forall_mem_cons.mpr ⟨?_, h.stands⟩
    exact ⟨s.origin, s.place, h.origin_within, h.place_within, h.origin_le, rfl⟩
  · exact List.forall_mem_cons.mpr ⟨⟨Int.le_refl _, Int.le_refl _⟩, h.bounded⟩
  · exact List.pairwise_cons.mpr ⟨h.bounded, h.sorted⟩

theorem move {t : Scanner} (h : Oriented text s) (hm : Move s t) : Oriented text t := by
  cases hm with
  | advance n => exact h.advance n
  | mark => exact h.mark
  | add kind value => exact h.add kind value

theorem moves {t : Scanner} (h : Oriented text s) (hm : Moves s t) : Oriented text t := by
  induction hm with
  | refl => exact h
  | tail _ hlast ih => exact ih.move hlast

end Oriented

theorem oriented_ofSource (source : String) : Oriented source.toList (ofSource source) :=
  ⟨rfl, rfl, ⟨[], List.nil_prefix, rfl⟩, List.forall_mem_nil _, List.forall_mem_nil _, .nil⟩

/-- A scanner gets no further back, and loses no token. -/
theorem Move.forward {s t : Scanner} (h : Move s t) :
    s.place.offset ≤ t.place.offset ∧ s.tokens <+: t.tokens := by
  cases h with
  | advance n =>
    refine ⟨?_, List.prefix_refl _⟩
    rw [Scanner.advance, offset_after]
    omega
  | mark => exact ⟨Nat.le_refl _, List.prefix_refl _⟩
  | add kind value =>
    refine ⟨Nat.le_refl _, ?_⟩
    simp [tokens, Scanner.add]

theorem Moves.forward {s t : Scanner} (h : Moves s t) :
    s.place.offset ≤ t.place.offset ∧ s.tokens <+: t.tokens := by
  induction h with
  | refl => exact ⟨Nat.le_refl _, List.prefix_refl _⟩
  | tail _ hlast ih =>
    exact ⟨Nat.le_trans ih.1 hlast.forward.1, ih.2.trans hlast.forward.2⟩

/-! ## Any calls -/

/-- After any calls, failed ones among them, the scanner stands at a place of the source text with
the text before it behind, and so does the start of the token in work, which is no later. More calls
take it no further back and no token away. Each token collected goes from a place of the text to
one that is no earlier, and none begins or ends sooner than one before it. -/
theorem scanner_keeps_its_place (source : String) (calls more : List Call) :
    let s := (ofSource source).afterCalls calls
    s.behind.reverse = source.toList.take s.place.offset ∧
    s.ahead = source.toList.drop s.place.offset ∧
    s.place.Within source.toList ∧ s.origin.Within source.toList ∧
    s.origin.offset ≤ s.place.offset ∧ s.place.offset ≤ (s.afterCalls more).place.offset ∧
    s.tokens <+: (s.afterCalls more).tokens ∧
    (∀ t ∈ s.tokens, Stands source.toList t) ∧ s.tokens.Pairwise NoSooner := by
  intro s
  have h : Oriented source.toList s := (oriented_ofSource source).moves (moves_afterCalls _ calls)
  obtain ⟨hoffset, htokens⟩ := (moves_afterCalls s more).forward
  have hlength : s.behind.reverse.length = s.place.offset := (congrArg Place.offset h.place).symm
  refine ⟨?_, ?_, h.place_within, h.origin_within, h.origin_le, hoffset, htokens, ?_, ?_⟩
  · rw [← h.text_eq, text, List.take_left' hlength]
  · rw [← h.text_eq, text, List.drop_left' hlength]
  · intro t ht
    exact h.stands t (List.mem_reverse.mp ht)
  · exact List.pairwise_reverse.mpr h.sorted

/-- A failed call has taken a character, and a count that leads before the start counts from the
end of the text. -/
example :
    let s := (ofSource "ab\ncd").afterCalls [.advance 1, .scanQuoted, .mark, .advance (-4)]
    s.place = ⟨3, 2, 1⟩ ∧ s.origin = ⟨2, 1, 3⟩ := by decide

end Scanner

end HanScript
