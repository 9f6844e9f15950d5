-- What the parser takes as a list is a list of the grammar, if what it takes
-- as items are items.
import HanScript.Proofs.Parsing.Steps

namespace HanScript.Parser

open Grammar

variable {α : Type}

/-- Whatever the parser gives, the tokens that it has taken are as `G` says, before a token
of the kind that comes next. -/
def Reads (p : Parser α) (G : TokenKind → List Terminal → α → Prop) : Prop :=
  ∀ ⦃c a d⦄, p.Gives c a d → ∃ w, c.Passes w d ∧ G d.current.kind w a

/-- Whatever the parser gives, the tokens that it has taken form its bare tree. -/
def Forms (p : Parser Node) (Item : List Terminal → Node → Prop) : Prop :=
  Reads p fun _ w n => Item w n.bare

section Lists

variable {Item : List Terminal → Node → Prop} {item : Parser Node}

/-! ## Lists -/

/-- What `manyWhile` gives is a sequence of what its items give where there are more. -/
theorem manyWhile_reads {more : Cursor → Bool} {item : Parser α}
    {G : TokenKind → List Terminal → α → Prop}
    (hi : ∀ ⦃c a d⦄, more c = true → item.Gives c a d → ∃ w, c.Passes w d ∧ G d.current.kind w a)
    {c d : Cursor} {as : List α} (h : (manyWhile (look more) item).Gives c as d) :
    ∃ w, c.Passes w d ∧ Sequence G d.current.kind w as ∧ more d = false := by
  -- The items are gathered in reverse, in front of those that were there before.
  have run : ∀ budget acc c r,
      (stepsWithin budget (manyStep (look more) item) acc).Gives c r d →
      ∃ as w, r = as.reverse ++ acc ∧ c.Passes w d ∧ Sequence G d.current.kind w as ∧
        more d = false := by
    intro budget
    induction budget with
    | nil => exact fun _ _ _ h => absurd h not_misfit_gives
    | cons t budget ih =>
      intro acc c r h
      rcases stepsWithin_cons_gives.mp h with ⟨hs, rfl⟩ | ⟨acc', d', hs, h'⟩
      · obtain ⟨hm, rfl⟩ := manyStep_none.mp hs
        exact ⟨[], [], by simp, by simp, .nil, hm⟩
      · obtain ⟨hm, a, ha, rfl⟩ := manyStep_some.mp hs
        obtain ⟨w, hw, hg⟩ := hi hm ha
        obtain ⟨as, v, rfl, hv, hseq, hd⟩ := ih _ _ _ h'
        rw [hv.current] at hg
        exact ⟨a :: as, w ++ v, by simp, hw.append hv, .cons hg hseq, hd⟩
  obtain ⟨r, hr, rfl⟩ := manyWhile_gives.mp h
  obtain ⟨as, w, rfl, hw, hseq, hd⟩ := run _ _ _ _ hr
  exact ⟨w, hw, by simpa using hseq, hd⟩

theorem sequence_map {α β : Type} {f : α → β} {Item : TokenKind → List Terminal → β → Prop}
    {next : TokenKind} {w : List Terminal} {as : List α}
    (h : Sequence (fun k w a => Item k w (f a)) next w as) : Sequence Item next w (as.map f) := by
  induction h with
  | nil => exact .nil
  | cons hi _ ih => exact .cons hi ih

theorem afterComma_reads (h : Forms item Item) ⦃c : Cursor⦄ ⦃q : Node⦄ ⦃d : Cursor⦄
    (hc : decide (c.current.kind = .comma) = true)
    (hq : (do let _ ← advance
              item : Parser Node).Gives c q d) :
    ∃ w, c.Passes w d ∧ AfterComma Item d.current.kind w q.bare := by
  simp only [bind_gives, advance_gives] at hq
  obtain ⟨_, _, ⟨rfl, rfl⟩, hq⟩ := hq
  obtain ⟨u, hu, hi⟩ := h hq
  have hp := Cursor.passes_kind (of_decide_eq_true hc) (by decide)
  exact ⟨_, hp.cons hu, _, u, rfl, hi⟩

theorem separated_reads (h : Forms item Item) :
    Reads (separated item) fun _ w ns => Separated Item w (ns.map Node.bare) := by
  intro c qs e hq
  simp only [separated, bind_gives, pure_gives] at hq
  obtain ⟨first, d, hf, rest, e', hr, rfl, rfl⟩ := hq
  obtain ⟨w, hw, hi⟩ := h hf
  obtain ⟨v, hv, hs, -⟩ := manyWhile_reads (G := fun k w q => AfterComma Item k w q.bare)
    (afterComma_reads h) hr
  exact ⟨w ++ v, hw.append hv,
    (separated_iff_sequence _).mpr ⟨w, v, _, _, rfl, rfl, hi, sequence_map hs⟩⟩

theorem separatedUntil_reads {close : TokenKind} (h : Forms item Item) :
    Reads (separatedUntil close item) fun _ w ns => SeparatedOrNone Item w (ns.map Node.bare) := by
  intro c qs d hq
  simp only [separatedUntil, bind_gives, isAt_gives] at hq
  obtain ⟨_, _, ⟨rfl, rfl⟩, hq⟩ := hq
  split at hq
  · obtain ⟨rfl, rfl⟩ := pure_gives.mp hq
    exact ⟨[], by simp, .none⟩
  · obtain ⟨w, hw, hs⟩ := separated_reads h hq
    exact ⟨w, hw, .some hs⟩

theorem listUntil_reads {close : TokenKind} (h : Forms item Item) :
    Reads (listUntil close item) fun _ w ns => Listed Item w (ns.map Node.bare) := by
  intro c qs d hq
  -- Nothing more is taken after an item without a comma.
  have run : ∀ budget acc more c r,
      (stepsWithin budget (listStep close item) (acc, more)).Gives c r d →
      ∃ qs w, r.1 = qs.reverse ++ acc ∧ c.Passes w d ∧ Listed Item w (qs.map Node.bare) ∧
        (more = false → w = [] ∧ qs = []) := by
    intro budget
    induction budget with
    | nil => exact fun _ _ _ _ h => absurd h not_misfit_gives
    | cons t budget ih =>
      intro acc more c r hr
      rcases stepsWithin_cons_gives.mp hr with ⟨hs, rfl⟩ | ⟨⟨acc', more'⟩, e, hs, hr'⟩
      · obtain ⟨-, rfl⟩ := listStep_none.mp hs
        exact ⟨[], [], by simp, by simp, .nil, by simp⟩
      · obtain ⟨rfl, -, q, d', comma, ha, hc, hs⟩ := listStep_some.mp hs
        obtain ⟨rfl, rfl⟩ := Prod.mk.inj hs
        obtain ⟨w, hw, hi⟩ := h ha
        obtain ⟨qs, v, hrev, hv, hl, hmore⟩ := ih _ _ _ _ hr'
        rcases accept_gives.mp hc with ⟨rfl, hk, rfl⟩ | ⟨rfl, -, rfl⟩
        · have hp := Cursor.passes_kind hk (by decide)
          exact ⟨q :: qs, _, by simp [hrev], hw.append (hp.cons hv), .more hi hl, by simp⟩
        · obtain ⟨rfl, rfl⟩ := hmore rfl
          obtain rfl := Cursor.passes_nil.mp hv
          exact ⟨[q], w, by simp [hrev], hw, .last hi, by simp⟩
  obtain ⟨r, hr, rfl⟩ := listUntil_gives.mp hq
  obtain ⟨qs, w, hrev, hw, hl, -⟩ := run _ _ _ _ _ hr
  exact ⟨w, hw, by simpa [hrev] using hl⟩

/-! ### Brackets -/

theorem slot_reads (h : Forms item Item) :
    Reads (Rule.slot item) fun k w q => Slot Item k w q.bare := by
  intro c q e hq
  simp only [Rule.slot, bind_gives, accept_gives] at hq
  obtain ⟨_, _, ⟨rfl, hk, rfl⟩ | ⟨rfl, -, rfl⟩, hq⟩ := hq
  · obtain ⟨rfl, rfl⟩ := pure_gives.mp hq
    exact ⟨_, Cursor.passes_kind hk (by decide), .inl ⟨_, rfl, rfl⟩⟩
  · simp only [Bool.false_eq_true, if_false, bind_gives, isAt_gives] at hq
    obtain ⟨q', d, ha, _, _, ⟨rfl, rfl⟩, hq⟩ := hq
    obtain ⟨w, hw, hi⟩ := h ha
    split at hq
    · rename_i hb
      obtain ⟨rfl, rfl⟩ := pure_gives.mp hq
      exact ⟨w, hw, .inr ⟨w, hi, .inr ⟨rfl, of_decide_eq_true hb⟩⟩⟩
    · simp (disch := decide) only [bind_gives, expect_gives, pure_gives] at hq
      obtain ⟨_, _, ⟨rfl, hp⟩, rfl, rfl⟩ := hq
      exact ⟨_, hw.append hp, .inr ⟨w, hi, .inl ⟨_, rfl⟩⟩⟩

/-- Where a slot begins there is no closing bracket. -/
theorem slot_reads_before (h : Forms item Item) ⦃c : Cursor⦄ ⦃q : Node⦄ ⦃d : Cursor⦄
    (hc : decide (c.current.kind ≠ .rightBracket) = true) (hq : (Rule.slot item).Gives c q d) :
    ∃ w, c.Passes w d ∧ Slot Item d.current.kind w q.bare ∧
      follower w d.current.kind ≠ .rightBracket := by
  obtain ⟨w, hw, hs⟩ := slot_reads h hq
  exact ⟨w, hw, hs, by simpa [← hw.current] using hc⟩

theorem bracketed_reads (h : Forms item Item) :
    Reads (Rule.bracketed item) fun _ w r => ∃ v x y,
      w = ⟨.leftBracket, x⟩ :: v ++ [⟨.rightBracket, y⟩] ∧ Slotted Item v (r.2.map Node.bare) := by
  intro c r e hr
  simp (disch := decide) only [Rule.bracketed, bind_gives, expect_gives, spanFrom_gives, pure_gives]
    at hr
  obtain ⟨_, d, ⟨rfl, hl⟩, qs, d', hq, _, _, ⟨rfl, hb⟩, _, _, ⟨rfl, rfl⟩, rfl, rfl⟩ := hr
  obtain ⟨v, hv, hs, -⟩ := manyWhile_reads
    (G := fun k w q => Slot Item k w q.bare ∧ follower w k ≠ .rightBracket) (slot_reads_before h) hq
  rw [hb.kind] at hs
  exact ⟨_, hl.cons (hv.append hb), v, _, _, rfl, slotted_of_sequence (sequence_map hs)⟩

end Lists

end HanScript.Parser
