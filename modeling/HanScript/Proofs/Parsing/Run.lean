-- Runs of parsers, taken apart: which tokens stand between two cursors, and
-- what a parser that succeeds has done step by step.
import HanScript.Parser.Progress
import HanScript.Proofs.Grammar.Lists

namespace HanScript

namespace Cursor

/-! ## The tokens between two cursors -/

/-- The tokens from `c` up to `d` are `w`, and none of them is an end token. -/
def Passes (c : Cursor) : List Terminal → Cursor → Prop
  | [], d => d = c
  | t :: w, d => c.current.terminal = t ∧ t.kind ≠ .eof ∧ c.advance.Passes w d

@[simp] theorem passes_nil {c d : Cursor} : c.Passes [] d ↔ d = c := Iff.rfl

theorem passes_cons {c d : Cursor} {t : Terminal} {w : List Terminal} :
    c.Passes (t :: w) d ↔ c.current.terminal = t ∧ t.kind ≠ .eof ∧ c.advance.Passes w d := Iff.rfl

theorem passes_append {c e : Cursor} {w v : List Terminal} :
    c.Passes (w ++ v) e ↔ ∃ d, c.Passes w d ∧ d.Passes v e := by
  induction w generalizing c with
  | nil => simp
  | cons t w ih =>
    simp only [List.cons_append, passes_cons, ih]
    constructor
    · rintro ⟨ht, hk, d, hw, hv⟩
      exact ⟨d, ⟨ht, hk, hw⟩, hv⟩
    · rintro ⟨d, ⟨ht, hk, hw⟩, hv⟩
      exact ⟨ht, hk, d, hw, hv⟩

theorem Passes.append {c d e : Cursor} {w v : List Terminal} (hw : c.Passes w d)
    (hv : d.Passes v e) : c.Passes (w ++ v) e := passes_append.mpr ⟨d, hw, hv⟩

/-- The first of some tokens, and then the others. -/
theorem passes_head {c e : Cursor} {t : Terminal} {w : List Terminal} :
    c.Passes (t :: w) e ↔ ∃ d, c.Passes [t] d ∧ d.Passes w e :=
  passes_append (w := [t])

theorem Passes.cons {c d e : Cursor} {t : Terminal} {w : List Terminal} (ht : c.Passes [t] d)
    (hw : d.Passes w e) : c.Passes (t :: w) e := passes_head.mpr ⟨d, ht, hw⟩

theorem passes_current {c : Cursor} (h : c.current.kind ≠ .eof) :
    c.Passes [c.current.terminal] c.advance := ⟨rfl, h, rfl⟩

theorem passes_kind {c : Cursor} {kind : TokenKind} (hk : c.current.kind = kind)
    (he : kind ≠ .eof) : c.Passes [⟨kind, c.current.value⟩] c.advance :=
  ⟨Token.terminal_of_kind hk, he, rfl⟩

theorem left_advance {c : Cursor} (h : c.current.kind ≠ .eof) : c.advance.left + 1 = c.left := by
  unfold left
  rw [(advance_of_ne_eof h).2.1, List.length_cons]

/-- The cursor has moved on by as many tokens as stand between. -/
theorem Passes.left {c d : Cursor} {w : List Terminal} (h : c.Passes w d) :
    d.left + w.length = c.left := by
  induction w generalizing c with
  | nil =>
    rw [passes_nil] at h
    simp [h]
  | cons t w ih =>
    obtain ⟨rfl, hk, hw⟩ := h
    have := ih hw
    have := left_advance hk
    simp only [List.length_cons]
    omega

theorem Passes.left_le {c d : Cursor} {w : List Terminal} (h : c.Passes w d) : d.left ≤ c.left := by
  have := h.left
  omega

theorem Passes.left_lt {c d : Cursor} {w : List Terminal} (h : c.Passes w d) (hw : w ≠ []) :
    d.left < c.left := by
  have := h.left
  have := List.length_pos_iff.mpr hw
  omega

theorem Passes.current {c d : Cursor} {w : List Terminal} (h : c.Passes w d) :
    c.current.kind = Grammar.follower w d.current.kind := by
  cases w with
  | nil =>
    rw [passes_nil] at h
    rw [h, Grammar.follower_nil]
  | cons t w =>
    obtain ⟨rfl, _, _⟩ := h
    rfl

theorem Passes.kind {c d : Cursor} {t : Terminal} {w : List Terminal} (h : c.Passes (t :: w) d) :
    c.current.kind = t.kind := h.current

theorem Passes.not_mem {c d : Cursor} {kind : TokenKind} {x : String} {w : List Terminal}
    {kinds : List TokenKind} (h : c.Passes (⟨kind, x⟩ :: w) d) (hk : kind ∉ kinds) :
    c.current.kind ∉ kinds := by
  rw [h.kind]
  exact hk

theorem Passes.avoids {c d : Cursor} {w : List Terminal} {kinds : List TokenKind} (h : c.Passes w d)
    (hw : Grammar.Avoids kinds w) : c.current.kind ∉ kinds := by
  obtain ⟨t, v, rfl, ht⟩ := hw
  rw [h.kind]
  exact ht

theorem Passes.value {c d : Cursor} {t : Terminal} {w : List Terminal} (h : c.Passes (t :: w) d) :
    c.current.value = t.value := congrArg Terminal.value h.1

theorem next_eq_current_advance {c : Cursor} (h : c.current.kind ≠ .eof) :
    c.next = c.advance.current := by
  obtain ⟨-, hahead, hlast⟩ := advance_of_ne_eof h
  rw [Cursor.next, hahead, ← hlast]
  rfl

/-- The token after the current one is the second of those that follow. -/
theorem Passes.next {c d : Cursor} {t : Terminal} {w : List Terminal} (h : c.Passes (t :: w) d) :
    c.next.kind = Grammar.follower w d.current.kind := by
  obtain ⟨rfl, hk, hw⟩ := h
  rw [next_eq_current_advance hk]
  exact hw.current

end Cursor

namespace Parser

variable {α β σ : Type}

/-! ## Runs that succeed -/

/-- From `c` the parser gives `a`, and reaches `d`. -/
def Gives (p : Parser α) (c : Cursor) (a : α) (d : Cursor) : Prop := p c = (.ok a, d)

/-- A parser gives one result only. -/
theorem Gives.unique {p : Parser α} {c d e : Cursor} {a b : α} (ha : p.Gives c a d)
    (hb : p.Gives c b e) : a = b ∧ d = e := by
  have h : (Except.ok a, d) = (Except.ok b, e) := ha.symm.trans hb
  simpa using h

theorem bind_gives {p : Parser α} {f : α → Parser β} {c e : Cursor} {b : β} :
    (p >>= f).Gives c b e ↔ ∃ a d, p.Gives c a d ∧ (f a).Gives d b e := by
  constructor
  · intro h
    cases hp : p c with
    | mk r d =>
      cases r with
      | ok a =>
        rw [Gives, bind_of_ok hp] at h
        exact ⟨a, d, hp, h⟩
      | error e' =>
        rw [Gives, bind_of_error hp] at h
        cases h
  · rintro ⟨a, d, hp, hf⟩
    rw [Gives, bind_of_ok hp]
    exact hf

theorem pure_gives {a b : α} {c d : Cursor} : (pure a : Parser α).Gives c b d ↔ a = b ∧ c = d := by
  change (Except.ok a, c) = (.ok b, d) ↔ _
  simp

theorem map_gives {p : Parser α} {f : α → β} {c d : Cursor} {b : β} :
    (f <$> p).Gives c b d ↔ ∃ a, p.Gives c a d ∧ f a = b := by
  change (p >>= fun a => pure (f a)).Gives c b d ↔ _
  simp only [bind_gives, pure_gives]
  constructor
  · rintro ⟨a, d', hp, rfl, rfl⟩
    exact ⟨a, hp, rfl⟩
  · rintro ⟨a, hp, rfl⟩
    exact ⟨a, d, hp, rfl, rfl⟩

theorem look_gives {f : Cursor → α} {a : α} {c d : Cursor} :
    (look f).Gives c a d ↔ f c = a ∧ c = d := by
  simp [Gives, look]

theorem peek_gives {t : Token} {c d : Cursor} : peek.Gives c t d ↔ c.current = t ∧ c = d :=
  look_gives

theorem spanFrom_gives {first s : Span} {c d : Cursor} :
    (spanFrom first).Gives c s d ↔ c.spanFrom first = s ∧ c = d := look_gives

theorem advance_gives {t : Token} {c d : Cursor} :
    advance.Gives c t d ↔ c.current = t ∧ c.advance = d := by
  simp [Gives, advance]

theorem isAt_gives {kind : TokenKind} {b : Bool} {c d : Cursor} :
    (isAt kind).Gives c b d ↔ decide (c.current.kind = kind) = b ∧ c = d := look_gives

theorem isAtAny_gives {kinds : List TokenKind} {b : Bool} {c d : Cursor} :
    (isAtAny kinds).Gives c b d ↔ decide (c.current.kind ∈ kinds) = b ∧ c = d := look_gives

theorem not_misfit_gives {m : Misfit} {a : α} {c d : Cursor} : ¬ (misfit m).Gives c a d := by
  change (Except.error _, c) ≠ _
  simp

/-- A token of a kind is taken exactly where one stands. -/
theorem expect_gives {kind : TokenKind} {t : Token} {c d : Cursor} (hk : kind ≠ .eof) :
    (expect kind).Gives c t d ↔ c.current = t ∧ c.Passes [⟨kind, t.value⟩] d := by
  simp only [expect, bind_gives, peek_gives]
  constructor
  · rintro ⟨t', c', ⟨rfl, rfl⟩, h⟩
    split at h
    · rename_i hc
      obtain ⟨rfl, rfl⟩ := advance_gives.mp h
      exact ⟨rfl, Cursor.passes_kind hc hk⟩
    · exact absurd h not_misfit_gives
  · rintro ⟨rfl, hp⟩
    refine ⟨c.current, c, ⟨rfl, rfl⟩, ?_⟩
    rw [if_pos hp.kind]
    exact advance_gives.mpr ⟨rfl, hp.2.2.symm⟩

theorem expect_of_passes {kind : TokenKind} {x : String} {c d : Cursor}
    (h : c.Passes [⟨kind, x⟩] d) : (expect kind).Gives c c.current d :=
  (expect_gives h.2.1).mpr ⟨rfl, by rw [h.value]; exact h⟩

/-- What is tested is either there and taken, or not there. -/
theorem accept_gives {kind : TokenKind} {b : Bool} {c d : Cursor} :
    (accept kind).Gives c b d ↔
      (b = true ∧ c.current.kind = kind ∧ c.advance = d) ∨
        (b = false ∧ c.current.kind ≠ kind ∧ c = d) := by
  simp only [accept, bind_gives, isAt_gives]
  constructor
  · rintro ⟨b', c', ⟨rfl, rfl⟩, h⟩
    by_cases hc : c.current.kind = kind
    · simp only [hc, decide_true, if_true, bind_gives, advance_gives, pure_gives] at h
      obtain ⟨t, c', ⟨rfl, rfl⟩, rfl, rfl⟩ := h
      exact Or.inl ⟨rfl, hc, rfl⟩
    · simp only [hc, decide_false, Bool.false_eq_true, if_false, pure_gives] at h
      obtain ⟨rfl, rfl⟩ := h
      exact Or.inr ⟨rfl, hc, rfl⟩
  · rintro (⟨rfl, hc, rfl⟩ | ⟨rfl, hc, rfl⟩)
    · refine ⟨true, c, ⟨by simp [hc], rfl⟩, ?_⟩
      simp only [if_true, bind_gives, advance_gives, pure_gives]
      exact ⟨c.current, c.advance, ⟨rfl, rfl⟩, trivial, rfl⟩
    · refine ⟨false, c, ⟨by simp [hc], rfl⟩, ?_⟩
      simp only [Bool.false_eq_true, if_false, pure_gives]
      exact ⟨trivial, trivial⟩

theorem accept_of_passes {kind : TokenKind} {x : String} {c d : Cursor}
    (h : c.Passes [⟨kind, x⟩] d) : (accept kind).Gives c true d :=
  accept_gives.mpr (Or.inl ⟨rfl, h.kind, h.2.2.symm⟩)

theorem accept_of_ne {kind : TokenKind} {c : Cursor} (h : c.current.kind ≠ kind) :
    (accept kind).Gives c false c := accept_gives.mpr (Or.inr ⟨rfl, h, rfl⟩)

/-! ## Steps that succeed -/

theorem stepsWithin_cons_gives {t : Token} {budget : List Token} {step : σ → Parser (Option σ)}
    {s r : σ} {c e : Cursor} :
    (stepsWithin (t :: budget) step s).Gives c r e ↔
      ((step s).Gives c none e ∧ s = r) ∨
        ∃ s' d, (step s).Gives c (some s') d ∧ (stepsWithin budget step s').Gives d r e := by
  simp only [stepsWithin, bind_gives]
  constructor
  · rintro ⟨o, d, hs, h⟩
    cases o with
    | none =>
      obtain ⟨rfl, rfl⟩ := pure_gives.mp h
      exact Or.inl ⟨hs, rfl⟩
    | some s' => exact Or.inr ⟨s', d, hs, h⟩
  · rintro (⟨hs, rfl⟩ | ⟨s', d, hs, h⟩)
    · exact ⟨none, e, hs, pure_gives.mpr ⟨rfl, rfl⟩⟩
    · exact ⟨some s', d, hs, h⟩

/-- What every step keeps holds after the last of them, which stops. -/
theorem steps_keep {step : σ → Parser (Option σ)} {I : σ → Cursor → Prop}
    (hI : ∀ s c s' d, I s c → (step s).Gives c (some s') d → I s' d) {s r : σ} {c e : Cursor}
    (h0 : I s c) (h : (steps step s).Gives c r e) : ∃ d, I r d ∧ (step r).Gives d none e := by
  change (stepsWithin c.budget step s).Gives c r e at h
  generalize c.budget = budget at h
  induction budget generalizing s c with
  | nil => exact absurd h not_misfit_gives
  | cons t budget ih =>
    rcases stepsWithin_cons_gives.mp h with ⟨hs, rfl⟩ | ⟨s', d, hs, h'⟩
    · exact ⟨c, h0, hs⟩
    · exact ih (hI s c s' d h0 hs) h'

end Parser

end HanScript
