-- Parsers that fail. What they have taken up to the token that does not fit
-- can be completed to what they look for: a parser never takes a token that
-- rules this out. Here that is shown of lists, if it holds of their items.
import HanScript.Proofs.Parsing.Locality
import HanScript.Proofs.Parsing.Soundness.Lists

namespace HanScript

namespace Grammar

/-! ## Sequences in two parts -/

theorem Sequence.append {α : Type} {Item : TokenKind → List Terminal → α → Prop} {next : TokenKind}
    {w v : List Terminal} {as bs : List α} (hw : Sequence Item (follower v next) w as)
    (hv : Sequence Item next v bs) : Sequence Item next (w ++ v) (as ++ bs) := by
  induction hw with
  | nil => exact hv
  | cons hi _ ih =>
    rw [← follower_append] at hi
    simpa using Sequence.cons hi ih

theorem Sequence.single {α : Type} {Item : TokenKind → List Terminal → α → Prop} {next : TokenKind}
    {w : List Terminal} {a : α} (h : Item next w a) : Sequence Item next w [a] := by
  simpa using Sequence.cons (v := []) h .nil

/-- Only the last item of a sequence depends on what comes after them all. -/
theorem Sequence.before {α : Type} {Item : TokenKind → List Terminal → α → Prop}
    {next next' : TokenKind} {w : List Terminal} {as : List α}
    (hi : ∀ {w a}, Item next w a → Item next' w a) (h : Sequence Item next w as) :
    Sequence Item next' w as := by
  induction h with
  | nil => exact .nil
  | @cons w v a as ha _ ih =>
    refine .cons ?_ ih
    cases v with
    | nil => exact hi ha
    | cons t v => exact ha

/-- Items that do not depend on what comes after them stand before anything. -/
theorem Sequence.anywhere {α : Type} {Item : List Terminal → α → Prop} {next : TokenKind}
    {w : List Terminal} {as : List α} (h : Sequence (fun _ => Item) next w as)
    (next' : TokenKind) : Sequence (fun _ => Item) next' w as := h.before fun hi => hi

/-- Slots that no closing bracket comes after all end with a comma, and so they can go on. -/
theorem slotted_append {Item : List Terminal → Node → Prop} {next : TokenKind} {w v : List Terminal}
    {ns ms : List Node} (hnext : next ≠ .rightBracket)
    (hw : Sequence (fun k w n => Slot Item k w n ∧ follower w k ≠ .rightBracket) next w ns)
    (hv : Slotted Item v ms) : Slotted Item (w ++ v) (ns ++ ms) := by
  induction hw with
  | nil => exact hv
  | cons hs hrest ih =>
    rcases hs.1 with ⟨x, rfl, rfl⟩ | ⟨u, hu, ⟨x, rfl⟩ | ⟨rfl, hk⟩⟩
    · exact .hole ih
    · simpa using Slotted.more (x := x) hu ih
    · cases hrest with
      | nil => exact absurd hk hnext
      | cons hs' _ =>
        rw [follower_append] at hk
        exact absurd hk hs'.2

end Grammar

/-- The error is about the current token of `d`, for a parser that has failed at `s`. -/
def ParseError.At (e : ParseError) (d s : Cursor) : Prop :=
  e.line = d.current.span.line ∧ e.column = d.current.span.column ∧ e.index s = d.position

namespace Parser

open Grammar

variable {α β γ σ : Type} {c s : Cursor} {e : ParseError}

/-! ## Runs that fail -/

/-- From `c` the parser fails at `s`, and not because it has run out of steps or levels. -/
def Fails (p : Parser α) (c : Cursor) (e : ParseError) (s : Cursor) : Prop :=
  p c = (.error e, s) ∧ e.misfit ≠ .overrun

theorem bind_fails {p : Parser α} {f : α → Parser β} :
    (p >>= f).Fails c e s ↔ p.Fails c e s ∨ ∃ a d, p.Gives c a d ∧ (f a).Fails d e s := by
  constructor
  · rintro ⟨h, he⟩
    cases hp : p c with
    | mk r d =>
      cases r with
      | ok a =>
        rw [bind_of_ok hp] at h
        exact .inr ⟨a, d, hp, h, he⟩
      | error e' =>
        rw [bind_of_error hp] at h
        cases h
        exact .inl ⟨hp, he⟩
  · rintro (⟨h, he⟩ | ⟨a, d, hp, h, he⟩)
    · exact ⟨bind_of_error h, he⟩
    · exact ⟨(bind_of_ok hp).trans h, he⟩

theorem not_pure_fails {a : α} : ¬ (pure a : Parser α).Fails c e s := by
  rintro ⟨h, -⟩
  cases h

/-- What has been read is put together without fail. -/
theorem bind_pure_fails {p : Parser α} {f : α → β} :
    (p >>= fun a => pure (f a)).Fails c e s ↔ p.Fails c e s := by
  simp only [bind_fails, not_pure_fails, and_false, exists_false, or_false]

theorem map_fails {p : Parser α} {f : α → β} : (f <$> p).Fails c e s ↔ p.Fails c e s :=
  bind_pure_fails

theorem not_look_fails {f : Cursor → α} : ¬ (look f).Fails c e s := by
  rintro ⟨h, -⟩
  cases h

theorem not_spanFrom_fails {first : Span} : ¬ (spanFrom first).Fails c e s := not_look_fails

theorem bind_span_fails {p : Parser α} {first : α → Span} {f : α → Span → β} :
    (p >>= fun a => spanFrom (first a) >>= fun span => pure (f a span)).Fails c e s ↔
      p.Fails c e s := by
  simp only [bind_fails, not_spanFrom_fails, not_pure_fails, and_false, exists_false, or_false]

/-- A parser that first looks at something fails as it does with what it has seen. -/
theorem look_bind_fails {f : Cursor → α} {g : α → Parser β} :
    (look f >>= g).Fails c e s ↔ (g (f c)).Fails c e s := Iff.rfl

theorem peek_bind_fails {g : Token → Parser β} :
    (peek >>= g).Fails c e s ↔ (g c.current).Fails c e s := Iff.rfl

theorem isAt_bind_fails {kind : TokenKind} {g : Bool → Parser β} :
    (isAt kind >>= g).Fails c e s ↔ (g (decide (c.current.kind = kind))).Fails c e s := Iff.rfl

theorem isAtAny_bind_fails {kinds : List TokenKind} {g : Bool → Parser β} :
    (isAtAny kinds >>= g).Fails c e s ↔ (g (decide (c.current.kind ∈ kinds))).Fails c e s := Iff.rfl

theorem advance_bind_fails {g : Token → Parser β} :
    (advance >>= g).Fails c e s ↔ (g c.current).Fails c.advance e s := Iff.rfl

theorem not_advance_fails : ¬ advance.Fails c e s := by
  rintro ⟨h, -⟩
  cases h

theorem not_accept_fails {kind : TokenKind} : ¬ (accept kind).Fails c e s := by
  intro h
  rw [accept, isAt_bind_fails] at h
  split at h
  · exact not_advance_fails (bind_pure_fails.mp h)
  · exact not_pure_fails h

theorem not_overrun_fails : ¬ (misfit .overrun : Parser α).Fails c e s := by
  rintro ⟨h, he⟩
  cases h
  exact he rfl

theorem misfit_fails {m : Misfit} (hm : ∀ x, m ≠ .badNumeral x)
    (h : (misfit m : Parser α).Fails c e s) : e.At c s := by
  obtain ⟨h, -⟩ := h
  cases h
  refine ⟨rfl, rfl, ?_⟩
  change ParseError.index ⟨_, _, m⟩ c = _
  unfold ParseError.index
  split
  · rename_i hx
    exact absurd hx (hm _)
  · rfl

theorem expect_fails {kind : TokenKind} (h : (expect kind).Fails c e s) : e.At c s := by
  rw [expect, peek_bind_fails] at h
  split at h
  · exact absurd h not_advance_fails
  · exact misfit_fails (by simp) h

theorem identifier_fails (h : identifier.Fails c e s) : e.At c s := by
  rw [identifier, bind_span_fails] at h
  exact expect_fails h

theorem tagWord_fails (h : tagWord.Fails c e s) : e.At c s := by
  rw [tagWord, bind_span_fails] at h
  exact expect_fails h

theorem not_literal_fails {value : Value} {template : Bool} :
    ¬ (literal value template).Fails c e s := by
  rw [literal, bind_span_fails]
  exact not_advance_fails

/-- A numeral that is none is taken before it is found out. -/
theorem numeral_fails (hc : c.current.kind ≠ .eof) (h : numeral.Fails c e s) : e.At c s := by
  rw [numeral, advance_bind_fails, bind_span_fails, numberOf] at h
  split at h
  · exact absurd h not_pure_fails
  · obtain ⟨h, -⟩ := h
    cases h
    refine ⟨rfl, rfl, ?_⟩
    change c.advance.position - 1 = c.position
    unfold Cursor.position
    rw [(Cursor.advance_of_ne_eof hc).1, List.length_cons, Nat.add_sub_cancel]

/-! ### Steps that fail -/

/-- What every step keeps holds before the step that fails. -/
theorem steps_fails {step : σ → Parser (Option σ)} {I : σ → Cursor → Prop}
    (hI : ∀ a c a' d, I a c → (step a).Gives c (some a') d → I a' d) {a : σ}
    (h0 : I a c) (h : (steps step a).Fails c e s) : ∃ a' d, I a' d ∧ (step a').Fails d e s := by
  change (stepsWithin c.budget step a).Fails c e s at h
  generalize c.budget = budget at h
  induction budget generalizing a c with
  | nil => exact absurd h not_overrun_fails
  | cons t budget ih =>
    simp only [stepsWithin, bind_fails] at h
    rcases h with h | ⟨o, d, hs, h⟩
    · exact ⟨a, c, h0, h⟩
    · cases o with
      | none => exact absurd h not_pure_fails
      | some a' => exact ih (hI a c a' d h0 hs) h

theorem manyStep_fails {more : Cursor → Bool} {item : Parser α} {items : List α}
    (h : (manyStep (look more) item items).Fails c e s) : more c = true ∧ item.Fails c e s := by
  rw [manyStep, look_bind_fails] at h
  split at h
  · rename_i hm
    rw [bind_pure_fails] at h
    exact ⟨hm, h⟩
  · exact absurd h not_pure_fails

theorem listStep_fails {close : TokenKind} {item : Parser α} {items : List α} {more : Bool}
    (h : (listStep close item (items, more)).Fails c e s) : more = true ∧ item.Fails c e s := by
  cases more with
  | false => exact absurd h not_pure_fails
  | true =>
    change (isAt close >>= _).Fails c e s at h
    rw [isAt_bind_fails] at h
    split at h
    · exact absurd h not_pure_fails
    · simp only [bind_fails, not_accept_fails, not_pure_fails, and_false, exists_false,
        or_false] at h
      exact ⟨rfl, h⟩

/-! ## Completion -/

/-- What has been taken from `c` up to the token that the error is about can be completed to
something that `R` holds of. -/
def Stalls (c : Cursor) (e : ParseError) (s : Cursor) (R : List Terminal → β → Prop) : Prop :=
  ∃ d w v b, e.At d s ∧ c.Passes w d ∧ (∀ t ∈ v, t.kind ≠ .eof) ∧ R (w ++ v) b

/-- Wherever the parser fails, what it has taken can be completed. -/
def Viable (p : Parser α) (R : List Terminal → β → Prop) : Prop :=
  ∀ ⦃c e s⦄, p.Fails c e s → Stalls c e s R

section

variable {d : Cursor} {R : List Terminal → β → Prop} {R' : List Terminal → γ → Prop}
  {u : List Terminal}

/-- The token that does not fit comes right after `u`, and `v` could stand in its place. -/
theorem Stalls.here {b : β} (hat : e.At d s) (hu : c.Passes u d) (v : List Terminal)
    (hv : ∀ t ∈ v, t.kind ≠ .eof) (hR : R (u ++ v) b) : Stalls c e s R :=
  ⟨d, u, v, b, hat, hu, hv, hR⟩

/-- The very first token does not fit. -/
theorem Stalls.atOnce {b : β} (hat : e.At c s) (v : List Terminal) (hv : ∀ t ∈ v, t.kind ≠ .eof)
    (hR : R v b) : Stalls c e s R := .here (u := []) hat rfl v hv hR

/-- The token that does not fit is in a part that comes after `u`, and `v` could come after
that part. -/
theorem Stalls.within (h : Stalls d e s R) (hu : c.Passes u d) (v : List Terminal)
    (hv : ∀ t ∈ v, t.kind ≠ .eof) (hR : ∀ x b, R x b → ∃ b', R' (u ++ x ++ v) b') :
    Stalls c e s R' := by
  obtain ⟨d', w, v', b, hat, hw, hv', hb⟩ := h
  obtain ⟨b', hb'⟩ := hR _ _ hb
  refine .here hat (hu.append hw) (v' ++ v) ?_ (b := b') (by simpa using hb')
  intro t ht
  rcases List.mem_append.mp ht with ht | ht
  · exact hv' t ht
  · exact hv t ht

/-- The token that does not fit is in the last part, after `u`. -/
theorem Stalls.after (h : Stalls d e s R) (hu : c.Passes u d)
    (hR : ∀ x b, R x b → ∃ b', R' (u ++ x) b') : Stalls c e s R' := by
  refine h.within hu [] (List.forall_mem_nil _) fun x b hx => ?_
  simpa using hR x b hx

theorem Stalls.mono (h : Stalls c e s R) (hR : ∀ x b, R x b → ∃ b', R' x b') :
    Stalls c e s R' := h.after (u := []) rfl hR

end

/-! ## Lists -/

section Lists

variable {Item : List Terminal → Node → Prop} {item : Parser Node}

theorem manyWhile_fails {more : Cursor → Bool} {item : Parser α}
    {G : TokenKind → List Terminal → α → Prop}
    (hi : ∀ ⦃c a d⦄, more c = true → item.Gives c a d → ∃ w, c.Passes w d ∧ G d.current.kind w a)
    (h : (manyWhile (look more) item).Fails c e s) :
    ∃ w as d, c.Passes w d ∧ Sequence G d.current.kind w as ∧ more d = true ∧ item.Fails d e s := by
  replace h : (steps (manyStep (look more) item) []).Fails c e s := by
    change (steps (manyStep (look more) item) [] >>= fun r => pure r.reverse).Fails c e s at h
    exact bind_pure_fails.mp h
  -- What has been gathered so far is a sequence before whatever comes next.
  obtain ⟨as, d, ⟨w, hw, hs⟩, hd⟩ := steps_fails
    (I := fun items d => ∃ w, c.Passes w d ∧ Sequence G d.current.kind w items.reverse) (by
      rintro items d items' d' ⟨w, hw, hs⟩ hstep
      obtain ⟨hm, a, ha, rfl⟩ := manyStep_some.mp hstep
      obtain ⟨v, hv, hg⟩ := hi hm ha
      rw [hv.current] at hs
      refine ⟨w ++ v, hw.append hv, ?_⟩
      simpa using hs.append (.single hg)) ⟨[], rfl, .nil⟩ h
  obtain ⟨hm, hd⟩ := manyStep_fails hd
  exact ⟨w, as.reverse, d, hw, hs, hm, hd⟩

theorem separated_viable (hf : Forms item Item) (hv : Viable item Item) :
    Viable (separated item) (Separated Item) := by
  intro c e s h
  rw [separated, bind_fails] at h
  rcases h with h | ⟨first, d, hfirst, h⟩
  · exact (hv h).mono fun _ _ hx => ⟨_, .last hx⟩
  · rw [bind_pure_fails] at h
    obtain ⟨u, hu, hi⟩ := hf hfirst
    obtain ⟨w, qs, d', hw, hs, hk, h⟩ := manyWhile_fails
      (G := fun k w q => AfterComma Item k w q.bare) (afterComma_reads hf) h
    replace hk := of_decide_eq_true hk
    rw [advance_bind_fails] at h
    have hc := Cursor.passes_kind hk (by decide)
    rw [hk] at hs
    refine (hv h).after (hu.append (hw.append hc)) fun x n hx => ?_
    have hx : AfterComma Item .eof (⟨.comma, d'.current.value⟩ :: x) n := ⟨_, x, rfl, hx⟩
    exact ⟨_, (separated_iff_sequence .eof).mpr
      ⟨u, _, _, _, by simp, rfl, hi, (sequence_map hs).append (.single hx)⟩⟩

theorem separatedUntil_viable {close : TokenKind} (hf : Forms item Item) (hv : Viable item Item) :
    Viable (separatedUntil close item) (SeparatedOrNone Item) := by
  intro c e s h
  rw [separatedUntil, isAt_bind_fails] at h
  split at h
  · exact absurd h not_pure_fails
  · exact (separated_viable hf hv h).mono fun _ _ hx => ⟨_, .some hx⟩

theorem listUntil_viable {close : TokenKind} (hf : Forms item Item) (hv : Viable item Item) :
    Viable (listUntil close item) (Listed Item) := by
  intro c e s h
  replace h : (steps (listStep close item) ([], true)).Fails c e s := by
    change (steps (listStep close item) ([], true) >>= fun r => pure r.1.reverse).Fails c e s at h
    exact bind_pure_fails.mp h
  -- After a comma any list can go on.
  obtain ⟨⟨items, more⟩, d, ⟨u, hu, hmore⟩, hd⟩ := steps_fails
    (I := fun r d => ∃ u, c.Passes u d ∧
      (r.2 = true → ∀ w ns, Listed Item w ns → ∃ ms, Listed Item (u ++ w) ms)) (by
      rintro ⟨items, more⟩ d ⟨items', more'⟩ d' ⟨u, hu, hmore⟩ hstep
      obtain ⟨rfl, -, q, d₁, comma, ha, hc, hs⟩ := listStep_some.mp hstep
      obtain ⟨rfl, rfl⟩ := Prod.mk.inj hs
      obtain ⟨w, hw, hi⟩ := hf ha
      rcases accept_gives.mp hc with ⟨rfl, hk, rfl⟩ | ⟨rfl, -, rfl⟩
      · have hp := Cursor.passes_kind hk (by decide)
        refine ⟨_, hu.append (hw.append hp), fun _ v ns hv => ?_⟩
        simpa using hmore rfl _ _ (.more (x := d₁.current.value) hi hv)
      · exact ⟨_, hu.append hw, by simp⟩) ⟨[], rfl, fun _ w ns hw => ⟨ns, hw⟩⟩ h
  obtain ⟨rfl, hd'⟩ := listStep_fails hd
  exact (hv hd').after hu fun x n hx => hmore rfl x [n] (.last hx)

/-! ### Brackets -/

theorem slot_viable (hf : Forms item Item) (hv : Viable item Item) :
    Viable (Rule.slot item) (Slotted Item) := by
  intro c e s h
  simp only [Rule.slot, bind_fails, not_accept_fails, false_or, accept_gives] at h
  obtain ⟨_, _, ⟨rfl, hk, rfl⟩ | ⟨rfl, -, rfl⟩, h⟩ := h
  · exact absurd h not_pure_fails
  · rcases bind_fails.mp h with h | ⟨q, d, ha, h⟩
    · exact (hv h).mono fun _ _ hx => ⟨_, .last hx⟩
    · obtain ⟨w, hw, hi⟩ := hf ha
      rw [isAt_bind_fails] at h
      split at h
      · exact absurd h not_pure_fails
      · rw [bind_pure_fails] at h
        exact .here (expect_fails h) hw [] (List.forall_mem_nil _) (by simpa using Slotted.last hi)

/-- Items and holes in brackets. -/
def Bracketed (Item : List Terminal → Node → Prop) (w : List Terminal) (ns : List Node) : Prop :=
  ∃ v x y, w = ⟨.leftBracket, x⟩ :: v ++ [⟨.rightBracket, y⟩] ∧ Slotted Item v ns

theorem bracketed_viable (hf : Forms item Item) (hv : Viable item Item) :
    Viable (Rule.bracketed item) (Bracketed Item) := by
  intro c e s h
  simp (disch := decide) only [Rule.bracketed, bind_fails, expect_gives, not_spanFrom_fails,
    not_pure_fails, and_false, exists_false, or_false] at h
  rcases h with h | ⟨_, d, ⟨rfl, hl⟩, h⟩
  · exact .atOnce (expect_fails h) [⟨.leftBracket, ""⟩, ⟨.rightBracket, ""⟩] (by decide)
      (b := []) ⟨[], _, _, rfl, .nil⟩
  · rcases h with h | ⟨qs, d', hq, h⟩
    · obtain ⟨u, qs, d', hu, hs, hm, h⟩ := manyWhile_fails
        (G := fun k w q => Slot Item k w q.bare ∧ follower w k ≠ .rightBracket)
        (slot_reads_before hf) h
      refine (slot_viable hf hv h).within (hl.cons hu) [⟨.rightBracket, ""⟩] (by decide)
        fun x ns hx => ?_
      exact ⟨_, _, _, _, rfl, slotted_append (of_decide_eq_true hm) (sequence_map hs) hx⟩
    · obtain ⟨u, hu, hs, hm⟩ := manyWhile_reads
        (G := fun k w q => Slot Item k w q.bare ∧ follower w k ≠ .rightBracket)
        (slot_reads_before hf) hq
      have hk : d'.current.kind = .rightBracket := by simpa using hm
      rw [hk] at hs
      exact .here (expect_fails h) (hl.cons hu) [⟨.rightBracket, ""⟩] (by decide)
        ⟨u, _, _, rfl, slotted_of_sequence (sequence_map hs)⟩

end Lists

end Parser

end HanScript
