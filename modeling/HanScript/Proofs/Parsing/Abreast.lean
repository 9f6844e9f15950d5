-- Two runs of the parser, side by side over tokens of the same kinds and
-- values. No span is ever looked at to decide how to go on, and so the runs
-- take the same tokens, and end in the same way at the same place.
import HanScript.Proofs.Parsing.Exact
import HanScript.Proofs.Parsing.Locality

namespace HanScript

/-- An error names tokens of the same kind and value alike. -/
theorem Token.text_of_terminal {t t' : Token} (h : t.terminal = t'.terminal) : t.text = t'.text := by
  obtain ⟨hkind, hvalue⟩ := Terminal.mk.inj h
  unfold Token.text
  rw [hkind, hvalue]

namespace Cursor

/-! ## Cursors side by side -/

/-- The second cursor is ahead of the first one, with no end token between them. -/
def Precedes (c d : Cursor) : Prop := ∃ w, c.Passes w d

theorem Precedes.refl (c : Cursor) : c.Precedes c := ⟨[], rfl⟩

theorem Precedes.trans {c d e : Cursor} (h : c.Precedes d) (h' : d.Precedes e) : c.Precedes e := by
  obtain ⟨w, hw⟩ := h
  obtain ⟨v, hv⟩ := h'
  exact ⟨w ++ v, hw.append hv⟩

theorem precedes_advance (c : Cursor) : c.Precedes c.advance := by
  by_cases h : c.current.kind = .eof
  · rw [advance_of_eof h]
    exact .refl c
  · exact ⟨_, passes_current h⟩

/-- The cursors have gone equally far, and what is ahead of them up to the first end token is the
same, spans aside. -/
structure Abreast (c c' : Cursor) : Prop where
  position : c.position = c'.position
  ahead : sentence c.ahead = sentence c'.ahead

namespace Abreast

variable {c c' : Cursor}

theorem refl (c : Cursor) : c.Abreast c := ⟨rfl, rfl⟩

theorem kind (h : c.Abreast c') : c.current.kind = c'.current.kind := by
  have hahead := h.ahead
  by_cases he : c.current.kind = .eof <;> by_cases he' : c'.current.kind = .eof
  · rw [he, he']
  · rw [upcoming_of_eof he, upcoming_of_ne_eof he'] at hahead
    cases hahead
  · rw [upcoming_of_ne_eof he, upcoming_of_eof he'] at hahead
    cases hahead
  · rw [upcoming_of_ne_eof he, upcoming_of_ne_eof he'] at hahead
    exact congrArg Terminal.kind (List.cons.inj hahead).1

/-- End tokens may have different values. -/
theorem terminal (h : c.Abreast c') (he : c.current.kind ≠ .eof) :
    c.current.terminal = c'.current.terminal := by
  have he' : c'.current.kind ≠ .eof := h.kind ▸ he
  have hahead := h.ahead
  rw [upcoming_of_ne_eof he, upcoming_of_ne_eof he'] at hahead
  exact (List.cons.inj hahead).1

theorem value (h : c.Abreast c') (he : c.current.kind ≠ .eof) :
    c.current.value = c'.current.value := congrArg Terminal.value (h.terminal he)

theorem advance (h : c.Abreast c') : c.advance.Abreast c'.advance := by
  by_cases he : c.current.kind = .eof
  · rw [advance_of_eof he, advance_of_eof (h.kind ▸ he)]
    exact h
  · have he' : c'.current.kind ≠ .eof := h.kind ▸ he
    have hahead := h.ahead
    rw [upcoming_of_ne_eof he, upcoming_of_ne_eof he'] at hahead
    refine ⟨?_, (List.cons.inj hahead).2⟩
    unfold Cursor.position
    rw [(advance_of_ne_eof he).1, (advance_of_ne_eof he').1, List.length_cons, List.length_cons]
    exact congrArg (· + 1) h.position

theorem next (h : c.Abreast c') (he : c.current.kind ≠ .eof) : c.next.kind = c'.next.kind := by
  rw [next_eq_current_advance he, next_eq_current_advance (h.kind ▸ he)]
  exact h.advance.kind

end Abreast

end Cursor

namespace Parser

variable {α β γ δ σ : Type}

/-! ## Runs side by side -/

/-- Two runs have come out the same way: with results that look the same, or with the same misfit,
and in the same place. At the end the token that does not fit may be an end token of another value.
Nothing is said of runs that ran out of steps or levels. -/
inductive Tally (view : α → β) :
    Except ParseError α × Cursor → Except ParseError α × Cursor → Prop where
  | ok {a a' d d'} : view a = view a' → d.Abreast d' → Tally view (.ok a, d) (.ok a', d')
  | error {e e' d d'} : e.misfit = e'.misfit → d.Abreast d' → Tally view (.error e, d) (.error e', d')
  | atEnd {e e' d d'} : d.current.kind = .eof → e.misfit = .unexpected d.current.text →
      e'.misfit = .unexpected d'.current.text → d.Abreast d' →
      Tally view (.error e, d) (.error e', d')
  | firstOverrun {e d r} : e.misfit = .overrun → Tally view (.error e, d) r
  | secondOverrun {e d r} : e.misfit = .overrun → Tally view r (.error e, d)

/-- The first parser never goes back nor past an end token, and the second one does the same as
the first. -/
def InStepAt (view : α → β) (p q : Parser α) (c c' : Cursor) : Prop :=
  c.Precedes (p c).2 ∧ Tally view (p c) (q c')

/-- The parsers go in step from all cursors side by side. Of their results, only the view is
compared. -/
def InStep (view : α → β) (p q : Parser α) : Prop :=
  ∀ ⦃c c'⦄, c.Abreast c' → InStepAt view p q c c'

/-- A parser that goes in step with itself never goes back. -/
theorem InStep.precedes {view : α → β} {p : Parser α} (h : InStep view p p) (c : Cursor) :
    c.Precedes (p c).2 := (h (.refl c)).1

/-- Nothing of a result is looked at. -/
def unseen : α → Unit := fun _ => ()

section Bind

variable {view : α → γ} {view' : β → δ} {p q : Parser α} {f g : α → Parser β} {c c' : Cursor}

theorem InStepAt.bind (h : InStepAt view p q c c')
    (hf : ∀ a a' d d', p.Gives c a d → view a = view a' → d.Abreast d' →
      InStepAt view' (f a) (g a') d d') : InStepAt view' (p >>= f) (q >>= g) c c' := by
  obtain ⟨hc, ht⟩ := h
  cases hp : p c with
  | mk r d =>
    cases hq : q c' with
    | mk r' d' =>
      rw [hp, hq] at ht
      rw [hp] at hc
      unfold InStepAt
      cases ht with
      | ok hv hd =>
        rw [bind_of_ok hp, bind_of_ok hq]
        obtain ⟨hcd, ht⟩ := hf _ _ _ _ hp hv hd
        exact ⟨hc.trans hcd, ht⟩
      | error he hd =>
        rw [bind_of_error hp, bind_of_error hq]
        exact ⟨hc, .error he hd⟩
      | atEnd hk he he' hd =>
        rw [bind_of_error hp, bind_of_error hq]
        exact ⟨hc, .atEnd hk he he' hd⟩
      | firstOverrun he =>
        rw [bind_of_error hp]
        exact ⟨hc, .firstOverrun he⟩
      | secondOverrun he =>
        rw [bind_of_error hq]
        refine ⟨?_, .secondOverrun he⟩
        -- Where the first parser goes does not depend on the second one: it is set beside itself.
        cases r with
        | ok a =>
          rw [bind_of_ok hp]
          exact hc.trans (hf a a d d hp rfl (.refl d)).1
        | error e =>
          rw [bind_of_error hp]
          exact hc

theorem InStep.bind (h : InStep view p q)
    (hf : ∀ a a', view a = view a' → InStep view' (f a) (g a')) :
    InStep view' (p >>= f) (q >>= g) :=
  fun _ _ hc => (h hc).bind fun a a' _ _ _ hv hd => hf a a' hv hd

/-- How to go on does not depend on the result. -/
theorem InStep.andThen (h : InStep view p q) (hf : ∀ a a', InStep view' (f a) (g a')) :
    InStep view' (p >>= f) (q >>= g) := h.bind fun a a' _ => hf a a'

/-- Parsers that ask the same question, and go in step whatever the answer is. -/
theorem InStep.either {more more' : Parser Bool} {p' q' : Parser α} (hm : InStep id more more')
    (h : InStep view p q) (h' : InStep view p' q') :
    InStep view (more >>= fun b => if b then p else p')
      (more' >>= fun b => if b then q else q') := by
  refine hm.bind fun b b' hb => ?_
  obtain rfl : b = b' := hb
  cases b with
  | true => exact h
  | false => exact h'

end Bind

/-! ## Single steps -/

theorem inStep_pure {view : α → β} {a a' : α} (h : view a = view a') :
    InStep view (pure a) (pure a') :=
  fun c _ hc => ⟨.refl c, .ok h hc⟩

theorem InStep.map {view : α → γ} {view' : β → δ} {p q : Parser α} {f : α → β}
    (h : InStep view p q) (hf : ∀ a a', view' (f a) = view' (f a')) :
    InStep view' (f <$> p) (f <$> q) := h.andThen fun a a' => inStep_pure (hf a a')

theorem inStep_look {view : α → β} {f f' : Cursor → α}
    (hf : ∀ ⦃c c'⦄, c.Abreast c' → view (f c) = view (f' c')) :
    InStep view (look f) (look f') :=
  fun c _ hc => ⟨.refl c, .ok (hf hc) hc⟩

theorem inStep_peek : InStep Token.kind peek peek := inStep_look fun _ _ hc => hc.kind

/-- To look and go on is to go on with what there is to see. -/
theorem InStepAt.look {view : α → β} {see : Cursor → γ} {f g : γ → Parser α} {c c' : Cursor}
    (h : InStepAt view (f (see c)) (g (see c')) c c') :
    InStepAt view (Parser.look see >>= f) (Parser.look see >>= g) c c' := h

theorem InStepAt.ask {view : α → β} {see : Cursor → Bool} {p q p' q' : Parser α} {c c' : Cursor}
    (hs : see c = see c') (h : InStepAt view p q c c') (h' : InStepAt view p' q' c c') :
    InStepAt view (Parser.look see >>= fun b => if b then p else p')
      (Parser.look see >>= fun b => if b then q else q') c c' := by
  refine .look ?_
  rw [← hs]
  cases see c with
  | true => exact h
  | false => exact h'

theorem inStep_isAt (kind : TokenKind) : InStep id (isAt kind) (isAt kind) :=
  inStep_look fun _ _ hc => by rw [hc.kind]

theorem inStep_isNotAt (kind : TokenKind) : InStep id (isNotAt kind) (isNotAt kind) :=
  inStep_look fun _ _ hc => by rw [hc.kind]

theorem inStep_isAtAny (kinds : List TokenKind) : InStep id (isAtAny kinds) (isAtAny kinds) :=
  inStep_look fun _ _ hc => by rw [hc.kind]

theorem inStep_isNotAtAny (kinds : List TokenKind) :
    InStep id (isNotAtAny kinds) (isNotAtAny kinds) :=
  inStep_look fun _ _ hc => by rw [hc.kind]

theorem inStep_advance : InStep unseen advance advance :=
  fun c _ hc => ⟨c.precedes_advance, .ok rfl hc.advance⟩

theorem inStep_spanFrom {first first' : Span} :
    InStep unseen (spanFrom first) (spanFrom first') := inStep_look fun _ _ _ => rfl

/-- A rule ends with the span of what it has read, and with the node for it. -/
theorem inStep_spanned {view : α → β} {first first' : Span} {f f' : Span → α}
    (h : ∀ s s', view (f s) = view (f' s')) :
    InStep view (spanFrom first >>= fun span => pure (f span))
      (spanFrom first' >>= fun span => pure (f' span)) :=
  inStep_spanFrom.andThen fun s s' => inStep_pure (h s s')

theorem inStep_misfit {view : α → β} (m : Misfit) : InStep view (misfit m) (misfit m) :=
  fun c _ hc => ⟨.refl c, .error rfl hc⟩

theorem inStep_overrun {view : α → β} (q : Parser α) : InStep view (misfit .overrun) q :=
  fun c _ _ => ⟨.refl c, .firstOverrun rfl⟩

/-- Where the first parser goes does not depend on the second one. -/
theorem InStep.overrun {view : α → β} {p q : Parser α} (h : InStep view p q) :
    InStep view p (misfit .overrun) :=
  fun _ _ hc => ⟨(h hc).1, .secondOverrun rfl⟩

/-- A token that is taken is no end token, so its value is the same too. -/
theorem inStep_expect {kind : TokenKind} (hk : kind ≠ .eof) :
    InStep Token.value (expect kind) (expect kind) := by
  refine fun c c' hc => .look ?_
  rw [← hc.kind]
  split
  · rename_i hkind
    exact ⟨c.precedes_advance, .ok (hc.value (hkind ▸ hk)) hc.advance⟩
  · exact inStep_misfit _ hc

theorem inStep_accept (kind : TokenKind) : InStep id (accept kind) (accept kind) :=
  (inStep_isAt kind).either (inStep_advance.andThen fun _ _ => inStep_pure rfl) (inStep_pure rfl)

/-! ## Repetition -/

theorem inStep_stepsWithin {view : σ → β} {step step' : σ → Parser (Option σ)}
    (h : ∀ s s', view s = view s' → InStep (Option.map view) (step s) (step' s'))
    (budget budget' : List Token) {s s' : σ} (hs : view s = view s') :
    InStep view (stepsWithin budget step s) (stepsWithin budget' step' s') := by
  induction budget generalizing budget' s s' with
  | nil => exact inStep_overrun _
  | cons t budget ih =>
    have hcons : ∀ t' budget', InStep view (stepsWithin (t :: budget) step s)
        (stepsWithin (t' :: budget') step' s') := by
      intro t' budget'
      refine (h s s' hs).bind fun o o' ho => ?_
      cases o with
      | none =>
        obtain rfl : o' = none := Option.map_eq_none_iff.mp ho.symm
        exact inStep_pure hs
      | some r =>
        obtain ⟨r', rfl, hr⟩ := Option.map_eq_some_iff.mp ho.symm
        exact ih budget' hr.symm
    cases budget' with
    | nil => exact (hcons t []).overrun
    | cons t' budget' => exact hcons t' budget'

theorem inStep_steps {view : σ → β} {step step' : σ → Parser (Option σ)}
    (h : ∀ s s', view s = view s' → InStep (Option.map view) (step s) (step' s')) {s s' : σ}
    (hs : view s = view s') : InStep view (steps step s) (steps step' s') :=
  fun c c' hc => inStep_stepsWithin h c.budget c'.budget hs hc

section Lists

variable {item item' : Parser α} (h : InStep unseen item item')

include h

theorem inStep_manyWhile {more : Parser Bool} (hm : InStep id more more) :
    InStep unseen (manyWhile more item) (manyWhile more item') := by
  have hstep : ∀ s s', unseen s = unseen s' →
      InStep (Option.map unseen) (manyStep more item s) (manyStep more item' s') := fun _ _ _ =>
    hm.either (h.andThen fun _ _ => inStep_pure rfl) (inStep_pure rfl)
  exact (inStep_steps hstep rfl).andThen fun _ _ => inStep_pure rfl

theorem inStep_separated : InStep unseen (separated item) (separated item') := by
  have hrest : InStep unseen (advance >>= fun _ => item) (advance >>= fun _ => item') :=
    inStep_advance.andThen fun _ _ => h
  exact h.andThen fun _ _ => (inStep_manyWhile hrest (inStep_isAt .comma)).andThen fun _ _ =>
    inStep_pure rfl

theorem inStep_separatedUntil (close : TokenKind) :
    InStep unseen (separatedUntil close item) (separatedUntil close item') :=
  (inStep_isAt close).either (inStep_pure rfl) (inStep_separated h)

theorem inStep_listUntil (close : TokenKind) :
    InStep unseen (listUntil close item) (listUntil close item') := by
  -- Whether the list goes on is known from the comma that was taken last.
  have hstep : ∀ s s' : List α × Bool, s.2 = s'.2 →
      InStep (Option.map Prod.snd) (listStep close item s) (listStep close item' s') := by
    rintro ⟨items, more⟩ ⟨items', more'⟩ hs
    obtain rfl : more = more' := hs
    cases more with
    | false => exact inStep_pure rfl
    | true =>
      refine (inStep_isAt close).either (inStep_pure rfl) (h.andThen fun _ _ => ?_)
      exact (inStep_accept .comma).bind fun _ _ hcomma => inStep_pure (congrArg some hcomma)
  exact (inStep_steps hstep rfl).andThen fun _ _ => inStep_pure rfl

end Lists

/-! ## Names and literals -/

theorem inStep_identifier : InStep unseen identifier identifier :=
  (inStep_expect (by decide)).andThen fun _ _ => inStep_spanned fun _ _ => rfl

theorem inStep_tagWord : InStep unseen tagWord tagWord :=
  (inStep_expect (by decide)).andThen fun _ _ => inStep_spanned fun _ _ => rfl

theorem inStep_tagName : InStep unseen tagName tagName := by
  refine inStep_tagWord.andThen fun _ _ => inStep_steps (fun _ _ _ => ?_) rfl
  refine (inStep_accept .dot).either ?_ (inStep_pure rfl)
  exact inStep_tagWord.andThen fun _ _ => inStep_spanned fun _ _ => rfl

theorem inStep_literal (value value' : Value) (template template' : Bool) :
    InStep unseen (literal value template) (literal value' template') :=
  inStep_advance.andThen fun _ _ => inStep_spanned fun _ _ => rfl

/-- Whether a numeral is one depends on its value alone. -/
theorem inStep_numberOf {t t' : Token} (h : t.value = t'.value) :
    InStep unseen (numberOf t) (numberOf t') := by
  intro c c' hc
  unfold numberOf
  rw [h]
  cases Numeral.value? t'.value with
  | some n => exact inStep_pure rfl hc
  | none => exact ⟨.refl c, .error rfl hc⟩

theorem inStep_numeral {c c' : Cursor} (hc : c.Abreast c') (he : c.current.kind ≠ .eof) :
    InStepAt unseen numeral numeral c c' := by
  have hadvance : InStepAt Token.value advance advance c c' :=
    ⟨c.precedes_advance, .ok (hc.value he) hc.advance⟩
  refine hadvance.bind fun t t' d d' _ ht hd => ?_
  refine (inStep_numberOf ht hd).bind fun n n' e e' _ _ he => inStep_spanned ?_ he
  exact fun _ _ => rfl

/-! ## Expressions -/

/-- The rules one level further in go in step. -/
structure Inner.InStep (inner inner' : Inner) : Prop where
  assignment : Parser.InStep unseen inner.assignment inner'.assignment
  power : Parser.InStep unseen inner.power inner'.power
  unary : Parser.InStep unseen inner.unary inner'.unary
  markup : Parser.InStep unseen inner.markup inner'.markup

section Brackets

variable {item item' : Parser Node} (h : InStep unseen item item')

include h

theorem inStep_slot : InStep unseen (Rule.slot item) (Rule.slot item') := by
  refine (inStep_accept .comma).either (inStep_pure rfl) (h.andThen fun _ _ => ?_)
  refine (inStep_isAt .rightBracket).either (inStep_pure rfl) ?_
  exact (inStep_expect (by decide)).andThen fun _ _ => inStep_pure rfl

theorem inStep_bracketed : InStep unseen (Rule.bracketed item) (Rule.bracketed item') := by
  refine (inStep_expect (by decide)).andThen fun _ _ => ?_
  refine (inStep_manyWhile (inStep_slot h) (inStep_isNotAt .rightBracket)).andThen fun _ _ => ?_
  exact (inStep_expect (by decide)).andThen fun _ _ => inStep_spanned fun _ _ => rfl

end Brackets

section Rules

variable {inner inner' : Inner} (h : inner.InStep inner')

include h

theorem inStep_array : InStep unseen (Rule.array inner) (Rule.array inner') :=
  (inStep_bracketed h.assignment).andThen fun _ _ => inStep_pure rfl

theorem inStep_property : InStep unseen (Rule.property inner) (Rule.property inner') := by
  refine inStep_identifier.andThen fun _ _ => (inStep_expect (by decide)).andThen fun _ _ => ?_
  exact h.assignment.andThen fun _ _ => inStep_spanned fun _ _ => rfl

theorem inStep_object : InStep unseen (Rule.object inner) (Rule.object inner') := by
  refine (inStep_expect (by decide)).andThen fun _ _ => ?_
  refine (inStep_listUntil (inStep_property h) .rightBrace).andThen fun _ _ => ?_
  exact (inStep_expect (by decide)).andThen fun _ _ => inStep_spanned fun _ _ => rfl

theorem inStep_arguments : InStep unseen (Rule.arguments inner) (Rule.arguments inner') :=
  (inStep_separatedUntil h.assignment .rightParen).andThen fun _ _ =>
    (inStep_expect (by decide)).andThen fun _ _ => inStep_pure rfl

/-! ### Markup -/

omit h in
/-- The token after the current one is only looked at where the current one is a `<`. -/
theorem less_before_of_abreast {c c' : Cursor} (hc : c.Abreast c') (test : TokenKind → Bool) :
    (decide (c.current.kind = .less) && test c.next.kind) =
      (decide (c'.current.kind = .less) && test c'.next.kind) := by
  by_cases hl : c.current.kind = .less
  · rw [hc.next (by simp [hl]), hc.kind]
  · have hl' : c'.current.kind ≠ .less := hc.kind ▸ hl
    simp [hl, hl']

omit h in
theorem isFragmentEnd_of_abreast {c c' : Cursor} (hc : c.Abreast c') :
    Rule.isFragmentEnd c = Rule.isFragmentEnd c' := less_before_of_abreast hc fun k => k = .selfClose

omit h in
theorem inStep_closesFragment : InStep id Rule.closesFragment Rule.closesFragment :=
  inStep_look fun _ _ hc => isFragmentEnd_of_abreast hc

theorem inStep_container : InStep unseen (Rule.container inner) (Rule.container inner') := by
  refine (inStep_expect (by decide)).andThen fun _ _ => h.assignment.andThen fun _ _ => ?_
  exact (inStep_expect (by decide)).andThen fun _ _ => inStep_spanned fun _ _ => rfl

theorem inStep_givenValue (name : String) :
    InStep unseen (Rule.givenValue inner name) (Rule.givenValue inner' name) := by
  refine inStep_peek.bind fun token token' hk => ?_
  rw [← hk]
  cases token.kind with
  | string => exact inStep_literal _ _ _ _
  | leftBrace => exact inStep_container h
  | _ => exact inStep_misfit _

theorem inStep_tagAttribute :
    InStep unseen (Rule.tagAttribute inner) (Rule.tagAttribute inner') := by
  -- The name of the attribute is part of the message if its value is amiss.
  refine (inStep_expect (by decide)).bind fun token token' hname => ?_
  rw [hname]
  refine inStep_spanFrom.andThen fun _ _ => ?_
  have hvalue : InStep unseen (Rule.attributeValue inner token'.value)
      (Rule.attributeValue inner' token'.value) :=
    (inStep_accept .assign).either (inStep_givenValue h _) (inStep_pure rfl)
  exact hvalue.andThen fun _ _ => inStep_spanned fun _ _ => rfl

theorem inStep_child : InStep unseen (Rule.child inner) (Rule.child inner') := by
  refine inStep_peek.bind fun token token' hk => ?_
  rw [← hk]
  cases token.kind with
  | eof => exact inStep_misfit _
  | identifier => exact inStep_advance.andThen fun _ _ => inStep_spanned fun _ _ => rfl
  | string => exact inStep_advance.andThen fun _ _ => inStep_spanned fun _ _ => rfl
  | leftBrace => exact (inStep_container h).map fun _ _ => rfl
  | less => exact h.markup.map fun _ _ => rfl
  | _ => exact inStep_advance.andThen fun _ _ => inStep_pure rfl

theorem inStep_children : InStep unseen (Rule.children inner) (Rule.children inner') := by
  have hmore : InStep id Rule.insideMarkup Rule.insideMarkup :=
    inStep_look fun _ _ hc => by rw [hc.kind, isFragmentEnd_of_abreast hc]
  exact (inStep_manyWhile (inStep_child h) hmore).andThen fun _ _ => inStep_pure rfl

omit h in
theorem inStep_fragmentEnd : InStep unseen Rule.fragmentEnd Rule.fragmentEnd := by
  refine inStep_closesFragment.either ?_ ?_
  · exact inStep_advance.andThen fun _ _ => inStep_advance.andThen fun _ _ => inStep_pure rfl
  · exact (inStep_expect (by decide)).andThen fun _ _ =>
      (inStep_expect (by decide)).andThen fun _ _ => inStep_pure rfl

theorem inStep_markup : InStep unseen (Rule.markup inner) (Rule.markup inner') := by
  refine (inStep_expect (by decide)).andThen fun _ _ => (inStep_accept .greater).either ?_ ?_
  · refine (inStep_children h).andThen fun _ _ => inStep_fragmentEnd.andThen fun _ _ => ?_
    exact inStep_spanned fun _ _ => rfl
  · refine inStep_tagName.andThen fun _ _ => ?_
    refine (inStep_manyWhile (inStep_tagAttribute h) (inStep_isAt .identifier)).andThen fun _ _ => ?_
    refine (inStep_accept .selfClose).either (inStep_spanned fun _ _ => rfl) ?_
    refine (inStep_expect (by decide)).andThen fun _ _ => (inStep_children h).andThen fun _ _ => ?_
    refine (inStep_expect (by decide)).andThen fun _ _ => inStep_tagName.andThen fun _ _ => ?_
    exact (inStep_expect (by decide)).andThen fun _ _ => inStep_spanned fun _ _ => rfl

/-! ### Operators -/

omit h in
/-- A token that nothing begins with is named in the message. At the end it may have another
value. -/
theorem inStep_unexpected {c c' : Cursor} (hc : c.Abreast c') :
    InStepAt unseen (misfit (.unexpected c.current.text) : Parser α)
      (misfit (.unexpected c'.current.text)) c c' := by
  refine ⟨.refl c, ?_⟩
  by_cases he : c.current.kind = .eof
  · exact .atEnd he rfl rfl hc
  · exact .error (congrArg Misfit.unexpected (Token.text_of_terminal (hc.terminal he))) hc

theorem inStep_primary : InStep unseen (Rule.primary inner) (Rule.primary inner') := by
  refine fun c c' hc => .look ?_
  rw [← hc.kind]
  cases hk : c.current.kind with
  | number => exact inStep_numeral hc (by simp [hk])
  | string => exact inStep_literal _ _ _ _ hc
  | template => exact inStep_literal _ _ _ _ hc
  | trueWord => exact inStep_literal _ _ _ _ hc
  | falseWord => exact inStep_literal _ _ _ _ hc
  | nullWord => exact inStep_literal _ _ _ _ hc
  | undefinedWord =>
    refine (inStep_advance hc).bind fun _ _ _ _ _ _ hd => inStep_spanned ?_ hd
    exact fun _ _ => rfl
  | identifier => exact inStep_identifier hc
  | leftBracket => exact inStep_array h hc
  | leftBrace => exact inStep_object h hc
  | leftParen =>
    have hrest : InStep unseen (inner.assignment >>= fun e => expect .rightParen >>= fun _ => pure e)
        (inner'.assignment >>= fun e => expect .rightParen >>= fun _ => pure e) :=
      h.assignment.andThen fun _ _ => (inStep_expect (by decide)).andThen fun _ _ => inStep_pure rfl
    exact (inStep_advance hc).bind fun _ _ _ _ _ _ hd => hrest hd
  | _ =>
    exact .ask (less_before_of_abreast hc fun k => k = .identifier || k = .greater)
      (inStep_markup h hc) (inStep_unexpected hc)

theorem inStep_suffix {owner owner' : Node} :
    InStep (Option.map unseen) (Rule.suffix inner owner) (Rule.suffix inner' owner') := by
  refine inStep_peek.bind fun token token' hk => ?_
  rw [← hk]
  cases token.kind with
  | leftParen =>
    exact inStep_advance.andThen fun _ _ => (inStep_arguments h).andThen fun _ _ =>
      inStep_spanned fun _ _ => rfl
  | dot =>
    exact inStep_advance.andThen fun _ _ => inStep_identifier.andThen fun _ _ =>
      inStep_spanned fun _ _ => rfl
  | leftBracket =>
    exact inStep_advance.andThen fun _ _ => h.assignment.andThen fun _ _ =>
      (inStep_expect (by decide)).andThen fun _ _ => inStep_spanned fun _ _ => rfl
  | _ => exact inStep_pure rfl

theorem inStep_callMember : InStep unseen (Rule.callMember inner) (Rule.callMember inner') :=
  (inStep_primary h).andThen fun _ _ => inStep_steps (fun _ _ _ => inStep_suffix h) rfl

theorem inStep_unary : InStep unseen (Rule.unary inner) (Rule.unary inner') := by
  refine (inStep_isAtAny _).either ?_ (inStep_callMember h)
  exact inStep_advance.andThen fun _ _ => h.unary.andThen fun _ _ => inStep_spanned fun _ _ => rfl

theorem inStep_power : InStep unseen (Rule.power inner) (Rule.power inner') := by
  refine (inStep_unary h).andThen fun _ _ => (inStep_isAt .power).either ?_ (inStep_pure rfl)
  exact inStep_advance.andThen fun _ _ => h.power.andThen fun _ _ => inStep_spanned fun _ _ => rfl

omit h in
theorem inStep_leftChain {operators : List TokenKind} {operand operand' : Parser Node}
    (h : InStep unseen operand operand') :
    InStep unseen (Rule.leftChain operators operand) (Rule.leftChain operators operand') := by
  refine h.andThen fun _ _ => inStep_steps (fun _ _ _ => ?_) rfl
  refine (inStep_isAtAny operators).either ?_ (inStep_pure rfl)
  exact inStep_advance.andThen fun _ _ => h.andThen fun _ _ => inStep_spanned fun _ _ => rfl

theorem inStep_multiplicative :
    InStep unseen (Rule.multiplicative inner) (Rule.multiplicative inner') :=
  inStep_leftChain (inStep_power h)

theorem inStep_additive : InStep unseen (Rule.additive inner) (Rule.additive inner') :=
  inStep_leftChain (inStep_multiplicative h)

theorem inStep_relational : InStep unseen (Rule.relational inner) (Rule.relational inner') :=
  inStep_leftChain (inStep_additive h)

theorem inStep_equality : InStep unseen (Rule.equality inner) (Rule.equality inner') :=
  inStep_leftChain (inStep_relational h)

theorem inStep_logicalAnd : InStep unseen (Rule.logicalAnd inner) (Rule.logicalAnd inner') :=
  inStep_leftChain (inStep_equality h)

theorem inStep_logicalOr : InStep unseen (Rule.logicalOr inner) (Rule.logicalOr inner') :=
  inStep_leftChain (inStep_logicalAnd h)

theorem inStep_conditional : InStep unseen (Rule.conditional inner) (Rule.conditional inner') := by
  refine (inStep_logicalOr h).andThen fun _ _ => (inStep_accept .question).either ?_ (inStep_pure rfl)
  refine h.assignment.andThen fun _ _ => (inStep_expect (by decide)).andThen fun _ _ => ?_
  exact h.assignment.andThen fun _ _ => inStep_spanned fun _ _ => rfl

theorem inStep_assignment : InStep unseen (Rule.assignment inner) (Rule.assignment inner') := by
  refine (inStep_conditional h).andThen fun _ _ => (inStep_isAtAny _).either ?_ (inStep_pure rfl)
  exact inStep_advance.andThen fun _ _ => h.assignment.andThen fun _ _ =>
    inStep_spanned fun _ _ => rfl

end Rules

/-- The rules go in step at every depth, however many levels there are further in. -/
theorem inStep_inner (budget budget' : List Token) : (inner budget).InStep (inner budget') := by
  induction budget generalizing budget' with
  | nil => exact ⟨inStep_overrun _, inStep_overrun _, inStep_overrun _, inStep_overrun _⟩
  | cons t budget ih =>
    have hcons : ∀ t' budget', (inner (t :: budget)).InStep (inner (t' :: budget')) :=
      fun t' budget' => ⟨inStep_assignment (ih budget'), inStep_power (ih budget'),
        inStep_unary (ih budget'), inStep_markup (ih budget')⟩
    cases budget' with
    | nil =>
      obtain ⟨ha, hp, hu, hm⟩ := hcons t []
      exact ⟨ha.overrun, hp.overrun, hu.overrun, hm.overrun⟩
    | cons t' budget' => exact hcons t' budget'

theorem inStep_nested {rule : Inner → Parser α}
    (h : ∀ {i i' : Inner}, i.InStep i' → InStep unseen (rule i) (rule i')) :
    InStep unseen (nested rule) (nested rule) :=
  fun c c' hc =>
    have hrule := h (inStep_inner c.budget c'.budget) hc
    ⟨hrule.1, hrule.2⟩

theorem inStep_expression : InStep unseen expression expression := inStep_nested inStep_assignment

/-! ## Statements -/

theorem inStep_terminator : InStep unseen terminator terminator := by
  refine (inStep_accept .semicolon).either (inStep_pure rfl) ?_
  refine (inStep_isAtAny _).either (inStep_pure rfl) ?_
  exact (inStep_expect (by decide)).andThen fun _ _ => inStep_pure rfl

theorem inStep_arrayPattern : InStep unseen arrayPattern arrayPattern :=
  (inStep_bracketed inStep_identifier).andThen fun _ _ => inStep_pure rfl

theorem inStep_declarator : InStep unseen declarator declarator := by
  have hdeclared : InStep unseen declared declared :=
    (inStep_isAt .leftBracket).either inStep_arrayPattern inStep_identifier
  have hinitializer : InStep unseen initializer initializer :=
    (inStep_accept .assign).either inStep_expression (inStep_pure rfl)
  refine inStep_peek.andThen fun _ _ => hdeclared.andThen fun _ _ => ?_
  exact hinitializer.andThen fun _ _ => inStep_spanned fun _ _ => rfl

theorem inStep_declaration : InStep unseen declaration declaration :=
  inStep_advance.andThen fun _ _ => (inStep_separated inStep_declarator).andThen fun _ _ =>
    inStep_spanned fun _ _ => rfl

theorem inStep_returning : InStep unseen returning returning := by
  have hreturned : InStep unseen returned returned :=
    (inStep_isAtAny _).either (inStep_pure rfl) inStep_expression
  exact inStep_advance.andThen fun _ _ => hreturned.andThen fun _ _ =>
    inStep_terminator.andThen fun _ _ => inStep_spanned fun _ _ => rfl

theorem inStep_single (node : Span → Node) : InStep unseen (single node) (single node) :=
  inStep_advance.andThen fun _ _ => inStep_terminator.andThen fun _ _ =>
    inStep_spanned fun _ _ => rfl

theorem inStep_importing : InStep unseen importing importing := by
  have hspecifier : InStep unseen importSpecifier importSpecifier :=
    inStep_identifier.andThen fun _ _ => inStep_spanned fun _ _ => rfl
  refine inStep_advance.andThen fun _ _ => (inStep_expect (by decide)).andThen fun _ _ => ?_
  refine (inStep_listUntil hspecifier .rightBrace).andThen fun _ _ => ?_
  refine (inStep_expect (by decide)).andThen fun _ _ => ?_
  refine (inStep_expect (by decide)).andThen fun _ _ => ?_
  refine (inStep_expect (by decide)).andThen fun _ _ => inStep_spanFrom.andThen fun _ _ => ?_
  exact inStep_terminator.andThen fun _ _ => inStep_spanned fun _ _ => rfl

theorem inStep_expressionStatement : InStep unseen expressionStatement expressionStatement :=
  inStep_expression.andThen fun _ _ => inStep_terminator.andThen fun _ _ =>
    inStep_spanned fun _ _ => rfl

theorem inStep_condition : InStep unseen Rule.condition Rule.condition :=
  (inStep_expect (by decide)).andThen fun _ _ => inStep_expression.andThen fun _ _ =>
    (inStep_expect (by decide)).andThen fun _ _ => inStep_pure rfl

theorem inStep_optional (close : TokenKind) :
    InStep unseen (Rule.optional close) (Rule.optional close) :=
  (inStep_isAt close).either (inStep_pure rfl) inStep_expression

/-- The rules of statements one level further in go in step. -/
structure InnerStatement.InStep (inner inner' : InnerStatement) : Prop where
  statement : Parser.InStep unseen inner.statement inner'.statement
  ifElse : Parser.InStep unseen inner.ifElse inner'.ifElse

section Rules

variable {inner inner' : InnerStatement} (h : inner.InStep inner')

include h

theorem inStep_block : InStep unseen (Rule.block inner) (Rule.block inner') := by
  refine (inStep_expect (by decide)).andThen fun _ _ => ?_
  refine (inStep_manyWhile h.statement (inStep_isNotAtAny _)).andThen fun _ _ => ?_
  exact (inStep_expect (by decide)).andThen fun _ _ => inStep_spanned fun _ _ => rfl

theorem inStep_function : InStep unseen (Rule.function inner) (Rule.function inner') := by
  refine inStep_advance.andThen fun _ _ => inStep_identifier.andThen fun _ _ => ?_
  refine (inStep_expect (by decide)).andThen fun _ _ => ?_
  refine (inStep_separatedUntil inStep_identifier .rightParen).andThen fun _ _ => ?_
  refine (inStep_expect (by decide)).andThen fun _ _ => (inStep_block h).andThen fun _ _ => ?_
  exact inStep_spanned fun _ _ => rfl

theorem inStep_ifElse : InStep unseen (Rule.ifElse inner) (Rule.ifElse inner') := by
  have halternate : InStep unseen (Rule.alternate inner) (Rule.alternate inner') :=
    (inStep_isAt .elseIfWord).either h.ifElse
      ((inStep_accept .elseWord).either h.statement (inStep_pure rfl))
  refine inStep_advance.andThen fun _ _ => inStep_condition.andThen fun _ _ => ?_
  exact h.statement.andThen fun _ _ => halternate.andThen fun _ _ => inStep_spanned fun _ _ => rfl

theorem inStep_whileLoop : InStep unseen (Rule.whileLoop inner) (Rule.whileLoop inner') :=
  inStep_advance.andThen fun _ _ => inStep_condition.andThen fun _ _ =>
    h.statement.andThen fun _ _ => inStep_spanned fun _ _ => rfl

theorem inStep_forLoop : InStep unseen (Rule.forLoop inner) (Rule.forLoop inner') := by
  have hinitial : InStep unseen Rule.initialPart Rule.initialPart :=
    (inStep_isAtAny _).either inStep_declaration (inStep_optional .semicolon)
  refine inStep_advance.andThen fun _ _ => (inStep_expect (by decide)).andThen fun _ _ => ?_
  refine hinitial.andThen fun _ _ => (inStep_expect (by decide)).andThen fun _ _ => ?_
  refine (inStep_optional _).andThen fun _ _ => (inStep_expect (by decide)).andThen fun _ _ => ?_
  refine (inStep_optional _).andThen fun _ _ => (inStep_expect (by decide)).andThen fun _ _ => ?_
  exact h.statement.andThen fun _ _ => inStep_spanned fun _ _ => rfl

theorem inStep_exporting : InStep unseen (Rule.exporting inner) (Rule.exporting inner') :=
  inStep_advance.andThen fun _ _ => (inStep_accept .defaultWord).andThen fun _ _ =>
    h.statement.andThen fun _ _ => inStep_spanned fun _ _ => rfl

theorem inStep_ruleStatement : InStep unseen (Rule.statement inner) (Rule.statement inner') := by
  have hdeclaration : InStep unseen (declaration >>= fun n => terminator >>= fun _ => pure n)
      (declaration >>= fun n => terminator >>= fun _ => pure n) :=
    inStep_declaration.andThen fun _ _ => inStep_terminator.andThen fun _ _ => inStep_pure rfl
  refine inStep_peek.bind fun token token' hk => ?_
  rw [← hk]
  cases token.kind with
  | letWord => exact hdeclaration
  | constWord => exact hdeclaration
  | functionWord => exact inStep_function h
  | componentWord => exact inStep_function h
  | leftBrace => exact inStep_block h
  | ifWord => exact inStep_ifElse h
  | whileWord => exact inStep_whileLoop h
  | forWord => exact inStep_forLoop h
  | returnWord => exact inStep_returning
  | breakWord => exact inStep_single _
  | continueWord => exact inStep_single _
  | importWord => exact inStep_importing
  | exportWord => exact inStep_exporting h
  | _ => exact inStep_expressionStatement

end Rules

theorem inStep_innerStatement (budget budget' : List Token) :
    (innerStatement budget).InStep (innerStatement budget') := by
  induction budget generalizing budget' with
  | nil => exact ⟨inStep_overrun _, inStep_overrun _⟩
  | cons t budget ih =>
    have hcons : ∀ t' budget',
        (innerStatement (t :: budget)).InStep (innerStatement (t' :: budget')) := fun t' budget' =>
      ⟨inStep_ruleStatement (ih budget'), inStep_ifElse (ih budget')⟩
    cases budget' with
    | nil =>
      obtain ⟨hs, hi⟩ := hcons t []
      exact ⟨hs.overrun, hi.overrun⟩
    | cons t' budget' => exact hcons t' budget'

theorem inStep_nestedStatement {rule : InnerStatement → Parser Node}
    (h : ∀ {i i' : InnerStatement}, i.InStep i' → InStep unseen (rule i) (rule i')) :
    InStep unseen (nestedStatement rule) (nestedStatement rule) := fun c c' hc =>
  have hrule := h (inStep_innerStatement c.budget c'.budget) hc
  ⟨hrule.1, hrule.2⟩

theorem inStep_statement : InStep unseen statement statement :=
  inStep_nestedStatement inStep_ruleStatement

theorem inStep_program : InStep unseen program program :=
  inStep_peek.andThen fun _ _ =>
    (inStep_manyWhile inStep_statement (inStep_isNotAt .eof)).andThen fun _ _ =>
      inStep_spanned fun _ _ => rfl

end Parser

end HanScript
