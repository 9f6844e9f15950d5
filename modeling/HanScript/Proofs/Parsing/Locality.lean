-- The parser looks at the current token, and after a `<` at the next one too.
-- So two lists of tokens that begin alike are parsed alike up to the place
-- where they part, unless the last token that they share is a `<`.
import HanScript.Proofs.Parsing.Steps

namespace HanScript

/-- The place of the token that an error is about, for a parser that has failed at the cursor.
A numeral that is none has been taken before it is found out. -/
def ParseError.index (e : ParseError) (c : Cursor) : Nat :=
  match e.misfit with
  | .badNumeral _ => c.position - 1
  | _ => c.position

namespace Cursor

/-! ## Cursors that share tokens -/

/-- What is behind the cursors is the same, and so is what is ahead of them through the token at
place `k`, which is no `<`. -/
def Shares (k : Nat) (c c' : Cursor) : Prop :=
  c.behind = c'.behind ∧ ∃ s t, c.position + s.length = k ∧ t.kind ≠ .less ∧
    s ++ [t] <+: c.ahead ++ [c.last] ∧ s ++ [t] <+: c'.ahead ++ [c'.last]

theorem headD_of_concat {s ts : List Token} {t u : Token} (h : s ++ [t] <+: ts ++ [u]) :
    ts.headD u = s.headD t := by
  cases ts with
  | nil =>
    cases s with
    | nil => exact (List.cons_prefix_cons.mp h).1.symm
    | cons b s =>
      have := h.length_le
      simp at this
  | cons a ts =>
    cases s with
    | nil => exact (List.cons_prefix_cons.mp h).1.symm
    | cons b s => exact (List.cons_prefix_cons.mp h).1.symm

theorem drop_of_concat {s ts : List Token} {t u : Token} (h : s ++ [t] <+: ts ++ [u])
    (hs : s ≠ []) : s.drop 1 ++ [t] <+: ts.drop 1 ++ [u] := by
  cases s with
  | nil => exact absurd rfl hs
  | cons b s =>
    cases ts with
    | nil =>
      have := h.length_le
      simp at this
    | cons a ts => exact (List.cons_prefix_cons.mp h).2

theorem position_advance_le (c : Cursor) : c.position ≤ c.advance.position := by
  by_cases h : c.current.kind = .eof
  · exact Nat.le_of_eq (by rw [advance_of_eof h])
  · unfold position
    rw [(advance_of_ne_eof h).1, List.length_cons]
    omega

namespace Shares

variable {k : Nat} {c c' : Cursor}

theorem current (h : c.Shares k c') : c'.current = c.current := by
  obtain ⟨-, s, t, -, -, hc, hc'⟩ := h
  unfold Cursor.current
  rw [headD_of_concat hc, headD_of_concat hc']

theorem previous (h : c.Shares k c') : c'.previous = c.previous := by
  unfold Cursor.previous
  rw [h.current, h.1]

/-- The next token is the same too where it is looked at. -/
theorem next (h : c.Shares k c') (hl : c.current.kind = .less) : c'.next = c.next := by
  obtain ⟨-, s, t, -, ht, hc, hc'⟩ := h
  have hs : s ≠ [] := by
    rintro rfl
    unfold Cursor.current at hl
    rw [headD_of_concat hc] at hl
    exact ht hl
  unfold Cursor.next
  rw [headD_of_concat (drop_of_concat hc hs),
    headD_of_concat (drop_of_concat hc' hs)]

theorem advance (h : c.Shares k c') : k < c.advance.position ∨ c.advance.Shares k c'.advance := by
  have hcurrent := h.current
  by_cases he : c.current.kind = .eof
  · right
    rw [advance_of_eof he, advance_of_eof (by rw [hcurrent]; exact he)]
    exact h
  · obtain ⟨hb, ha, hl⟩ := advance_of_ne_eof he
    obtain ⟨hb', ha', hl'⟩ := advance_of_ne_eof (c := c') (by rw [hcurrent]; exact he)
    obtain ⟨hbehind, s, t, hk, ht, hc, hc'⟩ := h
    have hposition : c.advance.position = c.position + 1 := by
      unfold Cursor.position
      rw [hb, List.length_cons]
    by_cases hs : s = []
    · left
      rw [hs, List.length_nil] at hk
      omega
    · right
      refine ⟨by rw [hb, hb', hcurrent, hbehind], s.drop 1, t, ?_, ht, ?_, ?_⟩
      · have := List.length_pos_iff.mpr hs
        rw [List.length_drop]
        omega
      · rw [ha] at hc
        rw [hl]
        exact drop_of_concat hc hs
      · rw [ha'] at hc'
        rw [hl']
        exact drop_of_concat hc' hs

end Shares

end Cursor

namespace Parser

variable {α β σ : Type}

/-! ## Runs that go alike -/

/-- The place that a run has got to. -/
def reach (r : Except ParseError α × Cursor) : Nat :=
  match r.1 with
  | .ok _ => r.2.position
  | .error e => e.index r.2

/-- Two runs have the same result, and what they share up to place `k` they still share. Nothing is
said of runs that ran out of steps or levels. -/
inductive Agree (k : Nat) : Except ParseError α × Cursor → Except ParseError α × Cursor → Prop where
  | ok {a d d'} : d.Shares k d' → Agree k (.ok a, d) (.ok a, d')
  | error {e d d'} : Agree k (.error e, d) (.error e, d')
  | firstOverrun {e d r} : e.misfit = .overrun → Agree k (.error e, d) r
  | secondOverrun {e d r} : e.misfit = .overrun → Agree k r (.error e, d)

/-- From the cursor the first parser goes on, and from every cursor that shares tokens with it the
second one does the same, unless the first gets past what they share. -/
def AlikeAt (p q : Parser α) (c : Cursor) : Prop :=
  c.position ≤ reach (p c) ∧ ∀ ⦃k c'⦄, c.Shares k c' → k < reach (p c) ∨ Agree k (p c) (q c')

/-- The parsers are alike from everywhere. -/
def Alike (p q : Parser α) : Prop := ∀ c, AlikeAt p q c

theorem AlikeAt.bind {p q : Parser α} {f g : α → Parser β} {c : Cursor} (h : AlikeAt p q c)
    (hf : ∀ a d, p.Gives c a d → AlikeAt (f a) (g a) d) : AlikeAt (p >>= f) (q >>= g) c := by
  obtain ⟨hle, h⟩ := h
  cases hp : p c with
  | mk r d =>
    rw [hp] at hle h
    unfold AlikeAt
    cases r with
    | ok a =>
      obtain ⟨hle', hf⟩ := hf a d hp
      replace hle : c.position ≤ d.position := hle
      rw [bind_of_ok hp]
      refine ⟨by omega, fun k c' hs => ?_⟩
      rcases h hs with hlt | ha
      · replace hlt : k < d.position := hlt
        exact .inl (by omega)
      · generalize hq : q c' = rq at ha
        cases ha with
        | ok hs' =>
          rw [bind_of_ok hq]
          exact hf hs'
        | secondOverrun he =>
          rw [bind_of_error hq]
          exact .inr (.secondOverrun he)
    | error e =>
      rw [bind_of_error hp]
      refine ⟨hle, fun k c' hs => ?_⟩
      rcases h hs with hlt | ha
      · exact .inl hlt
      · right
        generalize hq : q c' = rq at ha
        cases ha with
        | error =>
          rw [bind_of_error hq]
          exact .error
        | firstOverrun he => exact .firstOverrun he
        | secondOverrun he =>
          rw [bind_of_error hq]
          exact .secondOverrun he

theorem Alike.bind {p q : Parser α} {f g : α → Parser β} (h : Alike p q)
    (hf : ∀ a, Alike (f a) (g a)) : Alike (p >>= f) (q >>= g) :=
  fun c => (h c).bind fun a d _ => hf a d

theorem Alike.ite {b : Bool} {p q p' q' : Parser α} (h : Alike p q) (h' : Alike p' q') :
    Alike (if b then p else p') (if b then q else q') := by
  cases b with
  | true => exact h
  | false => exact h'

/-! ## Single steps -/

theorem alike_pure (a : α) : Alike (pure a) (pure a) :=
  fun _ => ⟨Nat.le_refl _, fun _ _ hs => .inr (.ok hs)⟩

theorem Alike.map {p q : Parser α} (f : α → β) (h : Alike p q) : Alike (f <$> p) (f <$> q) :=
  h.bind fun a => alike_pure (f a)

theorem alike_look {f : Cursor → α} (hf : ∀ ⦃k c c'⦄, c.Shares k c' → f c' = f c) :
    Alike (look f) (look f) := by
  refine fun c => ⟨Nat.le_refl _, fun k c' hs => .inr ?_⟩
  unfold look
  rw [hf hs]
  exact .ok hs

theorem alike_peek : Alike peek peek := alike_look fun _ _ _ hs => hs.current

theorem alike_isAt (kind : TokenKind) : Alike (isAt kind) (isAt kind) :=
  alike_look fun _ _ _ hs => by rw [hs.current]

theorem alike_isNotAt (kind : TokenKind) : Alike (isNotAt kind) (isNotAt kind) :=
  alike_look fun _ _ _ hs => by rw [hs.current]

theorem alike_isAtAny (kinds : List TokenKind) : Alike (isAtAny kinds) (isAtAny kinds) :=
  alike_look fun _ _ _ hs => by rw [hs.current]

theorem alike_isNotAtAny (kinds : List TokenKind) : Alike (isNotAtAny kinds) (isNotAtAny kinds) :=
  alike_look fun _ _ _ hs => by rw [hs.current]

theorem alike_spanFrom (first : Span) : Alike (spanFrom first) (spanFrom first) :=
  alike_look fun _ _ _ hs => by rw [Cursor.spanFrom, Cursor.spanFrom, hs.previous]

theorem alike_advance : Alike advance advance := by
  refine fun c => ⟨c.position_advance_le, fun k c' hs => ?_⟩
  unfold advance
  rcases hs.advance with hlt | hs'
  · exact .inl hlt
  · right
    rw [hs.current]
    exact .ok hs'

/-- A misfit is found at the current token. -/
theorem alike_misfit {m : Misfit} (hm : ∀ text, m ≠ .badNumeral text) :
    Alike (misfit m : Parser α) (misfit m) := by
  intro c
  have hindex : reach ((misfit m : Parser α) c) = c.position := by
    change ParseError.index (.atToken c.current m) c = c.position
    unfold ParseError.index ParseError.atToken
    split
    · rename_i text h
      exact absurd h (hm text)
    · rfl
  refine ⟨Nat.le_of_eq hindex.symm, fun k c' hs => .inr ?_⟩
  change Agree k (.error (.atToken c.current m), c) (.error (.atToken c'.current m), c')
  rw [hs.current]
  exact .error

theorem alike_overrun (q : Parser α) : Alike (misfit .overrun) q :=
  fun _ => ⟨Nat.le_refl _, fun _ _ _ => .inr (.firstOverrun rfl)⟩

/-- How the first parser goes on does not depend on the second one. -/
theorem Alike.overrun {p q : Parser α} (h : Alike p q) : Alike p (misfit .overrun) :=
  fun c => ⟨(h c).1, fun _ _ _ => .inr (.secondOverrun rfl)⟩

theorem alike_expect (kind : TokenKind) : Alike (expect kind) (expect kind) := by
  unfold expect
  refine alike_peek.bind fun t => ?_
  split
  · exact alike_advance
  · exact alike_misfit (by simp)

theorem alike_accept (kind : TokenKind) : Alike (accept kind) (accept kind) :=
  (alike_isAt kind).bind fun _ => (alike_advance.bind fun _ => alike_pure true).ite (alike_pure false)

/-! ## Repetition -/

theorem alike_stepsWithin {step step' : σ → Parser (Option σ)} (h : ∀ s, Alike (step s) (step' s))
    (budget budget' : List Token) (s : σ) :
    Alike (stepsWithin budget step s) (stepsWithin budget' step' s) := by
  induction budget generalizing budget' s with
  | nil => exact alike_overrun _
  | cons t budget ih =>
    have hcons : ∀ t' budget', Alike (stepsWithin (t :: budget) step s)
        (stepsWithin (t' :: budget') step' s) := by
      intro t' budget'
      refine (h s).bind fun o => ?_
      cases o with
      | none => exact alike_pure s
      | some s' => exact ih budget' s'
    cases budget' with
    | nil => exact (hcons t []).overrun
    | cons t' budget' => exact hcons t' budget'

theorem alike_steps {step step' : σ → Parser (Option σ)} (h : ∀ s, Alike (step s) (step' s))
    (s : σ) : Alike (steps step s) (steps step' s) :=
  fun c => ⟨(alike_stepsWithin h c.budget c.budget s c).1,
    fun _ c' hs => (alike_stepsWithin h c.budget c'.budget s c).2 hs⟩

section

variable {item item' : Parser α} (h : Alike item item')

include h

theorem alike_manyWhile {more : Parser Bool} (hm : Alike more more) :
    Alike (manyWhile more item) (manyWhile more item') := by
  refine (alike_steps (fun items => ?_) []).bind fun items => alike_pure items.reverse
  exact hm.bind fun _ => (h.bind fun a => alike_pure (some (a :: items))).ite (alike_pure none)

theorem alike_separated : Alike (separated item) (separated item') := by
  refine h.bind fun first => ?_
  have hrest : Alike (advance >>= fun _ => item) (advance >>= fun _ => item') :=
    alike_advance.bind fun _ => h
  exact (alike_manyWhile hrest (alike_isAt .comma)).bind fun rest => alike_pure (first :: rest)

theorem alike_separatedUntil (close : TokenKind) :
    Alike (separatedUntil close item) (separatedUntil close item') :=
  (alike_isAt close).bind fun _ => (alike_pure []).ite (alike_separated h)

theorem alike_listUntil (close : TokenKind) :
    Alike (listUntil close item) (listUntil close item') := by
  have hstep : ∀ s, Alike (listStep close item s) (listStep close item' s) := by
    rintro ⟨items, more⟩
    refine (alike_pure none).ite ((alike_isAt close).bind fun _ => (alike_pure none).ite ?_)
    exact h.bind fun a => (alike_accept .comma).bind fun comma => alike_pure (some (a :: items, comma))
  exact (alike_steps hstep ([], true)).bind fun r => alike_pure r.1.reverse

end

/-! ## Names and literals -/

theorem alike_identifier : Alike identifier identifier :=
  (alike_expect .identifier).bind fun _ => (alike_spanFrom _).bind fun _ => alike_pure _

theorem alike_tagWord : Alike tagWord tagWord :=
  (alike_expect .identifier).bind fun _ => (alike_spanFrom _).bind fun _ => alike_pure _

theorem alike_tagName : Alike tagName tagName := by
  refine alike_tagWord.bind fun first => alike_steps (fun name => ?_) first
  refine (alike_accept .dot).bind fun _ => Alike.ite ?_ (alike_pure none)
  exact alike_tagWord.bind fun _ => (alike_spanFrom _).bind fun _ => alike_pure _

theorem alike_literal (value : Value) (template : Bool) :
    Alike (literal value template) (literal value template) :=
  alike_advance.bind fun _ => (alike_spanFrom _).bind fun _ => alike_pure _

/-- A numeral that is none is found out after it has been taken. -/
theorem numeral_of_none {c : Cursor} (h : Numeral.value? c.current.value = none) :
    numeral c = (.error (.atToken c.current (.badNumeral c.current.value)), c.advance) := by
  unfold numeral numberOf
  rw [bind_of_ok (rfl : advance c = (.ok c.current, c.advance)), h]
  rfl

theorem alike_numeral {c : Cursor} (hc : c.current.kind ≠ .eof) : AlikeAt numeral numeral c := by
  cases hv : Numeral.value? c.current.value with
  | some n =>
    refine (alike_advance c).bind fun token d hd => ?_
    obtain ⟨rfl, -⟩ := advance_gives.mp hd
    unfold numberOf
    rw [hv]
    exact ((alike_pure n).bind fun _ => (alike_spanFrom _).bind fun _ => alike_pure _) d
  | none =>
    refine ⟨?_, fun k c' hs => .inr ?_⟩
    · rw [numeral_of_none hv]
      change c.behind.length ≤ c.advance.behind.length - 1
      rw [(Cursor.advance_of_ne_eof hc).1, List.length_cons]
      omega
    · rw [numeral_of_none hv, numeral_of_none (c := c') (by rw [hs.current, hv]), hs.current]
      exact .error

/-! ## Expressions -/

/-- The rules one level further in are alike. -/
structure Inner.Alike (inner inner' : Inner) : Prop where
  assignment : Parser.Alike inner.assignment inner'.assignment
  power : Parser.Alike inner.power inner'.power
  unary : Parser.Alike inner.unary inner'.unary
  markup : Parser.Alike inner.markup inner'.markup

section Rules

variable {inner inner' : Inner} (h : inner.Alike inner')

include h

omit h in
theorem alike_slot {item item' : Parser Node} (h : Alike item item') :
    Alike (Rule.slot item) (Rule.slot item') := by
  refine (alike_accept .comma).bind fun _ => (alike_pure _).ite (h.bind fun element => ?_)
  refine (alike_isAt .rightBracket).bind fun _ => (alike_pure element).ite ?_
  exact (alike_expect .comma).bind fun _ => alike_pure element

omit h in
theorem alike_bracketed {item item' : Parser Node} (h : Alike item item') :
    Alike (Rule.bracketed item) (Rule.bracketed item') := by
  refine (alike_expect .leftBracket).bind fun first => ?_
  refine (alike_manyWhile (alike_slot h) (alike_isNotAt .rightBracket)).bind fun elements => ?_
  exact (alike_expect .rightBracket).bind fun _ => (alike_spanFrom _).bind fun _ => alike_pure _

theorem alike_array : Alike (Rule.array inner) (Rule.array inner') :=
  (alike_bracketed h.assignment).bind fun _ => alike_pure _

theorem alike_property : Alike (Rule.property inner) (Rule.property inner') := by
  refine alike_identifier.bind fun key => (alike_expect .colon).bind fun _ => ?_
  exact h.assignment.bind fun _ => (alike_spanFrom _).bind fun _ => alike_pure _

theorem alike_object : Alike (Rule.object inner) (Rule.object inner') := by
  refine (alike_expect .leftBrace).bind fun first => ?_
  refine (alike_listUntil (alike_property h) .rightBrace).bind fun properties => ?_
  exact (alike_expect .rightBrace).bind fun _ => (alike_spanFrom _).bind fun _ => alike_pure _

theorem alike_arguments : Alike (Rule.arguments inner) (Rule.arguments inner') :=
  (alike_separatedUntil h.assignment .rightParen).bind fun items =>
    (alike_expect .rightParen).bind fun _ => alike_pure items

/-! ### Markup -/

omit h in
theorem alike_opensMarkup : Alike Rule.opensMarkup Rule.opensMarkup := by
  refine alike_look fun k c c' hs => ?_
  rw [hs.current]
  by_cases hl : c.current.kind = .less
  · rw [hs.next hl]
  · simp [hl]

omit h in
theorem isFragmentEnd_of_shares {k : Nat} {c c' : Cursor} (hs : c.Shares k c') :
    Rule.isFragmentEnd c' = Rule.isFragmentEnd c := by
  unfold Rule.isFragmentEnd
  rw [hs.current]
  by_cases hl : c.current.kind = .less
  · rw [hs.next hl]
  · simp [hl]

theorem alike_container : Alike (Rule.container inner) (Rule.container inner') := by
  refine (alike_expect .leftBrace).bind fun first => h.assignment.bind fun _ => ?_
  exact (alike_expect .rightBrace).bind fun _ => (alike_spanFrom _).bind fun _ => alike_pure _

theorem alike_givenValue (name : String) :
    Alike (Rule.givenValue inner name) (Rule.givenValue inner' name) := by
  refine alike_peek.bind fun token => ?_
  cases token.kind with
  | string => exact alike_literal _ _
  | leftBrace => exact alike_container h
  | _ => exact alike_misfit (by simp)

theorem alike_tagAttribute : Alike (Rule.tagAttribute inner) (Rule.tagAttribute inner') := by
  refine (alike_expect .identifier).bind fun token => (alike_spanFrom _).bind fun nameSpan => ?_
  have hvalue : Alike (Rule.attributeValue inner token.value)
      (Rule.attributeValue inner' token.value) :=
    (alike_accept .assign).bind fun _ => (alike_givenValue h _).ite (alike_pure _)
  exact hvalue.bind fun _ => (alike_spanFrom _).bind fun _ => alike_pure _

theorem alike_child : Alike (Rule.child inner) (Rule.child inner') := by
  refine alike_peek.bind fun token => ?_
  cases token.kind with
  | eof => exact alike_misfit (by simp)
  | identifier => exact alike_advance.bind fun _ => (alike_spanFrom _).bind fun _ => alike_pure _
  | string => exact alike_advance.bind fun _ => (alike_spanFrom _).bind fun _ => alike_pure _
  | leftBrace => exact (alike_container h).map some
  | less => exact h.markup.map some
  | _ => exact alike_advance.bind fun _ => alike_pure none

theorem alike_children : Alike (Rule.children inner) (Rule.children inner') := by
  have hmore : Alike Rule.insideMarkup Rule.insideMarkup :=
    alike_look fun _ _ _ hs => by rw [hs.current, isFragmentEnd_of_shares hs]
  exact (alike_manyWhile (alike_child h) hmore).bind fun _ => alike_pure _

omit h in
theorem alike_fragmentEnd : Alike Rule.fragmentEnd Rule.fragmentEnd := by
  have hcloses : Alike Rule.closesFragment Rule.closesFragment :=
    alike_look fun _ _ _ hs => isFragmentEnd_of_shares hs
  refine hcloses.bind fun _ => Alike.ite ?_ ?_
  · exact alike_advance.bind fun _ => alike_advance.bind fun _ => alike_pure _
  · exact (alike_expect .closeTag).bind fun _ => (alike_expect .greater).bind fun _ => alike_pure _

theorem alike_markup : Alike (Rule.markup inner) (Rule.markup inner') := by
  refine (alike_expect .less).bind fun opening => (alike_accept .greater).bind fun _ =>
    Alike.ite ?_ ?_
  · refine (alike_children h).bind fun items => alike_fragmentEnd.bind fun _ => ?_
    exact (alike_spanFrom _).bind fun _ => alike_pure _
  · refine alike_tagName.bind fun name => ?_
    refine (alike_manyWhile (alike_tagAttribute h) (alike_isAt .identifier)).bind fun attributes => ?_
    refine (alike_accept .selfClose).bind fun _ => Alike.ite ?_ ?_
    · exact (alike_spanFrom _).bind fun _ => alike_pure _
    · refine (alike_expect .greater).bind fun _ => (alike_children h).bind fun items => ?_
      refine (alike_expect .closeTag).bind fun _ => alike_tagName.bind fun _ => ?_
      exact (alike_expect .greater).bind fun _ => (alike_spanFrom _).bind fun _ => alike_pure _

/-! ### Operators -/

theorem alike_primary : Alike (Rule.primary inner) (Rule.primary inner') := by
  refine fun c => (alike_peek c).bind fun token d hd => ?_
  obtain ⟨rfl, rfl⟩ := peek_gives.mp hd
  cases hk : c.current.kind with
  | number => exact alike_numeral (by simp [hk])
  | string => exact alike_literal _ _ c
  | template => exact alike_literal _ _ c
  | trueWord => exact alike_literal _ _ c
  | falseWord => exact alike_literal _ _ c
  | nullWord => exact alike_literal _ _ c
  | undefinedWord =>
    exact (alike_advance.bind fun _ => (alike_spanFrom _).bind fun _ => alike_pure _) c
  | identifier => exact alike_identifier c
  | leftBracket => exact alike_array h c
  | leftBrace => exact alike_object h c
  | leftParen =>
    exact (alike_advance.bind fun _ => h.assignment.bind fun e =>
      (alike_expect .rightParen).bind fun _ => alike_pure e) c
  | _ =>
    exact (alike_opensMarkup.bind fun _ => (alike_markup h).ite (alike_misfit (by simp))) c

theorem alike_suffix (owner : Node) : Alike (Rule.suffix inner owner) (Rule.suffix inner' owner) := by
  refine alike_peek.bind fun token => ?_
  cases token.kind with
  | leftParen =>
    exact alike_advance.bind fun _ => (alike_arguments h).bind fun _ =>
      (alike_spanFrom _).bind fun _ => alike_pure _
  | dot =>
    exact alike_advance.bind fun _ => alike_identifier.bind fun _ =>
      (alike_spanFrom _).bind fun _ => alike_pure _
  | leftBracket =>
    exact alike_advance.bind fun _ => h.assignment.bind fun _ =>
      (alike_expect .rightBracket).bind fun _ => (alike_spanFrom _).bind fun _ => alike_pure _
  | _ => exact alike_pure none

theorem alike_unary : Alike (Rule.unary inner) (Rule.unary inner') := by
  refine (alike_isAtAny _).bind fun _ => Alike.ite ?_ ?_
  · exact alike_advance.bind fun _ => h.unary.bind fun _ => (alike_spanFrom _).bind fun _ =>
      alike_pure _
  · exact (alike_primary h).bind fun owner => alike_steps (alike_suffix h) owner

theorem alike_power : Alike (Rule.power inner) (Rule.power inner') := by
  refine (alike_unary h).bind fun left => (alike_isAt .power).bind fun _ =>
    Alike.ite ?_ (alike_pure left)
  exact alike_advance.bind fun _ => h.power.bind fun _ => (alike_spanFrom _).bind fun _ =>
    alike_pure _

omit h in
theorem alike_leftChain {operators : List TokenKind} {operand operand' : Parser Node}
    (h : Alike operand operand') :
    Alike (Rule.leftChain operators operand) (Rule.leftChain operators operand') := by
  refine h.bind fun first => alike_steps (fun left => ?_) first
  refine (alike_isAtAny operators).bind fun _ => Alike.ite ?_ (alike_pure none)
  exact alike_advance.bind fun _ => h.bind fun _ => (alike_spanFrom _).bind fun _ => alike_pure _

theorem alike_logicalOr : Alike (Rule.logicalOr inner) (Rule.logicalOr inner') :=
  -- From products and quotients up to alternatives, each a chain of the one before.
  alike_leftChain (alike_leftChain (alike_leftChain (alike_leftChain (alike_leftChain
    (alike_leftChain (alike_power h))))))

theorem alike_assignment : Alike (Rule.assignment inner) (Rule.assignment inner') := by
  have hconditional : Alike (Rule.conditional inner) (Rule.conditional inner') := by
    refine (alike_logicalOr h).bind fun test => (alike_accept .question).bind fun _ =>
      Alike.ite ?_ (alike_pure test)
    refine h.assignment.bind fun _ => (alike_expect .colon).bind fun _ => ?_
    exact h.assignment.bind fun _ => (alike_spanFrom _).bind fun _ => alike_pure _
  refine hconditional.bind fun left => (alike_isAtAny _).bind fun _ => Alike.ite ?_ (alike_pure left)
  exact alike_advance.bind fun _ => h.assignment.bind fun _ => (alike_spanFrom _).bind fun _ =>
    alike_pure _

end Rules

/-- The rules are alike at every depth, however many levels there are further in. -/
theorem alike_inner (budget budget' : List Token) : (inner budget).Alike (inner budget') := by
  induction budget generalizing budget' with
  | nil => exact ⟨alike_overrun _, alike_overrun _, alike_overrun _, alike_overrun _⟩
  | cons t budget ih =>
    have hcons : ∀ t' budget', (inner (t :: budget)).Alike (inner (t' :: budget')) := fun t' budget' =>
      ⟨alike_assignment (ih budget'), alike_power (ih budget'), alike_unary (ih budget'),
        alike_markup (ih budget')⟩
    cases budget' with
    | nil =>
      obtain ⟨ha, hp, hu, hm⟩ := hcons t []
      exact ⟨ha.overrun, hp.overrun, hu.overrun, hm.overrun⟩
    | cons t' budget' => exact hcons t' budget'

theorem alike_expression : Alike expression expression :=
  fun c => ⟨(alike_assignment (alike_inner c.budget c.budget) c).1,
    fun _ c' hs => (alike_assignment (alike_inner c.budget c'.budget) c).2 hs⟩

/-! ## Statements -/

theorem alike_terminator : Alike terminator terminator := by
  refine (alike_accept .semicolon).bind fun _ => (alike_pure _).ite ?_
  refine (alike_isAtAny _).bind fun _ => (alike_pure _).ite ?_
  exact (alike_expect .semicolon).bind fun _ => alike_pure _

theorem alike_declarator : Alike declarator declarator := by
  have hdeclared : Alike declared declared := by
    refine (alike_isAt .leftBracket).bind fun _ => Alike.ite ?_ alike_identifier
    exact (alike_bracketed alike_identifier).bind fun _ => alike_pure _
  have hinitializer : Alike initializer initializer :=
    (alike_accept .assign).bind fun _ => alike_expression.ite (alike_pure _)
  refine alike_peek.bind fun _ => hdeclared.bind fun _ => hinitializer.bind fun _ => ?_
  exact (alike_spanFrom _).bind fun _ => alike_pure _

theorem alike_declaration : Alike declaration declaration :=
  alike_advance.bind fun _ => (alike_separated alike_declarator).bind fun _ =>
    (alike_spanFrom _).bind fun _ => alike_pure _

theorem alike_returning : Alike returning returning := by
  have hreturned : Alike returned returned :=
    (alike_isAtAny _).bind fun _ => (alike_pure _).ite alike_expression
  exact alike_advance.bind fun _ => hreturned.bind fun _ => alike_terminator.bind fun _ =>
    (alike_spanFrom _).bind fun _ => alike_pure _

theorem alike_single (node : Span → Node) : Alike (single node) (single node) :=
  alike_advance.bind fun _ => alike_terminator.bind fun _ => (alike_spanFrom _).bind fun _ =>
    alike_pure _

theorem alike_importing : Alike importing importing := by
  have hspecifier : Alike importSpecifier importSpecifier :=
    alike_identifier.bind fun _ => (alike_spanFrom _).bind fun _ => alike_pure _
  refine alike_advance.bind fun _ => (alike_expect .leftBrace).bind fun _ => ?_
  refine (alike_listUntil hspecifier .rightBrace).bind fun _ => ?_
  refine (alike_expect .rightBrace).bind fun _ => (alike_expect .fromWord).bind fun _ => ?_
  refine (alike_expect .string).bind fun _ => (alike_spanFrom _).bind fun _ => ?_
  exact alike_terminator.bind fun _ => (alike_spanFrom _).bind fun _ => alike_pure _

theorem alike_expressionStatement : Alike expressionStatement expressionStatement :=
  alike_expression.bind fun _ => alike_terminator.bind fun _ => (alike_spanFrom _).bind fun _ =>
    alike_pure _

theorem alike_condition : Alike Rule.condition Rule.condition :=
  (alike_expect .leftParen).bind fun _ => alike_expression.bind fun _ =>
    (alike_expect .rightParen).bind fun _ => alike_pure _

theorem alike_optional (close : TokenKind) : Alike (Rule.optional close) (Rule.optional close) :=
  (alike_isAt close).bind fun _ => (alike_pure _).ite alike_expression

/-- The rules of statements one level further in are alike. -/
structure InnerStatement.Alike (inner inner' : InnerStatement) : Prop where
  statement : Parser.Alike inner.statement inner'.statement
  ifElse : Parser.Alike inner.ifElse inner'.ifElse

section Rules

variable {inner inner' : InnerStatement} (h : inner.Alike inner')

include h

theorem alike_block : Alike (Rule.block inner) (Rule.block inner') := by
  refine (alike_expect .leftBrace).bind fun _ => ?_
  refine (alike_manyWhile h.statement (alike_isNotAtAny _)).bind fun _ => ?_
  exact (alike_expect .rightBrace).bind fun _ => (alike_spanFrom _).bind fun _ => alike_pure _

theorem alike_function : Alike (Rule.function inner) (Rule.function inner') := by
  refine alike_advance.bind fun _ => alike_identifier.bind fun _ => ?_
  refine (alike_expect .leftParen).bind fun _ => ?_
  refine (alike_separatedUntil alike_identifier .rightParen).bind fun _ => ?_
  refine (alike_expect .rightParen).bind fun _ => (alike_block h).bind fun _ => ?_
  exact (alike_spanFrom _).bind fun _ => alike_pure _

theorem alike_ifElse : Alike (Rule.ifElse inner) (Rule.ifElse inner') := by
  have halternate : Alike (Rule.alternate inner) (Rule.alternate inner') :=
    (alike_isAt .elseIfWord).bind fun _ => h.ifElse.ite
      ((alike_accept .elseWord).bind fun _ => h.statement.ite (alike_pure _))
  refine alike_advance.bind fun _ => alike_condition.bind fun _ => h.statement.bind fun _ => ?_
  exact halternate.bind fun _ => (alike_spanFrom _).bind fun _ => alike_pure _

theorem alike_whileLoop : Alike (Rule.whileLoop inner) (Rule.whileLoop inner') :=
  alike_advance.bind fun _ => alike_condition.bind fun _ => h.statement.bind fun _ =>
    (alike_spanFrom _).bind fun _ => alike_pure _

theorem alike_forLoop : Alike (Rule.forLoop inner) (Rule.forLoop inner') := by
  have hinitial : Alike Rule.initialPart Rule.initialPart :=
    (alike_isAtAny _).bind fun _ => alike_declaration.ite (alike_optional .semicolon)
  refine alike_advance.bind fun _ => (alike_expect .leftParen).bind fun _ => ?_
  refine hinitial.bind fun _ => (alike_expect .semicolon).bind fun _ => ?_
  refine (alike_optional .semicolon).bind fun _ => (alike_expect .semicolon).bind fun _ => ?_
  refine (alike_optional .rightParen).bind fun _ => (alike_expect .rightParen).bind fun _ => ?_
  exact h.statement.bind fun _ => (alike_spanFrom _).bind fun _ => alike_pure _

theorem alike_exporting : Alike (Rule.exporting inner) (Rule.exporting inner') :=
  alike_advance.bind fun _ => (alike_accept .defaultWord).bind fun _ => h.statement.bind fun _ =>
    (alike_spanFrom _).bind fun _ => alike_pure _

theorem alike_ruleStatement : Alike (Rule.statement inner) (Rule.statement inner') := by
  refine alike_peek.bind fun token => ?_
  cases token.kind with
  | letWord => exact alike_declaration.bind fun _ => alike_terminator.bind fun _ => alike_pure _
  | constWord => exact alike_declaration.bind fun _ => alike_terminator.bind fun _ => alike_pure _
  | functionWord => exact alike_function h
  | componentWord => exact alike_function h
  | leftBrace => exact alike_block h
  | ifWord => exact alike_ifElse h
  | whileWord => exact alike_whileLoop h
  | forWord => exact alike_forLoop h
  | returnWord => exact alike_returning
  | breakWord => exact alike_single _
  | continueWord => exact alike_single _
  | importWord => exact alike_importing
  | exportWord => exact alike_exporting h
  | _ => exact alike_expressionStatement

end Rules

theorem alike_innerStatement (budget budget' : List Token) :
    (innerStatement budget).Alike (innerStatement budget') := by
  induction budget generalizing budget' with
  | nil => exact ⟨alike_overrun _, alike_overrun _⟩
  | cons t budget ih =>
    have hcons : ∀ t' budget',
        (innerStatement (t :: budget)).Alike (innerStatement (t' :: budget')) := fun t' budget' =>
      ⟨alike_ruleStatement (ih budget'), alike_ifElse (ih budget')⟩
    cases budget' with
    | nil =>
      obtain ⟨hs, hi⟩ := hcons t []
      exact ⟨hs.overrun, hi.overrun⟩
    | cons t' budget' => exact hcons t' budget'

theorem alike_statement : Alike statement statement :=
  fun c => ⟨(alike_ruleStatement (alike_innerStatement c.budget c.budget) c).1,
    fun _ c' hs => (alike_ruleStatement (alike_innerStatement c.budget c'.budget) c).2 hs⟩

theorem alike_program : Alike program program :=
  alike_peek.bind fun _ => (alike_manyWhile alike_statement (alike_isNotAt .eof)).bind fun _ =>
    (alike_spanFrom _).bind fun _ => alike_pure _

end Parser

/-! ## Lists of tokens that begin alike -/

theorem Cursor.prefix_ofTokens (tokens : List Token) :
    tokens <+: (ofTokens tokens).ahead ++ [(ofTokens tokens).last] := by
  unfold ofTokens
  cases hl : tokens.getLast? with
  | none => simp [List.getLast?_eq_none_iff.mp hl]
  | some t =>
    obtain ⟨init, rfl⟩ := List.getLast?_eq_some_iff.mp hl
    by_cases h : t.kind = .eof
    · simp [h]
    · simp [h]

theorem Cursor.behind_ofTokens (tokens : List Token) : (ofTokens tokens).behind = [] := by
  unfold ofTokens
  split
  · rfl
  · split <;> rfl

/-- The tokens through the one that an error is about decide that there is this error, unless the
error is about a `<`. -/
theorem parse_error_of_shared {tokens list s : List Token} {e : ParseError} {t : Token}
    (h : parse tokens = .error e)
    (hindex : e.index (Parser.program (Cursor.ofTokens tokens)).2 = s.length) (ht : t.kind ≠ .less)
    (htokens : s ++ [t] <+: (Cursor.ofTokens tokens).ahead ++ [(Cursor.ofTokens tokens).last])
    (hlist : s ++ [t] <+: list) : parse list = .error e := by
  have hs : (Cursor.ofTokens tokens).Shares s.length (Cursor.ofTokens list) := by
    have htokens' := hlist.trans (Cursor.prefix_ofTokens list)
    refine ⟨by rw [Cursor.behind_ofTokens, Cursor.behind_ofTokens], s, t, ?_, ht, htokens, htokens'⟩
    unfold Cursor.position
    rw [Cursor.behind_ofTokens, List.length_nil, Nat.zero_add]
  have hrun : Parser.program (Cursor.ofTokens tokens) =
      (.error e, (Parser.program (Cursor.ofTokens tokens)).2) := Prod.ext h rfl
  rcases (Parser.alike_program (Cursor.ofTokens tokens)).2 hs with hlt | ha
  · rw [hrun] at hlt
    replace hlt : s.length < e.index (Parser.program (Cursor.ofTokens tokens)).2 := hlt
    omega
  · unfold parse
    rw [hrun] at ha
    generalize hq : Parser.program (Cursor.ofTokens list) = r at ha ⊢
    cases ha with
    | error => rfl
    | firstOverrun he => exact absurd he (parse_ne_overrun _ _ h)
    | secondOverrun he => exact absurd he (parse_ne_overrun list _ (by unfold parse; rw [hq]))

end HanScript
