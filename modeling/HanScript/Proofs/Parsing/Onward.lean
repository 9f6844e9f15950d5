-- A parser that is asked for one thing after the other, whatever has failed
-- before. It goes through the tokens once, from the first one to the first end
-- token, and every rule comes to an end from wherever it is asked for.
import HanScript.Parser.Call
import HanScript.Proofs.Parsing.Abreast
import HanScript.Proofs.Parsing.Earliest

namespace HanScript

namespace Parser

variable {α β : Type}

/-! ## Single rules -/

/-- From the cursor the parser goes on without passing an end token, and it does not run out of
steps or levels. If it succeeds, it has taken a token, unless the cursor was at the end. -/
structure MovesOn (p : Parser α) (c : Cursor) : Prop where
  precedes : c.Precedes (p c).2
  ends : Ends p c fun _ d => c.current.kind ≠ .eof → d.left < c.left

theorem map_snd (f : α → β) (p : Parser α) (c : Cursor) : ((f <$> p) c).2 = (p c).2 := by
  change ((p >>= fun a => pure (f a)) c).2 = (p c).2
  cases hr : p c with
  | mk r d =>
    cases r with
    | ok a =>
      rw [bind_of_ok hr]
      rfl
    | error e => rw [bind_of_error hr]

theorem MovesOn.map {p : Parser α} {c : Cursor} (f : α → β) (h : MovesOn p c) :
    MovesOn (f <$> p) c := by
  have hends : Ends (f <$> p) c fun _ d => c.current.kind ≠ .eof → d.left < c.left :=
    h.ends.bind fun a d hd => hd
  refine ⟨?_, hends⟩
  rw [map_snd]
  exact h.precedes

theorem Takes.movesOn {p : Parser α} (h : ∀ n, Takes n p) (hs : InStep unseen p p) (c : Cursor) :
    MovesOn p c :=
  ⟨hs.precedes c, (h c.left c (Nat.le_refl _)).mono fun _ _ hd _ => hd⟩

/-- A rule of expressions that takes a token. -/
theorem movesOn_nested {rule : Inner → Parser α}
    (h : ∀ {n : Nat} {i : Inner}, Below n i → Takes n (rule i))
    (hs : ∀ {i i' : Inner}, i.InStep i' → InStep unseen (rule i) (rule i')) (c : Cursor) :
    MovesOn (nested rule) c := Takes.movesOn (takes_nested h) (inStep_nested hs) c

/-- A rule of statements that takes a token. -/
theorem movesOn_nestedStatement {rule : InnerStatement → Parser Node}
    (h : ∀ {n : Nat} {i : InnerStatement}, BelowStatement n i → Takes n (rule i))
    (hs : ∀ {i i' : InnerStatement}, i.InStep i' → InStep unseen (rule i) (rule i')) (c : Cursor) :
    MovesOn (nestedStatement rule) c :=
  Takes.movesOn (takes_nestedStatement h) (inStep_nestedStatement hs) c

/-- A rule that takes nothing at the end of the tokens. -/
theorem Ends.unlessAtEnd {p : Parser α} {c : Cursor} (hk : Ends p c fun _ d => d.left ≤ c.left)
    (ht : c.current.kind ≠ .eof → Ends p c fun _ d => d.left < c.left) :
    Ends p c fun _ d => c.current.kind ≠ .eof → d.left < c.left := by
  by_cases h : c.current.kind = .eof
  · exact hk.mono fun _ _ _ hne => absurd h hne
  · exact (ht h).mono fun _ _ hd _ => hd

theorem movesOn_returning (c : Cursor) : MovesOn returning c := by
  refine ⟨inStep_returning.precedes c, Ends.unlessAtEnd ?_ ends_returning⟩
  have hkeeps : Keeps c.left returning :=
    (keeps_advance _).bind fun _ => (keeps_returned _).bind fun _ =>
      (keeps_terminator _).bind fun _ => keeps_spanned _ _ _
  exact hkeeps c (Nat.le_refl _)

theorem movesOn_exporting (c : Cursor) : MovesOn (nestedStatement Rule.exporting) c := by
  have hbelow := below_innerStatement c.budget
  have hkeeps : Keeps c.left (Rule.exporting (innerStatement c.budget)) :=
    (keeps_advance _).bind fun _ => (keeps_accept _ _).bind fun _ =>
      (hbelow.statement c.left (Nat.lt_succ_self _)).keeps.bind fun _ => keeps_spanned _ _ _
  have hends := Ends.unlessAtEnd (hkeeps c (Nat.le_refl _))
    (ends_exporting hbelow (Nat.le_succ c.left))
  refine ⟨(inStep_nestedStatement inStep_exporting).precedes c, hends.congr ?_⟩
  rfl

/-- A program ends where the tokens end, so it has taken all of them. -/
theorem movesOn_program (c : Cursor) : MovesOn program c := by
  refine ⟨inStep_program.precedes c, ?_⟩
  have hkeeps := keeps_program c.left c (Nat.le_refl _)
  unfold Ends at hkeeps ⊢
  split
  · rename_i n d hp
    intro hc
    obtain ⟨hd, w, hw, -⟩ := program_reads hp
    refine hw.left_lt ?_
    rintro rfl
    rw [Cursor.passes_nil.mp hw] at hd
    exact hc hd
  · rename_i e d hp
    rw [hp] at hkeeps
    exact hkeeps

theorem movesOn_arguments (c : Cursor) : MovesOn (nested Rule.arguments) c := by
  have hends := takes_arguments (below_inner c.budget) (Nat.lt_succ_self c.left) c (Nat.le_refl _)
  refine ⟨(inStep_nested inStep_arguments).precedes c, Ends.congr ?_ (hends.mono fun _ _ hd _ => hd)⟩
  rfl

/-- What stands between tags may be nothing, and then nothing is taken. -/
theorem ends_children (c : Cursor) :
    Ends (nested Rule.children) c fun _ d => d.left ≤ c.left := by
  refine Ends.congr ?_
    (keeps_children (below_inner c.budget) (Nat.lt_succ_self c.left) c (Nat.le_refl _))
  rfl

/-- Every rule that can be asked for on its own moves on, apart from the one for what stands
between tags. -/
theorem movesOn_goal {goal : Goal} (h : goal ≠ .children) (c : Cursor) : MovesOn goal.parser c := by
  cases goal with
  | program => exact (movesOn_program c).map _
  | statement => exact (movesOn_nestedStatement takes_ruleStatement inStep_ruleStatement c).map _
  | declaration => exact (Takes.movesOn takes_declaration inStep_declaration c).map _
  | declarator => exact (Takes.movesOn takes_declarator inStep_declarator c).map _
  | arrayPattern => exact (Takes.movesOn takes_arrayPattern inStep_arrayPattern c).map _
  | function => exact (movesOn_nestedStatement takes_function inStep_function c).map _
  | block => exact (movesOn_nestedStatement takes_block inStep_block c).map _
  | ifElse => exact (movesOn_nestedStatement takes_ifElse inStep_ifElse c).map _
  | whileLoop => exact (movesOn_nestedStatement takes_whileLoop inStep_whileLoop c).map _
  | forLoop => exact (movesOn_nestedStatement takes_forLoop inStep_forLoop c).map _
  | returning => exact (movesOn_returning c).map _
  | importing => exact (Takes.movesOn takes_importing inStep_importing c).map _
  | exporting => exact (movesOn_exporting c).map _
  | expressionStatement =>
    exact (Takes.movesOn takes_expressionStatement inStep_expressionStatement c).map _
  | expression => exact (movesOn_nested takes_assignment inStep_assignment c).map _
  | assignment => exact (movesOn_nested takes_assignment inStep_assignment c).map _
  | conditional => exact (movesOn_nested takes_conditional inStep_conditional c).map _
  | logicalOr => exact (movesOn_nested takes_logicalOr inStep_logicalOr c).map _
  | logicalAnd => exact (movesOn_nested takes_logicalAnd inStep_logicalAnd c).map _
  | equality => exact (movesOn_nested takes_equality inStep_equality c).map _
  | relational => exact (movesOn_nested takes_relational inStep_relational c).map _
  | additive => exact (movesOn_nested takes_additive inStep_additive c).map _
  | multiplicative => exact (movesOn_nested takes_multiplicative inStep_multiplicative c).map _
  | power => exact (movesOn_nested takes_power inStep_power c).map _
  | unary => exact (movesOn_nested takes_unary inStep_unary c).map _
  | callMember => exact (movesOn_nested takes_callMember inStep_callMember c).map _
  | arguments => exact (movesOn_arguments c).map _
  | primary => exact (movesOn_nested takes_primary inStep_primary c).map _
  | identifier => exact (Takes.movesOn takes_identifier inStep_identifier c).map _
  | array => exact (movesOn_nested takes_array inStep_array c).map _
  | object => exact (movesOn_nested takes_object inStep_object c).map _
  | markup => exact (movesOn_nested takes_markup inStep_markup c).map _
  | tagName => exact (Takes.movesOn takes_tagName inStep_tagName c).map _
  | tagAttribute => exact (movesOn_nested takes_tagAttribute inStep_tagAttribute c).map _
  | container => exact (movesOn_nested takes_container inStep_container c).map _
  | children => exact absurd rfl h

theorem ends_goal (goal : Goal) (c : Cursor) :
    Ends goal.parser c fun _ d => goal ≠ .children → c.current.kind ≠ .eof → d.left < c.left := by
  by_cases h : goal = .children
  · rw [h]
    have hends : Ends (Yield.nodes <$> nested Rule.children) c fun _ d => d.left ≤ c.left :=
      (ends_children c).bind fun _ _ hd => hd
    exact hends.mono fun _ _ _ hne => absurd rfl hne
  · exact (movesOn_goal h c).ends.mono fun _ _ hd _ => hd

/-! ## Calls one after the other -/

theorem precedes_goal (goal : Goal) (c : Cursor) : c.Precedes (goal.parser c).2 := by
  by_cases h : goal = .children
  · rw [h]
    unfold Goal.parser
    rw [map_snd]
    exact (inStep_nested inStep_children).precedes c
  · exact (movesOn_goal h c).precedes

/-- No call goes back nor past an end token, whether it succeeds or fails. -/
theorem precedes_call (call : Call) (c : Cursor) : c.Precedes (call.parser c).2 := by
  cases call with
  | advance => exact c.precedes_advance
  | accept kinds =>
    unfold Call.parser accept?
    rw [map_snd]
    change c.Precedes ((if decide (c.current.kind ∈ kinds) then _ else _ : Parser _) c).2
    split
    · exact c.precedes_advance
    · exact .refl c
  | expect kind =>
    unfold Call.parser expect
    rw [map_snd]
    change c.Precedes ((if c.current.kind = kind then _ else _ : Parser _) c).2
    split
    · exact c.precedes_advance
    · exact .refl c
  | terminator =>
    unfold Call.parser
    rw [map_snd]
    exact inStep_terminator.precedes c
  | numberOf token =>
    unfold Call.parser
    rw [map_snd]
    exact (inStep_numberOf rfl).precedes c
  | rule goal =>
    unfold Call.parser
    rw [map_snd]
    exact precedes_goal goal c
  | _ => exact .refl c

end Parser

namespace Cursor

theorem precedes_afterCalls (c : Cursor) (calls : List Parser.Call) :
    c.Precedes (c.afterCalls calls) := by
  induction calls generalizing c with
  | nil => exact .refl c
  | cons call calls ih => exact (Parser.precedes_call call c).trans (ih _)

theorem Passes.position {c d : Cursor} {w : List Terminal} (h : c.Passes w d) :
    d.position = c.position + w.length := by
  obtain ⟨-, ts, hb, rfl, -⟩ := h.tokens
  have hlength := congrArg List.length hb
  simpa [Cursor.position] using hlength

theorem Precedes.position_le {c d : Cursor} (h : c.Precedes d) : c.position ≤ d.position := by
  obtain ⟨w, hw⟩ := h
  have := hw.position
  omega

/-- Fewer tokens are ahead exactly as far as the cursor has gone. -/
theorem Precedes.position_lt {c d : Cursor} (h : c.Precedes d) (hlt : d.left < c.left) :
    c.position < d.position := by
  obtain ⟨w, hw⟩ := h
  have := hw.position
  have := hw.left
  omega

end Cursor

/-- Whatever has been asked of a parser before, and whether that has succeeded or failed: the cursor
is at one of the tokens, with no end token behind it, and more calls never take it back. Every rule
that is asked for there succeeds or fails with an error, and that error is no overrun: none of its
loops turns more often than there are tokens from where the loop begins. If it succeeds before the
end, it has taken a token, unless it is the rule for what stands between tags. -/
theorem parser_moves_on_and_stops (tokens : List Token) (calls : List Parser.Call) :
    let c := (Cursor.ofTokens tokens).afterCalls calls
    ((withEnd tokens)[c.position]? = some c.current ∧
      ∀ t ∈ (withEnd tokens).take c.position, t.kind ≠ .eof) ∧
    (∀ more, c.position ≤ (c.afterCalls more).position) ∧
    ∀ goal : Parser.Goal,
      (∃ y d, goal.parser c = (.ok y, d) ∧
        (goal ≠ .children → c.current.kind ≠ .eof → c.position < d.position)) ∨
      ∃ e d, goal.parser c = (.error e, d) ∧ e.misfit ≠ .overrun := by
  intro c
  obtain ⟨w, hw⟩ := (Cursor.ofTokens tokens).precedes_afterCalls calls
  obtain ⟨htokens, ts, hbehind, -, hts⟩ := hw.tokens
  rw [Cursor.tokens_ofTokens] at htokens
  rw [Cursor.behind_ofTokens, List.reverse_nil, List.nil_append] at hbehind
  refine ⟨⟨?_, ?_⟩, fun more => (c.precedes_afterCalls more).position_le, fun goal => ?_⟩
  · rw [← htokens]
    exact c.getElem?_position
  · rw [← htokens, c.take_position, hbehind]
    exact hts
  · have hprecedes := Parser.precedes_goal goal c
    have hends := Parser.ends_goal goal c
    unfold Parser.Ends at hends
    cases hr : goal.parser c with
    | mk r d =>
      rw [hr] at hprecedes hends
      cases r with
      | ok y => exact .inl ⟨y, d, rfl, fun hg hc => hprecedes.position_lt (hends hg hc)⟩
      | error e => exact .inr ⟨e, d, rfl, hends⟩

/-- Nothing stands between tags where the closing one comes at once. -/
example : Parser.Goal.children.parser (.ofTokens [⟨.closeTag, "</", {}⟩]) =
    (.ok (.nodes []), .ofTokens [⟨.closeTag, "</", {}⟩]) := rfl

end HanScript
