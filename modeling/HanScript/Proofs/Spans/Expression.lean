-- Where the nodes of expressions and of markup lie: between the token at which
-- their rule begins and the one before which it ends.
import HanScript.Proofs.Parsing.Soundness.Expression
import HanScript.Proofs.Spans.Layout
import Mathlib.Data.List.Basic

namespace HanScript.Parser

/-! ## Names and literals -/

theorem identifier_places : Places identifier := by
  intro c n d h
  obtain ⟨x, hx, rfl⟩ := identifier_gives.mp h
  exact .ofToken hx (by simp) .done rfl (.inl rfl) trivial

theorem tagWord_places : Places tagWord := by
  intro c n d h
  obtain ⟨x, hx, rfl⟩ := tagWord_gives.mp h
  exact .ofToken hx (by simp) .done rfl (.inl rfl) trivial

/-- A step draws the span on from the first word, not from what has been read so far. -/
theorem tagStep_places {c d₁ d e : Cursor} {n n' : Node} {x : String}
    (hx : c.Passes [⟨.identifier, x⟩] d₁) (h : d₁.Precedes d ∧ Lies c n d)
    (hs : (tagStep (.tagName (d₁.spanFrom c.current.span) x) n).Gives d (some n') e) :
    d₁.Precedes e ∧ Lies c n' e := by
  obtain ⟨-, field, hf, rfl⟩ := tagStep_some.mp hs
  have hfield : Row d [field] e := .skip (Cursor.precedes_advance d) (tagWord_places hf).row
  have honward : d₁.Precedes e := h.1.trans hfield.precedes
  exact ⟨honward, .ofSpan hx honward (by simp) (h.2.cons hfield) (.onward .token honward) (.inl rfl)
    trivial⟩

theorem tagName_places : Places tagName := by
  intro c n e h
  rw [tagName_eq, bind_gives] at h
  obtain ⟨first, d, hf, h⟩ := h
  have hfirst := tagWord_places hf
  obtain ⟨x, hx, rfl⟩ := tagWord_gives.mp hf
  obtain ⟨d', ⟨-, hn⟩, hs⟩ := steps_keep (I := fun n d' => d.Precedes d' ∧ Lies c n d')
    (fun _ _ _ _ => tagStep_places hx) ⟨.refl d, hfirst⟩ h
  obtain ⟨-, rfl⟩ := tagStep_none.mp hs
  exact hn

/-- A node that is made of the current token. -/
theorem lies_of_current {c : Cursor} {n : Node} {kind : TokenKind} (hk : c.current.kind = kind)
    (he : kind ∉ [.eof, .leftParen]) (hrow : n.row = [])
    (hspan : n.span = c.advance.spanFrom c.current.span) (hs : n.isStatement = false)
    (hname : n.SharesName) : Lies c n c.advance := by
  simp only [List.mem_cons, List.not_mem_nil, or_false, not_or] at he
  refine .ofToken (Cursor.passes_kind hk he.1) he.2 ?_ hspan (.inl hs) hname
  rw [hrow]
  exact .done

theorem literal_lies {value : Value} {template : Bool} {c d : Cursor} {n : Node} {kind : TokenKind}
    (hk : c.current.kind = kind) (he : kind ∉ [.eof, .leftParen])
    (h : (literal value template).Gives c n d) : Lies c n d := by
  obtain ⟨rfl, rfl⟩ := literal_gives.mp h
  exact lies_of_current hk he rfl rfl rfl trivial

/-! ## Expressions -/

/-- What the rules one level further in give lies between where they begin and where they end. -/
structure Inner.Places (inner : Inner) : Prop where
  assignment : Parser.Places inner.assignment
  power : Parser.Places inner.power
  unary : Parser.Places inner.unary
  markup : Parser.Places inner.markup

section Rules

variable {inner : Inner} (h : inner.Places)

include h

theorem array_places : Places (Rule.array inner) := by
  intro c n e hn
  simp only [Rule.array, bind_gives, pure_gives] at hn
  obtain ⟨⟨s, ns⟩, _, hb, rfl, rfl⟩ := hn
  obtain ⟨d, t, ht, hk, hrow, rfl⟩ := bracketed_rows h.assignment.rows hb
  exact .ofToken ht (by simp [hk]) hrow rfl (.inl rfl) trivial

theorem property_places : Places (Rule.property inner) := by
  intro c n d hn
  simp (disch := decide) only [Rule.property, bind_gives, expect_gives, spanFrom_gives, pure_gives]
    at hn
  obtain ⟨key, _, hk, _, _, ⟨rfl, hc⟩, value, _, hv, _, _, ⟨rfl, rfl⟩, rfl, rfl⟩ := hn
  exact .ofNode (identifier_places hk) (.passed hc (h.assignment hv).row) rfl rfl (.inl rfl) trivial

theorem object_places : Places (Rule.object inner) := by
  intro c n d hn
  simp (disch := decide) only [Rule.object, bind_gives, expect_gives, spanFrom_gives, pure_gives]
    at hn
  obtain ⟨_, _, ⟨rfl, hl⟩, ns, _, hns, _, _, ⟨rfl, hr⟩, _, _, ⟨rfl, rfl⟩, rfl, rfl⟩ := hn
  have hrow : Row _ ns _ := listUntil_rows (property_places h).rows hns
  exact .ofToken hl (by simp) (hrow.onward ⟨_, hr⟩) rfl (.inl rfl) trivial

theorem arguments_rows : Rows (Rule.arguments inner) id := by
  intro c ns d hn
  simp (disch := decide) only [Rule.arguments, bind_gives, expect_gives, pure_gives] at hn
  obtain ⟨ns, _, hns, _, _, ⟨rfl, hr⟩, rfl, rfl⟩ := hn
  exact (separatedUntil_rows h.assignment.rows hns).onward ⟨_, hr⟩

/-! ### Markup -/

theorem container_places : Places (Rule.container inner) := by
  intro c n d hn
  simp (disch := decide) only [Rule.container, bind_gives, expect_gives, spanFrom_gives, pure_gives]
    at hn
  obtain ⟨_, _, ⟨rfl, hl⟩, e, _, he, _, _, ⟨rfl, hr⟩, _, _, ⟨rfl, rfl⟩, rfl, rfl⟩ := hn
  exact .ofToken hl (by simp) ((h.assignment he).row.onward ⟨_, hr⟩) rfl (.inl rfl) trivial

theorem givenValue_places {name : String} : Places (Rule.givenValue inner name) := by
  intro c n d hn
  simp only [Rule.givenValue, bind_gives, peek_gives] at hn
  obtain ⟨_, _, ⟨rfl, rfl⟩, hn⟩ := hn
  split at hn
  · rename_i hk
    exact literal_lies hk (by decide) hn
  · exact container_places h hn
  · exact absurd hn not_misfit_gives

theorem attributeValue_rows {name : String} : Rows (Rule.attributeValue inner name) ([·]) := by
  intro c n d hn
  simp only [Rule.attributeValue, bind_gives, accept_gives] at hn
  obtain ⟨_, _, ⟨rfl, -, rfl⟩ | ⟨rfl, -, rfl⟩, hn⟩ := hn
  · exact .skip (Cursor.precedes_advance c) (givenValue_places h hn).row
  · obtain ⟨rfl, rfl⟩ := pure_gives.mp hn
    exact .hole .done

theorem tagAttribute_places : Places (Rule.tagAttribute inner) := by
  intro c n d hn
  simp (disch := decide) only [Rule.tagAttribute, bind_gives, expect_gives, spanFrom_gives,
    pure_gives] at hn
  obtain ⟨_, d', ⟨rfl, hx⟩, _, _, ⟨rfl, rfl⟩, value, _, hv, _, _, ⟨rfl, rfl⟩, rfl, rfl⟩ := hn
  have hname : Lies c (.tagName (d'.spanFrom c.current.span) c.current.value) d' :=
    .ofToken hx (by simp) .done rfl (.inl rfl) trivial
  have hvalue := attributeValue_rows h hv
  exact .ofSpan hx hvalue.precedes (by simp) (hname.cons hvalue) .token (.inl rfl) trivial

theorem child_rows : Rows (Rule.child inner) Option.toList := by
  intro c o d ho
  simp only [Rule.child, bind_gives, peek_gives] at ho
  obtain ⟨_, _, ⟨rfl, rfl⟩, ho⟩ := ho
  split at ho
  · exact absurd ho not_misfit_gives
  · rename_i hk
    simp only [bind_gives, advance_gives, spanFrom_gives, pure_gives] at ho
    obtain ⟨_, _, ⟨rfl, rfl⟩, _, _, ⟨rfl, rfl⟩, rfl, rfl⟩ := ho
    exact Lies.row (lies_of_current hk (by decide) rfl rfl rfl trivial)
  · rename_i hk
    simp only [bind_gives, advance_gives, spanFrom_gives, pure_gives] at ho
    obtain ⟨_, _, ⟨rfl, rfl⟩, _, _, ⟨rfl, rfl⟩, rfl, rfl⟩ := ho
    exact Lies.row (lies_of_current hk (by decide) rfl rfl rfl trivial)
  · obtain ⟨n, hn, rfl⟩ := map_gives.mp ho
    exact (container_places h hn).row
  · obtain ⟨n, hn, rfl⟩ := map_gives.mp ho
    exact (h.markup hn).row
  · simp only [bind_gives, advance_gives, pure_gives] at ho
    obtain ⟨_, _, ⟨rfl, rfl⟩, rfl, rfl⟩ := ho
    exact .ended (Cursor.precedes_advance c)

theorem children_rows : Rows (Rule.children inner) id := by
  intro c ns d hn
  simp only [Rule.children, bind_gives, pure_gives] at hn
  obtain ⟨os, _, ho, rfl, rfl⟩ := hn
  have hrow := manyWhile_rows (child_rows h) ho
  rw [id, List.filterMap_eq_flatMap_toList]
  exact hrow

theorem markup_places : Places (Rule.markup inner) := by
  intro c n d hn
  simp (disch := decide) only [Rule.markup, bind_gives, expect_gives, accept_gives] at hn
  obtain ⟨_, d₁, ⟨rfl, hl⟩, _, _, ⟨rfl, hk, rfl⟩ | ⟨rfl, -, rfl⟩, hn⟩ := hn
  · simp only [if_true, bind_gives, spanFrom_gives, pure_gives] at hn
    obtain ⟨ns, d₂, hns, _, _, hf, _, _, ⟨rfl, rfl⟩, rfl, rfl⟩ := hn
    obtain ⟨w, hw, -⟩ := fragmentEnd_reads hf
    have hrow : Row d₁ ns d₂ := .skip (Cursor.precedes_advance d₁) (children_rows h hns)
    exact .ofToken hl (by simp) (hrow.onward ⟨w, hw⟩) rfl (.inl rfl) trivial
  · simp only [Bool.false_eq_true, if_false, bind_gives, accept_gives] at hn
    obtain ⟨name, d', hname, as, d₂, ha, _, _, hs, hn⟩ := hn
    have hattributes : Row d' as d₂ := by simpa using manyWhile_rows (tagAttribute_places h).rows ha
    have hhead := (tagName_places hname).cons hattributes
    rcases hs with ⟨rfl, -, rfl⟩ | ⟨rfl, -, rfl⟩
    · simp only [if_true, bind_gives, spanFrom_gives, pure_gives] at hn
      obtain ⟨_, _, ⟨rfl, rfl⟩, rfl, rfl⟩ := hn
      have hrow := hhead.onward (Cursor.precedes_advance d₂)
      exact .ofToken hl (by simp) (by simpa [Node.row] using hrow) rfl (.inl rfl) trivial
    · simp (disch := decide) only [Bool.false_eq_true, if_false, bind_gives, expect_gives,
        spanFrom_gives, pure_gives] at hn
      obtain ⟨_, _, ⟨rfl, hg⟩, ns, d₃, hns, _, _, ⟨rfl, hc⟩, close, _, hclose, _, _, ⟨rfl, hg'⟩, _, _,
        ⟨rfl, rfl⟩, rfl, rfl⟩ := hn
      have hchildren : Row d₂ ns d₃ := .passed hg (children_rows h hns)
      have htail := (tagName_places hclose).precedes.trans ⟨_, hg'⟩
      have hrow := hhead.append (hchildren.onward (Cursor.Precedes.trans ⟨_, hc⟩ htail))
      exact .ofToken hl (by simp) hrow rfl (.inl rfl) trivial

/-! ### Operators -/

theorem primary_places : Places (Rule.primary inner) := by
  intro c n d hn
  simp only [Rule.primary, bind_gives, peek_gives] at hn
  obtain ⟨_, _, ⟨rfl, rfl⟩, hn⟩ := hn
  split at hn
  case h_1 hk =>
    obtain ⟨rfl, k, -, rfl⟩ := numeral_gives.mp hn
    exact lies_of_current hk (by decide) rfl rfl rfl trivial
  case h_2 hk => exact literal_lies hk (by decide) hn
  case h_3 hk => exact literal_lies hk (by decide) hn
  case h_4 hk => exact literal_lies hk (by decide) hn
  case h_5 hk => exact literal_lies hk (by decide) hn
  case h_6 hk => exact literal_lies hk (by decide) hn
  case h_7 hk =>
    simp only [bind_gives, advance_gives, spanFrom_gives, pure_gives] at hn
    obtain ⟨_, _, ⟨rfl, rfl⟩, _, _, ⟨rfl, rfl⟩, rfl, rfl⟩ := hn
    exact lies_of_current hk (by decide) rfl rfl rfl trivial
  case h_8 => exact identifier_places hn
  case h_9 => exact array_places h hn
  case h_10 => exact object_places h hn
  case h_11 hk =>
    simp (disch := decide) only [bind_gives, advance_gives, expect_gives, pure_gives] at hn
    obtain ⟨_, _, ⟨rfl, rfl⟩, e, _, he, _, _, ⟨rfl, hr⟩, rfl, rfl⟩ := hn
    exact ((h.assignment he).onward ⟨_, hr⟩).parenthesized hk
  case h_12 =>
    simp only [Rule.opensMarkup, bind_gives, look_gives] at hn
    obtain ⟨_, _, ⟨rfl, rfl⟩, hn⟩ := hn
    split at hn
    · exact markup_places h hn
    · exact absurd hn not_misfit_gives

/-- What has been read so far is the first part of the next call or member. -/
theorem suffix_lies {c d e : Cursor} {n n' : Node} (hn : Lies c n d)
    (hs : (Rule.suffix inner n).Gives d (some n') e) : Lies c n' e := by
  have hstep := Cursor.precedes_advance d
  rcases suffix_some.mp hs with ⟨-, as, ha, rfl⟩ | ⟨-, f, hf, rfl⟩ | ⟨-, f, d₁, t, hf, ht, rfl⟩
  · exact .ofNode hn (.skip hstep (arguments_rows h ha)) rfl rfl (.inl rfl) trivial
  · exact .ofNode hn (.skip hstep (identifier_places hf).row) rfl rfl (.inl rfl) trivial
  · obtain ⟨rfl, hr⟩ := (expect_gives (by decide)).mp ht
    have hfield := (h.assignment hf).row.onward ⟨_, hr⟩
    exact .ofNode hn (.skip hstep hfield) rfl rfl (.inl rfl) trivial

theorem callMember_places : Places (Rule.callMember inner) := by
  intro c n e hn
  rw [Rule.callMember, bind_gives] at hn
  obtain ⟨owner, d, ho, hn⟩ := hn
  obtain ⟨d', hlies, hs⟩ := steps_keep (I := fun n d => Lies c n d)
    (fun _ _ _ _ => suffix_lies h) (primary_places h ho) hn
  obtain ⟨-, rfl⟩ := suffix_none.mp hs
  exact hlies

theorem unary_places : Places (Rule.unary inner) := by
  intro c n d hn
  simp only [Rule.unary, bind_gives, isAtAny_gives] at hn
  obtain ⟨_, _, ⟨rfl, rfl⟩, hn⟩ := hn
  split at hn
  · rename_i hk
    replace hk : c.current.kind ∈ [.minus, .plus, .logicalNot] := of_decide_eq_true hk
    simp only [bind_gives, advance_gives, spanFrom_gives, pure_gives] at hn
    obtain ⟨_, _, ⟨rfl, rfl⟩, a, _, ha, _, _, ⟨rfl, rfl⟩, rfl, rfl⟩ := hn
    have ho := Cursor.passes_current (fun he => absurd (he ▸ hk) (by decide))
    have hparen : c.current.kind ≠ .leftParen := fun he => absurd (he ▸ hk) (by decide)
    exact .ofToken ho hparen (h.unary ha).row rfl (.inl rfl) trivial
  · exact callMember_places h hn

theorem power_places : Places (Rule.power inner) := by
  intro c n d hn
  simp only [Rule.power, bind_gives, isAt_gives] at hn
  obtain ⟨left, d₁, hl, _, _, ⟨rfl, rfl⟩, hn⟩ := hn
  split at hn
  · simp only [bind_gives, advance_gives, spanFrom_gives, pure_gives] at hn
    obtain ⟨_, _, ⟨rfl, rfl⟩, right, _, hr, _, _, ⟨rfl, rfl⟩, rfl, rfl⟩ := hn
    have hright := Row.skip (Cursor.precedes_advance d₁) (h.power hr).row
    exact .ofNode (unary_places h hl) hright rfl rfl (.inl rfl) trivial
  · obtain ⟨rfl, rfl⟩ := pure_gives.mp hn
    exact unary_places h hl

omit h in
theorem leftChain_places {operators : List TokenKind} {operand : Parser Node}
    (ho : Places operand) : Places (Rule.leftChain operators operand) := by
  intro c n e hn
  rw [leftChain_eq, bind_gives] at hn
  obtain ⟨first, d, hf, hn⟩ := hn
  obtain ⟨d', hlies, hs⟩ := steps_keep (I := fun n d => Lies c n d)
    (fun left d n d' hleft hs => by
      obtain ⟨-, right, hr, rfl⟩ := chainStep_some.mp hs
      have hright := Row.skip (Cursor.precedes_advance d) (ho hr).row
      exact .ofNode hleft hright rfl rfl (.inl rfl) trivial) (ho hf) hn
  obtain ⟨-, rfl⟩ := chainStep_none.mp hs
  exact hlies

theorem logicalOr_places : Places (Rule.logicalOr inner) :=
  leftChain_places (leftChain_places (leftChain_places (leftChain_places (leftChain_places
    (leftChain_places (power_places h))))))

theorem conditional_places : Places (Rule.conditional inner) := by
  intro c n d hn
  simp only [Rule.conditional, bind_gives, accept_gives] at hn
  obtain ⟨test, d₁, ht, _, _, hk, hn⟩ := hn
  have htest := logicalOr_places h ht
  rcases hk with ⟨rfl, -, rfl⟩ | ⟨rfl, -, rfl⟩
  · simp (disch := decide) only [if_true, bind_gives, expect_gives, spanFrom_gives, pure_gives] at hn
    obtain ⟨a, _, ha, _, _, ⟨rfl, hc⟩, b, _, hb, _, _, ⟨rfl, rfl⟩, rfl, rfl⟩ := hn
    have hways := (h.assignment ha).cons (.passed hc (h.assignment hb).row)
    exact .ofNode htest (.skip (Cursor.precedes_advance d₁) hways) rfl rfl (.inl rfl) trivial
  · obtain ⟨rfl, rfl⟩ := pure_gives.mp hn
    exact htest

theorem assignment_places : Places (Rule.assignment inner) := by
  intro c n d hn
  simp only [Rule.assignment, bind_gives, isAtAny_gives] at hn
  obtain ⟨left, d₁, hl, _, _, ⟨rfl, rfl⟩, hn⟩ := hn
  split at hn
  · simp only [bind_gives, advance_gives, spanFrom_gives, pure_gives] at hn
    obtain ⟨_, _, ⟨rfl, rfl⟩, right, _, hr, _, _, ⟨rfl, rfl⟩, rfl, rfl⟩ := hn
    have hright := Row.skip (Cursor.precedes_advance d₁) (h.assignment hr).row
    exact .ofNode (conditional_places h hl) hright rfl rfl (.inl rfl) trivial
  · obtain ⟨rfl, rfl⟩ := pure_gives.mp hn
    exact conditional_places h hl

end Rules

theorem places_inner (budget : List Token) : (inner budget).Places := by
  induction budget with
  | nil =>
    exact ⟨fun _ _ _ h => absurd h not_misfit_gives, fun _ _ _ h => absurd h not_misfit_gives,
      fun _ _ _ h => absurd h not_misfit_gives, fun _ _ _ h => absurd h not_misfit_gives⟩
  | cons t budget ih =>
    rw [inner]
    exact ⟨assignment_places ih, power_places ih, unary_places ih, markup_places ih⟩

theorem expression_places : Places expression := by
  intro c n d h
  rw [expression_gives] at h
  exact assignment_places (places_inner c.budget) h

end HanScript.Parser
