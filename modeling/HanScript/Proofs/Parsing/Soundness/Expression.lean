-- What the rules of expressions and of markup take is what the grammar says:
-- the tokens that a rule has moved past form the bare tree of its result.
import HanScript.Proofs.Grammar.Statement
import HanScript.Proofs.Parsing.Soundness.Lists

namespace HanScript.Parser

open Grammar

/-! ## Names -/

theorem identifier_forms : Forms identifier Word := by
  intro c n d h
  obtain ⟨x, hp, rfl⟩ := identifier_gives.mp h
  exact ⟨_, hp, .mk⟩

/-- A step adds one word to the name that has been read so far. -/
theorem tagStep_forms {first n n' : Node} {c d e : Cursor}
    (h : ∃ w, c.Passes w d ∧ TagName w n.bare) (hs : (tagStep first n).Gives d (some n') e) :
    ∃ w, c.Passes w e ∧ TagName w n'.bare := by
  obtain ⟨w, hw, hn⟩ := h
  obtain ⟨hk, field, hf, rfl⟩ := tagStep_some.mp hs
  obtain ⟨y, hy, rfl⟩ := tagWord_gives.mp hf
  have hp := Cursor.passes_kind hk (by decide)
  exact ⟨_, hw.append (hp.cons hy), .member hn⟩

theorem tagName_forms : Forms tagName TagName := by
  intro c n e h
  rw [tagName_eq, bind_gives] at h
  obtain ⟨first, d, hf, h⟩ := h
  obtain ⟨x, hx, rfl⟩ := tagWord_gives.mp hf
  obtain ⟨d', ⟨w, hw, hn⟩, hs⟩ := steps_keep
    (I := fun n d => ∃ w, c.Passes w d ∧ TagName w n.bare) (fun _ _ _ _ => tagStep_forms)
    ⟨_, hx, .word⟩ h
  obtain ⟨-, rfl⟩ := tagStep_none.mp hs
  exact ⟨w, hw, hn⟩

/-! ## Expressions -/

/-- The rules one level further in read what the grammar says, and an assignment is read to
its end. -/
structure Inner.Sound (inner : Inner) : Prop where
  assignment : Forms inner.assignment (Phrase (.expression .assignment))
  ended : ∀ ⦃c n d⦄, inner.assignment.Gives c n d → d.current.kind ∉ assignmentOperators
  power : Forms inner.power (Phrase (.expression .power))
  unary : Forms inner.unary (Phrase (.expression .unary))
  markup : Forms inner.markup (Phrase .markup)

section Rules

variable {inner : Inner} (sound : inner.Sound)

include sound

theorem array_forms : Forms (Rule.array inner) (Phrase (.expression .primary)) := by
  intro c n d h
  simp only [Rule.array, bind_gives, pure_gives] at h
  obtain ⟨⟨span, qs⟩, d', hb, rfl, rfl⟩ := h
  obtain ⟨_, hw, v, x, y, rfl, hs⟩ := bracketed_reads sound.assignment hb
  exact ⟨_, hw, by simpa [Node.bare] using Phrase.array hs⟩

theorem property_forms : Forms (Rule.property inner) (Phrase .property) := by
  intro c n d h
  simp (disch := decide) only [Rule.property, bind_gives, identifier_gives, expect_gives,
    spanFrom_gives, pure_gives] at h
  obtain ⟨_, _, ⟨x, hx, rfl⟩, _, _, ⟨rfl, hc⟩, value, _, hv, _, _, ⟨rfl, rfl⟩, rfl, rfl⟩ := h
  obtain ⟨w, hw, hp⟩ := sound.assignment hv
  exact ⟨_, hx.cons (hc.cons hw), .property hp⟩

theorem object_forms : Forms (Rule.object inner) (Phrase (.expression .primary)) := by
  intro c n d h
  simp (disch := decide) only [Rule.object, bind_gives, expect_gives, spanFrom_gives, pure_gives]
    at h
  obtain ⟨_, _, ⟨rfl, hl⟩, qs, _, hq, _, _, ⟨rfl, hr⟩, _, _, ⟨rfl, rfl⟩, rfl, rfl⟩ := h
  obtain ⟨w, hw, hp⟩ := listUntil_reads (property_forms sound) hq
  exact ⟨_, hl.cons (hw.append hr), by simpa [Node.bare] using Phrase.object hp⟩

theorem arguments_reads : Reads (Rule.arguments inner) fun _ w ns => ∃ v y,
    w = v ++ [⟨.rightParen, y⟩] ∧
      SeparatedOrNone (Phrase (.expression .assignment)) v (ns.map Node.bare) := by
  intro c qs d h
  simp (disch := decide) only [Rule.arguments, bind_gives, expect_gives, pure_gives] at h
  obtain ⟨qs, _, hq, _, _, ⟨rfl, hr⟩, rfl, rfl⟩ := h
  obtain ⟨w, hw, hs⟩ := separatedUntil_reads sound.assignment hq
  exact ⟨_, hw.append hr, w, _, rfl, hs⟩

/-! ### Markup -/

theorem container_forms : Forms (Rule.container inner) (Phrase .container) := by
  intro c n d h
  simp (disch := decide) only [Rule.container, bind_gives, expect_gives, spanFrom_gives, pure_gives]
    at h
  obtain ⟨_, _, ⟨rfl, hl⟩, e, _, he, _, _, ⟨rfl, hr⟩, _, _, ⟨rfl, rfl⟩, rfl, rfl⟩ := h
  obtain ⟨w, hw, hp⟩ := sound.assignment he
  exact ⟨_, hl.cons (hw.append hr), .container hp⟩

theorem givenValue_reads {name : String} : Reads (Rule.givenValue inner name) fun _ w v =>
    (∃ z, w = [⟨.string, z⟩] ∧ v.bare = .literal {} (.text z) z false) ∨
      Phrase .container w v.bare := by
  intro c v d h
  simp only [Rule.givenValue, bind_gives, peek_gives] at h
  obtain ⟨_, _, ⟨rfl, rfl⟩, h⟩ := h
  split at h
  · rename_i hk
    obtain ⟨rfl, rfl⟩ := literal_gives.mp h
    exact ⟨_, Cursor.passes_kind hk (by decide), .inl ⟨_, rfl, rfl⟩⟩
  · obtain ⟨w, hw, hp⟩ := container_forms sound h
    exact ⟨w, hw, .inr hp⟩
  · exact absurd h not_misfit_gives

theorem tagAttribute_forms : Forms (Rule.tagAttribute inner) (Phrase .tagAttribute) := by
  intro c n d h
  simp (disch := decide) only [Rule.tagAttribute, Rule.attributeValue, bind_gives, expect_gives,
    accept_gives, spanFrom_gives, pure_gives] at h
  obtain ⟨_, _, ⟨rfl, hx⟩, _, _, ⟨rfl, rfl⟩, v, _,
    ⟨_, _, ⟨rfl, hk, rfl⟩ | ⟨rfl, -, rfl⟩, hv⟩, _, _, ⟨rfl, rfl⟩, rfl, rfl⟩ := h
  · have ha := Cursor.passes_kind hk (by decide)
    rcases givenValue_reads sound hv with ⟨_, hw, ⟨z, rfl, hz⟩ | hp⟩
    · refine ⟨_, hx.cons (ha.cons hw), ?_⟩
      simpa [Node.bare, hz] using Phrase.textAttribute
    · exact ⟨_, hx.cons (ha.cons hw), .givenAttribute hp⟩
  · obtain ⟨rfl, rfl⟩ := pure_gives.mp hv
    exact ⟨_, hx, .bareAttribute⟩

theorem child_reads {c d : Cursor} {o : Option Node} (hin : c.current.kind ≠ .closeTag)
    (h : (Rule.child inner).Gives c o d) :
    ∃ w, c.Passes w d ∧ Skipping (Phrase .child) d.current.kind w (o.map Node.bare) := by
  simp only [Rule.child, bind_gives, peek_gives] at h
  obtain ⟨_, _, ⟨rfl, rfl⟩, h⟩ := h
  split at h
  · exact absurd h not_misfit_gives
  · rename_i hk
    simp only [bind_gives, advance_gives, spanFrom_gives, pure_gives] at h
    obtain ⟨_, _, ⟨rfl, rfl⟩, _, _, ⟨rfl, rfl⟩, rfl, rfl⟩ := h
    exact ⟨_, Cursor.passes_kind hk (by decide), .wordChild⟩
  · rename_i hk
    simp only [bind_gives, advance_gives, spanFrom_gives, pure_gives] at h
    obtain ⟨_, _, ⟨rfl, rfl⟩, _, _, ⟨rfl, rfl⟩, rfl, rfl⟩ := h
    exact ⟨_, Cursor.passes_kind hk (by decide), .textChild⟩
  · obtain ⟨q, hq, rfl⟩ := map_gives.mp h
    obtain ⟨w, hw, hp⟩ := container_forms sound hq
    exact ⟨w, hw, .givenChild hp⟩
  · obtain ⟨q, hq, rfl⟩ := map_gives.mp h
    obtain ⟨w, hw, hp⟩ := sound.markup hq
    exact ⟨w, hw, .nestedChild hp⟩
  · rename_i he hi hs hb hl
    simp only [bind_gives, advance_gives, pure_gives] at h
    obtain ⟨_, _, ⟨rfl, rfl⟩, rfl, rfl⟩ := h
    refine ⟨_, Cursor.passes_current he, _, rfl, ?_⟩
    simpa [markupKinds, hin] using ⟨hi, hs, hb, hl, he⟩

/-- Where the children end, something closes the markup. -/
theorem children_reads {c d : Cursor} {qs : List Node} (h : (Rule.children inner).Gives c qs d) :
    ∃ w, c.Passes w d ∧ Interspersed (Phrase .child) w (qs.map Node.bare) ∧
      (d.current.kind = .closeTag ∨ Rule.isFragmentEnd d = true) := by
  simp only [Rule.children, bind_gives, pure_gives] at h
  obtain ⟨os, _, ho, rfl, rfl⟩ := h
  obtain ⟨w, hw, hs, hd⟩ := manyWhile_reads
    (G := fun k w o => Skipping (Phrase .child) k w (o.map Node.bare)) (fun c o d hm ho => by
    simp only [Bool.and_eq_true, decide_eq_true_eq] at hm
    exact child_reads sound hm.1 ho) ho
  refine ⟨w, hw, (interspersed_iff_sequence _).mpr ⟨_, sequence_map hs, ?_⟩, ?_⟩
  · simp [List.filterMap_map, List.map_filterMap]
  · simpa [Classical.or_iff_not_imp_left] using hd

omit sound in
theorem fragmentEnd_reads : Reads Rule.fragmentEnd fun _ w _ => ∃ x y,
    w = [⟨.less, x⟩, ⟨.selfClose, y⟩] ∨ w = [⟨.closeTag, x⟩, ⟨.greater, y⟩] := by
  intro c u e h
  simp only [Rule.fragmentEnd, Rule.closesFragment, bind_gives, look_gives] at h
  obtain ⟨_, _, ⟨rfl, rfl⟩, h⟩ := h
  split at h
  · rename_i hc
    simp only [Rule.isFragmentEnd, Bool.and_eq_true, decide_eq_true_eq] at hc
    simp only [bind_gives, advance_gives, pure_gives] at h
    obtain ⟨_, _, ⟨rfl, rfl⟩, _, _, ⟨rfl, rfl⟩, -, rfl⟩ := h
    have hl := Cursor.passes_kind hc.1 (by decide)
    have hs : c.advance.current.kind = .selfClose := by
      rw [← Cursor.next_eq_current_advance (by simp [hc.1])]
      exact hc.2
    exact ⟨_, hl.cons (Cursor.passes_kind hs (by decide)), _, _, .inl rfl⟩
  · simp (disch := decide) only [bind_gives, expect_gives, pure_gives] at h
    obtain ⟨_, _, ⟨rfl, hc⟩, _, _, ⟨rfl, hg⟩, -, rfl⟩ := h
    exact ⟨_, hc.cons hg, _, _, .inr rfl⟩

theorem markup_forms : Forms (Rule.markup inner) (Phrase .markup) := by
  intro c n d h
  simp (disch := decide) only [Rule.markup, bind_gives, expect_gives, accept_gives] at h
  obtain ⟨_, _, ⟨rfl, hl⟩, _, _, ⟨rfl, hk, rfl⟩ | ⟨rfl, -, rfl⟩, h⟩ := h
  · simp only [if_true, bind_gives, spanFrom_gives, pure_gives] at h
    obtain ⟨qs, _, hq, _, _, hf, _, _, ⟨rfl, rfl⟩, rfl, rfl⟩ := h
    have hg := Cursor.passes_kind hk (by decide)
    obtain ⟨w, hw, hi, -⟩ := children_reads sound hq
    obtain ⟨_, hv, x, y, rfl | rfl⟩ := fragmentEnd_reads hf
    · exact ⟨_, hl.cons (hg.cons (hw.append hv)), by simpa [Node.bare] using Phrase.fragment hi⟩
    · exact ⟨_, hl.cons (hg.cons (hw.append hv)),
        by simpa [Node.bare] using Phrase.taggedFragment hi⟩
  · simp only [Bool.false_eq_true, if_false, bind_gives, accept_gives] at h
    obtain ⟨name, _, hn, as, _, ha, _, _, hs, h⟩ := h
    obtain ⟨w, hw, hname⟩ := tagName_forms hn
    obtain ⟨v, hv, has, -⟩ := manyWhile_reads (G := fun _ w q => Phrase .tagAttribute w q.bare)
      (fun c q d _ hq => tagAttribute_forms sound hq) ha
    replace has : Sequence (fun _ => Phrase .tagAttribute) _ v _ := sequence_map has
    rcases hs with ⟨rfl, hk, rfl⟩ | ⟨rfl, -, rfl⟩
    · simp only [if_true, bind_gives, spanFrom_gives, pure_gives] at h
      obtain ⟨_, _, ⟨rfl, rfl⟩, rfl, rfl⟩ := h
      rw [hk] at has
      refine ⟨_, hl.cons (hw.append (hv.append (Cursor.passes_kind hk (by decide)))), ?_⟩
      simpa [Node.bare] using Phrase.closedElement hname has
    · simp (disch := decide) only [Bool.false_eq_true, if_false, bind_gives, expect_gives,
        spanFrom_gives, pure_gives] at h
      obtain ⟨_, _, ⟨rfl, hg⟩, qs, _, hq, _, _, ⟨rfl, hc⟩, close, _, ht, _, _, ⟨rfl, hg'⟩, _, _,
        ⟨rfl, rfl⟩, rfl, rfl⟩ := h
      obtain ⟨u, hu, hi, -⟩ := children_reads sound hq
      obtain ⟨t, ht, hclose⟩ := tagName_forms ht
      rw [hg.kind] at has
      refine ⟨_, hl.cons (hw.append (hv.append (hg.cons (hu.append (hc.cons (ht.append hg')))))), ?_⟩
      simpa [Node.bare] using Phrase.openElement hname has hi hclose

/-! ### Operators -/

theorem primary_forms : Forms (Rule.primary inner) (Phrase (.expression .primary)) := by
  intro c n d h
  simp only [Rule.primary, bind_gives, peek_gives] at h
  obtain ⟨_, _, ⟨rfl, rfl⟩, h⟩ := h
  split at h
  case h_1 hk =>
    obtain ⟨rfl, k, hv, rfl⟩ := numeral_gives.mp h
    exact ⟨_, Cursor.passes_kind hk (by decide), .number hv⟩
  case h_2 hk =>
    obtain ⟨rfl, rfl⟩ := literal_gives.mp h
    exact ⟨_, Cursor.passes_kind hk (by decide), .string⟩
  case h_3 hk =>
    obtain ⟨rfl, rfl⟩ := literal_gives.mp h
    exact ⟨_, Cursor.passes_kind hk (by decide), .template⟩
  case h_4 hk =>
    obtain ⟨rfl, rfl⟩ := literal_gives.mp h
    exact ⟨_, Cursor.passes_kind hk (by decide), .trueWord⟩
  case h_5 hk =>
    obtain ⟨rfl, rfl⟩ := literal_gives.mp h
    exact ⟨_, Cursor.passes_kind hk (by decide), .falseWord⟩
  case h_6 hk =>
    obtain ⟨rfl, rfl⟩ := literal_gives.mp h
    exact ⟨_, Cursor.passes_kind hk (by decide), .nullWord⟩
  case h_7 hk =>
    simp only [bind_gives, advance_gives, spanFrom_gives, pure_gives] at h
    obtain ⟨_, _, ⟨rfl, rfl⟩, _, _, ⟨rfl, rfl⟩, rfl, rfl⟩ := h
    exact ⟨_, Cursor.passes_kind hk (by decide), .undefinedWord⟩
  case h_8 =>
    obtain ⟨x, hp, rfl⟩ := identifier_gives.mp h
    exact ⟨_, hp, .name⟩
  case h_9 => exact array_forms sound h
  case h_10 => exact object_forms sound h
  case h_11 hk =>
    simp (disch := decide) only [bind_gives, advance_gives, expect_gives, pure_gives] at h
    obtain ⟨_, _, ⟨rfl, rfl⟩, e, _, he, _, _, ⟨rfl, hr⟩, rfl, rfl⟩ := h
    obtain ⟨w, hw, hp⟩ := sound.assignment he
    have hl := Cursor.passes_kind hk (by decide)
    exact ⟨_, hl.cons (hw.append hr), .parenthesized hp⟩
  case h_12 =>
    simp only [Rule.opensMarkup, bind_gives, look_gives] at h
    obtain ⟨_, _, ⟨rfl, rfl⟩, h⟩ := h
    split at h
    · obtain ⟨w, hw, hp⟩ := markup_forms sound h
      exact ⟨w, hw, .element hp⟩
    · exact absurd h not_misfit_gives

/-- What has been read so far is the owner of the next call or member. -/
theorem suffix_forms {n n' : Node} {c d e : Cursor}
    (h : ∃ w, c.Passes w d ∧ Phrase (.expression .suffixed) w n.bare)
    (hs : (Rule.suffix inner n).Gives d (some n') e) :
    ∃ w, c.Passes w e ∧ Phrase (.expression .suffixed) w n'.bare := by
  obtain ⟨w, hw, hp⟩ := h
  rcases suffix_some.mp hs with ⟨hk, as, ha, rfl⟩ | ⟨hk, f, hf, rfl⟩ | ⟨hk, f, d₁, t, hf, ht, rfl⟩
  · obtain ⟨_, hv, v, y, rfl, has⟩ := arguments_reads sound ha
    have hl := Cursor.passes_kind hk (by decide)
    refine ⟨_, hw.append (hl.cons hv), ?_⟩
    simpa [Node.bare] using Phrase.call hp has
  · obtain ⟨y, hy, rfl⟩ := identifier_gives.mp hf
    have hl := Cursor.passes_kind hk (by decide)
    exact ⟨_, hw.append (hl.cons hy), .member hp⟩
  · obtain ⟨v, hv, hfield⟩ := sound.assignment hf
    obtain ⟨rfl, hr⟩ := (expect_gives (by decide)).mp ht
    have hl := Cursor.passes_kind hk (by decide)
    refine ⟨_, hw.append (hl.cons (hv.append hr)), ?_⟩
    simpa [Node.bare] using Phrase.computed hp hfield

theorem callMember_forms : Forms (Rule.callMember inner) (Phrase (.expression .suffixed)) := by
  intro c n e h
  rw [Rule.callMember, bind_gives] at h
  obtain ⟨owner, d, ho, h⟩ := h
  obtain ⟨w, hw, hp⟩ := primary_forms sound ho
  obtain ⟨d', ⟨v, hv, hn⟩, hs⟩ := steps_keep
    (I := fun n d => ∃ w, c.Passes w d ∧ Phrase (.expression .suffixed) w n.bare)
    (fun _ _ _ _ => suffix_forms sound) ⟨w, hw, .tighter rfl hp⟩ h
  obtain ⟨-, rfl⟩ := suffix_none.mp hs
  exact ⟨v, hv, hn⟩

theorem unary_forms : Forms (Rule.unary inner) (Phrase (.expression .unary)) := by
  intro c n d h
  simp only [Rule.unary, bind_gives, isAtAny_gives] at h
  obtain ⟨_, _, ⟨rfl, rfl⟩, h⟩ := h
  split at h
  · rename_i hk
    replace hk : c.current.kind ∈ unaryOperators := of_decide_eq_true hk
    simp only [bind_gives, advance_gives, spanFrom_gives, pure_gives] at h
    obtain ⟨_, _, ⟨rfl, rfl⟩, a, _, ha, _, _, ⟨rfl, rfl⟩, rfl, rfl⟩ := h
    obtain ⟨w, hw, hp⟩ := sound.unary ha
    have ho := Cursor.passes_current (fun he => absurd (he ▸ hk) (by decide))
    exact ⟨_, ho.cons hw, .unary hk hp⟩
  · obtain ⟨w, hw, hp⟩ := callMember_forms sound h
    exact ⟨w, hw, .tighter rfl hp⟩

theorem power_forms : Forms (Rule.power inner) (Phrase (.expression .power)) := by
  intro c n d h
  simp only [Rule.power, bind_gives, isAt_gives] at h
  obtain ⟨left, _, hl, _, _, ⟨rfl, rfl⟩, h⟩ := h
  obtain ⟨w, hw, hp⟩ := unary_forms sound hl
  split at h
  · rename_i hk
    simp only [bind_gives, advance_gives, spanFrom_gives, pure_gives] at h
    obtain ⟨_, _, ⟨rfl, rfl⟩, right, _, hr, _, _, ⟨rfl, rfl⟩, rfl, rfl⟩ := h
    obtain ⟨v, hv, hq⟩ := sound.power hr
    have ho := Cursor.passes_kind (of_decide_eq_true hk) (by decide)
    exact ⟨_, hw.append (ho.cons hv), .power hp hq⟩
  · obtain ⟨rfl, rfl⟩ := pure_gives.mp h
    exact ⟨w, hw, .tighter rfl hp⟩

omit sound in
/-- What has been read so far is the left operand of the next operator. -/
theorem chainStep_forms {l m : Level} {operand : Parser Node} (hl : l.tighter? = some m)
    (ho : .eof ∉ l.operators) (hf : Forms operand (Phrase (.expression m))) {n n' : Node}
    {c d e : Cursor} (h : ∃ w, c.Passes w d ∧ Phrase (.expression l) w n.bare)
    (hs : (chainStep l.operators operand n).Gives d (some n') e) :
    ∃ w, c.Passes w e ∧ Phrase (.expression l) w n'.bare := by
  obtain ⟨w, hw, hp⟩ := h
  obtain ⟨hk, right, hr, rfl⟩ := chainStep_some.mp hs
  obtain ⟨v, hv, hq⟩ := hf hr
  have hop := Cursor.passes_current (fun he => ho (he ▸ hk))
  exact ⟨_, hw.append (hop.cons hv), .binary hl hp hk hq⟩

omit sound in
/-- Operands of the level that binds just tighter, with the operators of a level between
them, make up an expression of that level. -/
theorem leftChain_forms {l m : Level} {operand : Parser Node} (hl : l.tighter? = some m)
    (ho : .eof ∉ l.operators) (h : Forms operand (Phrase (.expression m))) :
    Forms (Rule.leftChain l.operators operand) (Phrase (.expression l)) := by
  intro c n e hn
  rw [leftChain_eq, bind_gives] at hn
  obtain ⟨first, d, hf, hn⟩ := hn
  obtain ⟨w, hw, hp⟩ := h hf
  obtain ⟨d', ⟨v, hv, hq⟩, hs⟩ := steps_keep
    (I := fun n d => ∃ w, c.Passes w d ∧ Phrase (.expression l) w n.bare)
    (fun _ _ _ _ => chainStep_forms hl ho h) ⟨w, hw, .tighter hl hp⟩ hn
  obtain ⟨-, rfl⟩ := chainStep_none.mp hs
  exact ⟨v, hv, hq⟩

theorem multiplicative_forms :
    Forms (Rule.multiplicative inner) (Phrase (.expression .multiplicative)) :=
  leftChain_forms (l := .multiplicative) rfl (by decide) (power_forms sound)

theorem additive_forms : Forms (Rule.additive inner) (Phrase (.expression .additive)) :=
  leftChain_forms (l := .additive) rfl (by decide) (multiplicative_forms sound)

theorem relational_forms : Forms (Rule.relational inner) (Phrase (.expression .relational)) :=
  leftChain_forms (l := .relational) rfl (by decide) (additive_forms sound)

theorem equality_forms : Forms (Rule.equality inner) (Phrase (.expression .equality)) :=
  leftChain_forms (l := .equality) rfl (by decide) (relational_forms sound)

theorem logicalAnd_forms : Forms (Rule.logicalAnd inner) (Phrase (.expression .logicalAnd)) :=
  leftChain_forms (l := .logicalAnd) rfl (by decide) (equality_forms sound)

theorem logicalOr_forms : Forms (Rule.logicalOr inner) (Phrase (.expression .logicalOr)) :=
  leftChain_forms (l := .logicalOr) rfl (by decide) (logicalAnd_forms sound)

/-- A condition with both its ways, or else what may also stand before an assignment. -/
theorem conditional_reads {c d : Cursor} {n : Node} (h : (Rule.conditional inner).Gives c n d) :
    ∃ w, c.Passes w d ∧ (Phrase (.expression .logicalOr) w n.bare ∨
      Phrase (.expression .conditional) w n.bare ∧ d.current.kind ∉ assignmentOperators) := by
  simp only [Rule.conditional, bind_gives, accept_gives] at h
  obtain ⟨test, _, ht, _, _, hk, h⟩ := h
  obtain ⟨w, hw, hp⟩ := logicalOr_forms sound ht
  rcases hk with ⟨rfl, hk, rfl⟩ | ⟨rfl, -, rfl⟩
  · simp (disch := decide) only [if_true, bind_gives, expect_gives, spanFrom_gives, pure_gives] at h
    obtain ⟨a, _, ha, _, _, ⟨rfl, hc⟩, b, _, hb, _, _, ⟨rfl, rfl⟩, rfl, rfl⟩ := h
    obtain ⟨v, hv, hva⟩ := sound.assignment ha
    obtain ⟨u, hu, hub⟩ := sound.assignment hb
    have hq := Cursor.passes_kind hk (by decide)
    refine ⟨_, hw.append (hq.cons (hv.append (hc.cons hu))), .inr ⟨?_, sound.ended hb⟩⟩
    simpa [Node.bare] using Phrase.conditional hp hva hub
  · obtain ⟨rfl, rfl⟩ := pure_gives.mp h
    exact ⟨w, hw, .inl hp⟩

theorem assignment_reads {c d : Cursor} {n : Node} (h : (Rule.assignment inner).Gives c n d) :
    (∃ w, c.Passes w d ∧ Phrase (.expression .assignment) w n.bare) ∧
      d.current.kind ∉ assignmentOperators := by
  simp only [Rule.assignment, bind_gives, isAtAny_gives] at h
  obtain ⟨left, _, hl, _, _, ⟨rfl, rfl⟩, h⟩ := h
  obtain ⟨w, hw, hp⟩ := conditional_reads sound hl
  split at h
  · rename_i hk
    simp only [bind_gives, advance_gives, spanFrom_gives, pure_gives] at h
    obtain ⟨_, _, ⟨rfl, rfl⟩, right, _, hr, _, _, ⟨rfl, rfl⟩, rfl, rfl⟩ := h
    obtain ⟨v, hv, hq⟩ := sound.assignment hr
    replace hk := of_decide_eq_true hk
    have ho := Cursor.passes_current (fun he => absurd (he ▸ hk) (by decide))
    -- No assignment follows a condition with both its ways, since the second takes it.
    rcases hp with hp | ⟨-, hend⟩
    · exact ⟨⟨_, hw.append (ho.cons hv), .assignment hp hk hq⟩, sound.ended hr⟩
    · exact absurd hk hend
  · rename_i hk
    obtain ⟨rfl, rfl⟩ := pure_gives.mp h
    refine ⟨⟨w, hw, ?_⟩, fun he => hk (decide_eq_true he)⟩
    rcases hp with hp | ⟨hp, -⟩
    · exact .tighter rfl (.tighter rfl hp)
    · exact .tighter rfl hp

end Rules

/-- The rules at every depth read what the grammar says. -/
theorem sound_inner (budget : List Token) : (inner budget).Sound := by
  induction budget with
  | nil =>
    exact ⟨fun _ _ _ h => absurd h not_misfit_gives, fun _ _ _ h => absurd h not_misfit_gives,
      fun _ _ _ h => absurd h not_misfit_gives, fun _ _ _ h => absurd h not_misfit_gives,
      fun _ _ _ h => absurd h not_misfit_gives⟩
  | cons t budget ih =>
    rw [inner]
    exact ⟨fun _ _ _ h => (assignment_reads ih h).1, fun _ _ _ h => (assignment_reads ih h).2,
      power_forms ih, unary_forms ih, markup_forms ih⟩

theorem expression_forms : Forms expression (Phrase (.expression .assignment)) := by
  intro c n d h
  rw [expression_gives] at h
  exact (assignment_reads (sound_inner c.budget) h).1

end HanScript.Parser
