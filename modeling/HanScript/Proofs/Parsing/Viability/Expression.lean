-- What a rule of expressions or of markup has taken where it fails can be
-- completed to what the rule looks for. Where an expression is missing, a name
-- does.
import HanScript.Proofs.Parsing.Soundness.Expression
import HanScript.Proofs.Parsing.Viability.Lists

namespace HanScript

namespace Grammar

theorem Phrase.ofName (l : Level) (x : String) :
    Phrase (.expression l) [⟨.identifier, x⟩] (.identifier {} x) := by
  have suffixed : Phrase (.expression .suffixed) [⟨.identifier, x⟩] _ := .tighter rfl .name
  have power : Phrase (.expression .power) [⟨.identifier, x⟩] _ :=
    .tighter rfl (.tighter rfl suffixed)
  have additive : Phrase (.expression .additive) [⟨.identifier, x⟩] _ :=
    .tighter rfl (.tighter rfl power)
  have equality : Phrase (.expression .equality) [⟨.identifier, x⟩] _ :=
    .tighter rfl (.tighter rfl additive)
  have logicalOr : Phrase (.expression .logicalOr) [⟨.identifier, x⟩] _ :=
    .tighter rfl (.tighter rfl equality)
  cases l with
  | primary => exact .name
  | suffixed => exact suffixed
  | unary => exact .tighter rfl suffixed
  | power => exact power
  | multiplicative => exact .tighter rfl power
  | additive => exact additive
  | relational => exact .tighter rfl additive
  | equality => exact equality
  | logicalAnd => exact .tighter rfl equality
  | logicalOr => exact logicalOr
  | conditional => exact .tighter rfl logicalOr
  | assignment => exact .tighter rfl (.tighter rfl logicalOr)

theorem Interspersed.append {Item : List Terminal → Node → Prop} {w v : List Terminal}
    {ns ms : List Node} (hw : Interspersed Item w ns) (hv : Interspersed Item v ms) :
    Interspersed Item (w ++ v) (ns ++ ms) := by
  induction hw with
  | nil => exact hv
  | item hi _ ih => simpa using Interspersed.item hi ih
  | skipped ht _ ih => exact .skipped ht ih

end Grammar

namespace Parser

open Grammar

variable {c s : Cursor} {e : ParseError}

/-! ## Names -/

theorem identifier_viable : Viable identifier Word := fun _ _ _ h =>
  .atOnce (identifier_fails h) [⟨.identifier, ""⟩] (by decide) .mk

theorem tagStep_fails {first name : Node} (h : (tagStep first name).Fails c e s) :
    c.current.kind = .dot ∧ e.At c.advance s := by
  simp only [tagStep, bind_fails, not_accept_fails, false_or, accept_gives] at h
  obtain ⟨_, _, ⟨rfl, hk, rfl⟩ | ⟨rfl, -, rfl⟩, h⟩ := h
  · exact ⟨hk, tagWord_fails (bind_span_fails.mp h)⟩
  · exact absurd h not_pure_fails

theorem tagName_viable : Viable tagName TagName := by
  intro c e s h
  rw [tagName_eq, bind_fails] at h
  rcases h with h | ⟨first, d, hf, h⟩
  · exact .atOnce (tagWord_fails h) [⟨.identifier, ""⟩] (by decide) .word
  · obtain ⟨x, hx, rfl⟩ := tagWord_gives.mp hf
    obtain ⟨n, d', ⟨w, hw, hn⟩, h⟩ := steps_fails
      (I := fun n d => ∃ w, c.Passes w d ∧ TagName w n.bare) (fun _ _ _ _ => tagStep_forms)
      ⟨_, hx, .word⟩ h
    obtain ⟨hk, hat⟩ := tagStep_fails h
    have hp := Cursor.passes_kind hk (by decide)
    exact .here hat (hw.append hp) [⟨.identifier, ""⟩] (by decide)
      (by simpa using TagName.member hn)

/-! ## Expressions -/

/-- Where the rules one level further in fail, what they have taken can be completed. -/
structure Inner.Completable (inner : Inner) : Prop where
  assignment : Viable inner.assignment (Phrase (.expression .assignment))
  power : Viable inner.power (Phrase (.expression .power))
  unary : Viable inner.unary (Phrase (.expression .unary))
  markup : Viable inner.markup (Phrase .markup)

section Rules

variable {inner : Inner} (sound : inner.Sound) (viable : inner.Completable)

include sound viable

theorem array_viable : Viable (Rule.array inner) (Phrase (.expression .primary)) := by
  intro c e s h
  simp only [Rule.array, bind_fails] at h
  rcases h with h | ⟨⟨span, qs⟩, d, -, h⟩
  · refine (bracketed_viable sound.assignment viable.assignment h).mono ?_
    rintro _ ns ⟨v, x, y, rfl, hs⟩
    exact ⟨_, .array hs⟩
  · exact absurd h not_pure_fails

omit sound in
theorem property_viable : Viable (Rule.property inner) (Phrase .property) := by
  intro c e s h
  simp (disch := decide) only [Rule.property, bind_fails, identifier_gives, expect_gives,
    not_spanFrom_fails, not_pure_fails, and_false, exists_false, or_false] at h
  rcases h with h | ⟨_, _, ⟨x, hx, rfl⟩, h | ⟨_, _, ⟨rfl, hc⟩, h⟩⟩
  · exact .atOnce (identifier_fails h)
      [⟨.identifier, ""⟩, ⟨.colon, ""⟩, ⟨.identifier, ""⟩] (by decide) (.property (.ofName _ _))
  · exact .here (expect_fails h) hx [⟨.colon, ""⟩, ⟨.identifier, ""⟩] (by decide)
      (.property (.ofName _ _))
  · exact (viable.assignment h).after (hx.cons hc) fun _ _ hw => ⟨_, .property hw⟩

theorem object_viable : Viable (Rule.object inner) (Phrase (.expression .primary)) := by
  intro c e s h
  simp (disch := decide) only [Rule.object, bind_fails, expect_gives, not_spanFrom_fails,
    not_pure_fails, and_false, exists_false, or_false] at h
  rcases h with h | ⟨_, _, ⟨rfl, hl⟩, h | ⟨qs, _, hq, h⟩⟩
  · exact .atOnce (expect_fails h) [⟨.leftBrace, ""⟩, ⟨.rightBrace, ""⟩] (by decide) (.object .nil)
  · exact (listUntil_viable (property_forms sound) (property_viable viable) h).within hl
      [⟨.rightBrace, ""⟩] (by decide) fun _ _ hw => ⟨_, .object hw⟩
  · obtain ⟨w, hw, hp⟩ := listUntil_reads (property_forms sound) hq
    exact .here (expect_fails h) (hl.cons hw) [⟨.rightBrace, ""⟩] (by decide) (.object hp)

theorem arguments_viable : Viable (Rule.arguments inner) fun w ns => ∃ v y,
    w = v ++ [⟨.rightParen, y⟩] ∧
      SeparatedOrNone (Phrase (.expression .assignment)) v ns := by
  intro c e s h
  rw [Rule.arguments, bind_fails] at h
  rcases h with h | ⟨qs, d, hq, h⟩
  · exact (separatedUntil_viable sound.assignment viable.assignment h).within (u := []) rfl
      [⟨.rightParen, ""⟩] (by decide) fun w ns hw => ⟨ns, w, _, rfl, hw⟩
  · rw [bind_pure_fails] at h
    obtain ⟨w, hw, hs⟩ := separatedUntil_reads sound.assignment hq
    exact .here (expect_fails h) hw [⟨.rightParen, ""⟩] (by decide) ⟨w, _, rfl, hs⟩

/-! ### Markup -/

theorem container_viable : Viable (Rule.container inner) (Phrase .container) := by
  intro c e s h
  simp (disch := decide) only [Rule.container, bind_fails, expect_gives, not_spanFrom_fails,
    not_pure_fails, and_false, exists_false, or_false] at h
  rcases h with h | ⟨_, _, ⟨rfl, hl⟩, h | ⟨n, _, hn, h⟩⟩
  · exact .atOnce (expect_fails h) [⟨.leftBrace, ""⟩, ⟨.identifier, ""⟩, ⟨.rightBrace, ""⟩]
      (by decide) (.container (.ofName _ _))
  · exact (viable.assignment h).within hl [⟨.rightBrace, ""⟩] (by decide)
      fun _ _ hw => ⟨_, .container hw⟩
  · obtain ⟨w, hw, hp⟩ := sound.assignment hn
    exact .here (expect_fails h) (hl.cons hw) [⟨.rightBrace, ""⟩] (by decide) (.container hp)

theorem givenValue_viable {name : String} : Viable (Rule.givenValue inner name) fun w v =>
    (∃ z, w = [⟨.string, z⟩] ∧ v = .literal {} (.text z) z false) ∨ Phrase .container w v := by
  intro c e s h
  rw [Rule.givenValue, peek_bind_fails] at h
  split at h
  · exact absurd h not_literal_fails
  · exact (container_viable sound viable h).mono fun _ n hw => ⟨n, .inr hw⟩
  · exact .atOnce (misfit_fails (by simp) h) [⟨.string, ""⟩] (by decide) (.inl ⟨_, rfl, rfl⟩)

theorem tagAttribute_viable : Viable (Rule.tagAttribute inner) (Phrase .tagAttribute) := by
  intro c e s h
  simp (disch := decide) only [Rule.tagAttribute, Rule.attributeValue, bind_fails, expect_gives,
    not_accept_fails, accept_gives, spanFrom_gives, not_spanFrom_fails, not_pure_fails, and_false,
    exists_false, or_false, false_or] at h
  rcases h with h | ⟨_, _, ⟨rfl, hx⟩, _, _, ⟨rfl, rfl⟩, _, _, ⟨rfl, hk, rfl⟩ | ⟨rfl, -, rfl⟩, h⟩
  · exact .atOnce (expect_fails h) [⟨.identifier, ""⟩] (by decide) .bareAttribute
  · have ha := Cursor.passes_kind hk (by decide)
    refine (givenValue_viable sound viable h).after (hx.cons ha) ?_
    rintro w n (⟨z, rfl, rfl⟩ | hw)
    · exact ⟨_, .textAttribute⟩
    · exact ⟨_, .givenAttribute hw⟩
  · exact absurd h not_pure_fails

/-- What stands between tags never fails but inside an item, or at the very end. -/
theorem child_viable : Viable (Rule.child inner) (Interspersed (Phrase .child)) := by
  intro c e s h
  rw [Rule.child, peek_bind_fails] at h
  split at h
  · exact .atOnce (misfit_fails (by simp) h) [] (List.forall_mem_nil _) .nil
  · exact absurd (bind_span_fails.mp h) not_advance_fails
  · exact absurd (bind_span_fails.mp h) not_advance_fails
  · refine (container_viable sound viable (map_fails.mp h)).mono fun w n hw => ⟨[n], ?_⟩
    simpa using Interspersed.item (.givenChild hw) .nil
  · refine (viable.markup (map_fails.mp h)).mono fun w n hw => ⟨[n], ?_⟩
    simpa using Interspersed.item (.nestedChild hw) .nil
  · exact absurd (bind_pure_fails.mp h) not_advance_fails

theorem children_viable : Viable (Rule.children inner) (Interspersed (Phrase .child)) := by
  intro c e s h
  rw [Rule.children, bind_pure_fails] at h
  obtain ⟨u, os, d, hu, hs, -, h⟩ := manyWhile_fails
    (G := fun k w o => Skipping (Phrase .child) k w (o.map Node.bare)) (fun c o d hm ho => by
    simp only [Bool.and_eq_true, decide_eq_true_eq] at hm
    exact child_reads sound hm.1 ho) h
  have hu' := (interspersed_iff_sequence _).mpr ⟨_, sequence_map hs, rfl⟩
  exact (child_viable sound viable h).after hu fun _ _ hw => ⟨_, hu'.append hw⟩

omit sound viable in
theorem fragmentEnd_viable : Viable Rule.fragmentEnd fun w (_ : Unit) => ∃ x y,
    w = [⟨.closeTag, x⟩, ⟨.greater, y⟩] := by
  intro c e s h
  rw [Rule.fragmentEnd, Rule.closesFragment, look_bind_fails] at h
  split at h
  · simp only [bind_fails, not_advance_fails, not_pure_fails, and_false, exists_false,
      or_false] at h
  · simp (disch := decide) only [bind_fails, expect_gives, not_pure_fails, and_false, exists_false,
      or_false] at h
    rcases h with h | ⟨_, _, ⟨rfl, hc⟩, h⟩
    · exact .atOnce (expect_fails h) [⟨.closeTag, ""⟩, ⟨.greater, ""⟩] (by decide) (b := ())
        ⟨_, _, rfl⟩
    · exact .here (expect_fails h) hc [⟨.greater, ""⟩] (by decide) (b := ()) ⟨_, _, rfl⟩

theorem attributes_viable : Viable (manyWhile (isAt .identifier) (Rule.tagAttribute inner))
    (Sequence (fun _ => Phrase .tagAttribute) .selfClose) := by
  intro c e s h
  obtain ⟨u, qs, d, hu, hs, -, h⟩ := manyWhile_fails
    (G := fun _ w q => Phrase .tagAttribute w q.bare)
    (fun c q d _ hq => tagAttribute_forms sound hq) h
  replace hs : Sequence (fun _ => Phrase .tagAttribute) _ u _ := sequence_map hs
  exact (tagAttribute_viable sound viable h).after hu fun _ _ hw =>
    ⟨_, (hs.anywhere _).append (.single hw)⟩

/-- An element that has been opened, with the names of its tags and what stands between them. -/
theorem openElement_viable {c d : Cursor} {u w v : List Terminal} {n : Node} {as : List Node}
    {x : String} (hu : c.Passes u d) (hw : u = ⟨.less, x⟩ :: w ++ v) (hn : TagName w n)
    (has : Sequence (fun _ => Phrase .tagAttribute) .greater v as)
    (h : (do let _ ← expect .greater
             let items ← Rule.children inner
             let _ ← expect .closeTag
             let _ ← tagName
             let _ ← expect .greater
             return items : Parser (List Node)).Fails d e s) : Stalls c e s (Phrase .markup) := by
  subst hw
  simp (disch := decide) only [bind_fails, expect_gives, not_pure_fails, and_false, exists_false,
    or_false] at h
  rcases h with h | ⟨_, _, ⟨rfl, hg⟩, h | ⟨qs, _, hq, h⟩⟩
  · exact .here (expect_fails h) hu [⟨.selfClose, ""⟩] (by decide)
      (.closedElement hn (has.anywhere _))
  · exact (children_viable sound viable h).within (hu.append hg)
      [⟨.closeTag, ""⟩, ⟨.identifier, ""⟩, ⟨.greater, ""⟩] (by decide)
      fun _ _ hi => ⟨_, by simpa using Phrase.openElement hn has hi .word⟩
  · obtain ⟨t, ht, hi, -⟩ := children_reads sound hq
    rcases h with h | ⟨_, _, ⟨rfl, hc⟩, h | ⟨m, _, hm, h⟩⟩
    · exact .here (expect_fails h) (hu.append (hg.cons ht))
        [⟨.closeTag, ""⟩, ⟨.identifier, ""⟩, ⟨.greater, ""⟩] (by decide)
        (by simpa using Phrase.openElement hn has hi .word)
    · exact (tagName_viable h).within (hu.append (hg.cons (ht.append hc))) [⟨.greater, ""⟩]
        (by decide) fun _ _ hm => ⟨_, by simpa using Phrase.openElement hn has hi hm⟩
    · obtain ⟨z, hz, hm⟩ := tagName_forms hm
      exact .here (expect_fails h) (hu.append (hg.cons (ht.append (hc.cons hz)))) [⟨.greater, ""⟩]
        (by decide) (by simpa using Phrase.openElement hn has hi hm)

theorem markup_viable : Viable (Rule.markup inner) (Phrase .markup) := by
  intro c e s h
  simp (disch := decide) only [Rule.markup, bind_fails, expect_gives, not_accept_fails, false_or,
    accept_gives] at h
  rcases h with h | ⟨_, _, ⟨rfl, hl⟩, _, _, ⟨rfl, hk, rfl⟩ | ⟨rfl, -, rfl⟩, h⟩
  · exact .atOnce (expect_fails h)
      [⟨.less, ""⟩, ⟨.greater, ""⟩, ⟨.closeTag, ""⟩, ⟨.greater, ""⟩] (by decide)
      (.taggedFragment .nil)
  · have hg := Cursor.passes_kind hk (by decide)
    rcases bind_fails.mp h with h | ⟨qs, d, hq, h⟩
    · exact (children_viable sound viable h).within (hl.cons hg) [⟨.closeTag, ""⟩, ⟨.greater, ""⟩]
        (by decide) fun _ _ hw => ⟨_, .taggedFragment hw⟩
    · rw [bind_span_fails] at h
      obtain ⟨w, hw, hi, -⟩ := children_reads sound hq
      refine (fragmentEnd_viable h).after (hl.cons (hg.cons hw)) ?_
      rintro _ _ ⟨x, y, rfl⟩
      exact ⟨_, .taggedFragment hi⟩
  · simp only [Bool.false_eq_true, if_false, bind_fails, not_accept_fails, false_or,
      accept_gives] at h
    rcases h with h | ⟨name, _, hn, h | ⟨as, _, ha, _, _, ⟨rfl, -, rfl⟩ | ⟨rfl, -, rfl⟩, h⟩⟩
    · exact (tagName_viable h).within hl [⟨.selfClose, ""⟩] (by decide)
        fun _ _ hn => ⟨_, by simpa using Phrase.closedElement hn .nil⟩
    · obtain ⟨w, hw, hn⟩ := tagName_forms hn
      exact (attributes_viable sound viable h).within (hl.cons hw) [⟨.selfClose, ""⟩] (by decide)
        fun _ _ has => ⟨_, .closedElement hn has⟩
    · exact absurd (bind_pure_fails.mp h) not_spanFrom_fails
    · obtain ⟨w, hw, hn⟩ := tagName_forms hn
      obtain ⟨v, hv, has, -⟩ := manyWhile_reads (G := fun _ w q => Phrase .tagAttribute w q.bare)
        (fun c q d _ hq => tagAttribute_forms sound hq) ha
      replace has : Sequence (fun _ => Phrase .tagAttribute) _ v _ := sequence_map has
      refine openElement_viable sound viable (hl.cons (hw.append hv)) rfl hn
        (has.anywhere _) ?_
      simpa only [Bool.false_eq_true, if_false, bind_fails, not_spanFrom_fails, not_pure_fails,
        and_false, exists_false, or_false] using h

/-! ### Operators -/

theorem primary_viable : Viable (Rule.primary inner) (Phrase (.expression .primary)) := by
  intro c e s h
  rw [Rule.primary, peek_bind_fails] at h
  split at h
  case h_1 hk =>
    exact .atOnce (numeral_fails (by simp [hk]) h) [⟨.identifier, ""⟩] (by decide) .name
  case h_2 => exact absurd h not_literal_fails
  case h_3 => exact absurd h not_literal_fails
  case h_4 => exact absurd h not_literal_fails
  case h_5 => exact absurd h not_literal_fails
  case h_6 => exact absurd h not_literal_fails
  case h_7 => exact absurd (bind_span_fails.mp h) not_advance_fails
  case h_8 => exact .atOnce (identifier_fails h) [⟨.identifier, ""⟩] (by decide) .name
  case h_9 => exact array_viable sound viable h
  case h_10 => exact object_viable sound viable h
  case h_11 hk =>
    rw [advance_bind_fails, bind_fails] at h
    have hl := Cursor.passes_kind hk (by decide)
    rcases h with h | ⟨n, d, hn, h⟩
    · exact (viable.assignment h).within hl [⟨.rightParen, ""⟩] (by decide)
        fun _ _ hw => ⟨_, .parenthesized hw⟩
    · rw [bind_pure_fails] at h
      obtain ⟨w, hw, hp⟩ := sound.assignment hn
      exact .here (expect_fails h) (hl.cons hw) [⟨.rightParen, ""⟩] (by decide) (.parenthesized hp)
  case h_12 =>
    rw [Rule.opensMarkup, look_bind_fails] at h
    split at h
    · exact (markup_viable sound viable h).mono fun _ _ hw => ⟨_, .element hw⟩
    · exact .atOnce (misfit_fails (by simp) h) [⟨.identifier, ""⟩] (by decide) .name

theorem suffix_viable {owner : Node} {c d : Cursor} {w : List Terminal} (hw : c.Passes w d)
    (hp : Phrase (.expression .suffixed) w owner.bare) (h : (Rule.suffix inner owner).Fails d e s) :
    Stalls c e s (Phrase (.expression .suffixed)) := by
  rw [Rule.suffix, peek_bind_fails] at h
  split at h
  · rename_i hk
    rw [advance_bind_fails, bind_span_fails] at h
    have hl := Cursor.passes_kind hk (by decide)
    refine (arguments_viable sound viable h).after (hw.append hl) ?_
    rintro _ ns ⟨v, y, rfl, has⟩
    exact ⟨_, by simpa using Phrase.call hp has⟩
  · rename_i hk
    rw [advance_bind_fails, bind_span_fails] at h
    have hl := Cursor.passes_kind hk (by decide)
    exact .here (identifier_fails h) (hw.append hl) [⟨.identifier, ""⟩] (by decide)
      (by simpa using Phrase.member hp)
  · rename_i hk
    rw [advance_bind_fails, bind_fails] at h
    have hl := Cursor.passes_kind hk (by decide)
    rcases h with h | ⟨f, d', hf, h⟩
    · exact (viable.assignment h).within (hw.append hl) [⟨.rightBracket, ""⟩] (by decide)
        fun _ _ hf => ⟨_, by simpa using Phrase.computed hp hf⟩
    · rw [bind_span_fails] at h
      obtain ⟨v, hv, hf⟩ := sound.assignment hf
      exact .here (expect_fails h) (hw.append (hl.cons hv)) [⟨.rightBracket, ""⟩] (by decide)
        (by simpa using Phrase.computed hp hf)
  · exact absurd h not_pure_fails

theorem callMember_viable : Viable (Rule.callMember inner) (Phrase (.expression .suffixed)) := by
  intro c e s h
  rw [Rule.callMember, bind_fails] at h
  rcases h with h | ⟨owner, d, ho, h⟩
  · exact (primary_viable sound viable h).mono fun _ _ hw => ⟨_, .tighter rfl hw⟩
  · obtain ⟨w, hw, hp⟩ := primary_forms sound ho
    obtain ⟨n, d', ⟨v, hv, hn⟩, h⟩ := steps_fails
      (I := fun n d => ∃ w, c.Passes w d ∧ Phrase (.expression .suffixed) w n.bare)
      (fun _ _ _ _ => suffix_forms sound) ⟨w, hw, .tighter rfl hp⟩ h
    exact suffix_viable sound viable hv hn h

theorem unary_viable : Viable (Rule.unary inner) (Phrase (.expression .unary)) := by
  intro c e s h
  rw [Rule.unary, isAtAny_bind_fails] at h
  split at h
  · rename_i hk
    replace hk : c.current.kind ∈ unaryOperators := of_decide_eq_true hk
    rw [advance_bind_fails, bind_span_fails] at h
    have ho := Cursor.passes_current (fun he => absurd (he ▸ hk) (by decide))
    exact (viable.unary h).after ho fun _ _ hw => ⟨_, .unary hk hw⟩
  · exact (callMember_viable sound viable h).mono fun _ _ hw => ⟨_, .tighter rfl hw⟩

theorem power_viable : Viable (Rule.power inner) (Phrase (.expression .power)) := by
  intro c e s h
  rw [Rule.power, bind_fails] at h
  rcases h with h | ⟨left, d, hl, h⟩
  · exact (unary_viable sound viable h).mono fun _ _ hw => ⟨_, .tighter rfl hw⟩
  · obtain ⟨w, hw, hp⟩ := unary_forms sound hl
    rw [isAt_bind_fails] at h
    split at h
    · rename_i hk
      rw [advance_bind_fails, bind_span_fails] at h
      have ho := Cursor.passes_kind (of_decide_eq_true hk) (by decide)
      exact (viable.power h).after (hw.append ho)
        fun _ _ hv => ⟨_, by simpa using Phrase.power hp hv⟩
    · exact absurd h not_pure_fails

omit sound viable in
theorem chainStep_fails {operators : List TokenKind} {operand : Parser Node} {left : Node}
    (h : (chainStep operators operand left).Fails c e s) :
    c.current.kind ∈ operators ∧ operand.Fails c.advance e s := by
  rw [chainStep, isAtAny_bind_fails] at h
  split at h
  · rename_i hk
    rw [advance_bind_fails, bind_span_fails] at h
    exact ⟨of_decide_eq_true hk, h⟩
  · exact absurd h not_pure_fails

omit sound viable in
theorem leftChain_viable {l m : Level} {operand : Parser Node} (hl : l.tighter? = some m)
    (ho : .eof ∉ l.operators) (hf : Forms operand (Phrase (.expression m)))
    (hv : Viable operand (Phrase (.expression m))) :
    Viable (Rule.leftChain l.operators operand) (Phrase (.expression l)) := by
  intro c e s h
  rw [leftChain_eq, bind_fails] at h
  rcases h with h | ⟨first, d, hfirst, h⟩
  · exact (hv h).mono fun _ _ hw => ⟨_, .tighter hl hw⟩
  · obtain ⟨w, hw, hp⟩ := hf hfirst
    obtain ⟨n, d', ⟨u, hu, hn⟩, h⟩ := steps_fails
      (I := fun n d => ∃ w, c.Passes w d ∧ Phrase (.expression l) w n.bare)
      (fun _ _ _ _ => chainStep_forms hl ho hf) ⟨w, hw, .tighter hl hp⟩ h
    obtain ⟨hk, h⟩ := chainStep_fails h
    have hop := Cursor.passes_current (fun he => ho (he ▸ hk))
    exact (hv h).after (hu.append hop) fun _ _ hw => ⟨_, by simpa using Phrase.binary hl hn hk hw⟩

theorem logicalOr_viable : Viable (Rule.logicalOr inner) (Phrase (.expression .logicalOr)) := by
  have multiplicative : Viable (Rule.multiplicative inner) (Phrase (.expression .multiplicative)) :=
    leftChain_viable (l := .multiplicative) rfl (by decide) (power_forms sound)
      (power_viable sound viable)
  have additive : Viable (Rule.additive inner) (Phrase (.expression .additive)) :=
    leftChain_viable (l := .additive) rfl (by decide) (multiplicative_forms sound) multiplicative
  have relational : Viable (Rule.relational inner) (Phrase (.expression .relational)) :=
    leftChain_viable (l := .relational) rfl (by decide) (additive_forms sound) additive
  have equality : Viable (Rule.equality inner) (Phrase (.expression .equality)) :=
    leftChain_viable (l := .equality) rfl (by decide) (relational_forms sound) relational
  have logicalAnd : Viable (Rule.logicalAnd inner) (Phrase (.expression .logicalAnd)) :=
    leftChain_viable (l := .logicalAnd) rfl (by decide) (equality_forms sound) equality
  exact leftChain_viable (l := .logicalOr) rfl (by decide) (logicalAnd_forms sound) logicalAnd

theorem conditional_viable :
    Viable (Rule.conditional inner) (Phrase (.expression .conditional)) := by
  intro c e s h
  simp only [Rule.conditional, bind_fails, not_accept_fails, false_or, accept_gives] at h
  rcases h with h | ⟨test, _, ht, _, _, ⟨rfl, hk, rfl⟩ | ⟨rfl, -, rfl⟩, h⟩
  · exact (logicalOr_viable sound viable h).mono fun _ _ hw => ⟨_, .tighter rfl hw⟩
  · obtain ⟨w, hw, hp⟩ := logicalOr_forms sound ht
    have hq := Cursor.passes_kind hk (by decide)
    simp (disch := decide) only [if_true, bind_fails, expect_gives, not_spanFrom_fails,
      not_pure_fails, and_false, exists_false, or_false] at h
    rcases h with h | ⟨a, _, ha, h⟩
    · exact (viable.assignment h).within (hw.append hq) [⟨.colon, ""⟩, ⟨.identifier, ""⟩]
        (by decide) fun _ _ hv => ⟨_, by simpa using Phrase.conditional hp hv (.ofName _ _)⟩
    · obtain ⟨v, hv, ha⟩ := sound.assignment ha
      rcases h with h | ⟨_, _, ⟨rfl, hc⟩, h⟩
      · exact .here (expect_fails h) (hw.append (hq.cons hv)) [⟨.colon, ""⟩, ⟨.identifier, ""⟩]
          (by decide) (by simpa using Phrase.conditional hp ha (.ofName _ _))
      · exact (viable.assignment h).after (hw.append (hq.cons (hv.append hc)))
          fun _ _ hu => ⟨_, by simpa using Phrase.conditional hp ha hu⟩
  · exact absurd h not_pure_fails

theorem assignment_viable : Viable (Rule.assignment inner) (Phrase (.expression .assignment)) := by
  intro c e s h
  rw [Rule.assignment, bind_fails] at h
  rcases h with h | ⟨left, d, hl, h⟩
  · exact (conditional_viable sound viable h).mono fun _ _ hw => ⟨_, .tighter rfl hw⟩
  · obtain ⟨w, hw, hp⟩ := conditional_reads sound hl
    rw [isAtAny_bind_fails] at h
    split at h
    · rename_i hk
      replace hk := of_decide_eq_true hk
      rw [advance_bind_fails, bind_span_fails] at h
      have ho := Cursor.passes_current (fun he => absurd (he ▸ hk) (by decide))
      rcases hp with hp | ⟨-, hend⟩
      · exact (viable.assignment h).after (hw.append ho)
          fun _ _ hv => ⟨_, by simpa using Phrase.assignment hp hk hv⟩
      · exact absurd hk hend
    · exact absurd h not_pure_fails

end Rules

theorem completable_inner (budget : List Token) : (inner budget).Completable := by
  induction budget with
  | nil =>
    exact ⟨fun _ _ _ h => absurd h not_overrun_fails, fun _ _ _ h => absurd h not_overrun_fails,
      fun _ _ _ h => absurd h not_overrun_fails, fun _ _ _ h => absurd h not_overrun_fails⟩
  | cons t budget ih =>
    have sound := sound_inner budget
    rw [inner]
    exact ⟨assignment_viable sound ih, power_viable sound ih, unary_viable sound ih,
      markup_viable sound ih⟩

theorem expression_viable : Viable expression (Phrase (.expression .assignment)) := by
  intro c e s h
  rw [expression, Fails, nested] at h
  exact assignment_viable (sound_inner c.budget) (completable_inner c.budget) h

end Parser

end HanScript
