-- Markup is written as calls, and read as the calls. With that, what holds of the
-- parts of an expression is put together to what holds of the whole.
import HanScript.Proofs.Printing.Expression

namespace HanScript

open Grammar Script

theorem IsName.no_backslash {x : String} (h : IsName x) : '\\' ∉ x.toList := by
  intro hmem
  have hpart := List.all_eq_true.mp h.1.2 _ hmem
  exact absurd hpart (by decide)

/-- What the renderer says of a node in its role is read as what the node stands for. -/
def Role.Shown (ρ : Terminal → Terminal) : Role → Node → Prop
  | expression, n => Prints ρ n
  | optional, n => n = .absent ∨ Prints ρ n
  | word, n => ∃ s x, n = .identifier s x ∧ Named ρ x
  | property, n => Written ρ (pair n) (Phrase .property · n.lowered.bare)
  | tagName, n => (∃ text w, Script.reference n = .ok text ∧
      Reading ρ .suffixed false n.lowered.reference text w) ∧
    Written ρ (tag n) (Phrase (.expression .assignment) · n.lowered.tagArgument.bare)
  | tagWord, n => ∃ s x, n = .tagName s x ∧ Named ρ x
  | tagAttribute, n => Written ρ (prop n) (Phrase .property · n.lowered.bare)
  | attributeValue, n => n = .absent ∨
    Written ρ (propValue n) (Phrase (.expression .assignment) · n.lowered.bare)
  | child, n => Written ρ (Script.child n) (Phrase (.expression .assignment) · n.lowered.bare)
  | _, _ => True

section

variable {ρ : Terminal → Terminal} (hρ : Transparent ρ)

include hρ

/-! ## Elements -/

theorem reading_reactMember {x : String} (hx : x ∈ ["React", "createElement", "Fragment"]) (s : Span) :
    ∃ w, Reading ρ .suffixed false (Node.reactMember s x) ("React." ++ x) w := by
  have hnames : ∀ x ∈ ["React", "createElement", "Fragment"], IsName x := by
    unfold IsName IsWord
    decide
  have hnamed : ∀ x ∈ ["React", "createElement", "Fragment"], Named ρ x := fun x hx =>
    ⟨hnames x hx, hρ.react x hx⟩
  have hread := Reading.name (hnamed "React" (by decide)) s
  exact ⟨_, (hread.loosen (by decide)).member hρ.signs (hnamed x hx) s s⟩

/-- The call that makes an element. -/
theorem reading_createElement {tag props : String} {texts : List String} {n m : Node}
    {ns : List Node} (htag : Spelt ρ (Phrase (.expression .assignment)) tag n.bare)
    (hprops : Spelt ρ (Phrase (.expression .assignment)) props m.bare)
    (htexts : List.Forall₂ (Spelt ρ (Phrase (.expression .assignment))) texts (Node.bareList ns))
    (s : Span) :
    ∃ w, Reading ρ .suffixed false (.createElement s n m ns) (createElement tag props texts) w := by
  obtain ⟨w, hw⟩ := reading_reactMember hρ (x := "createElement") (by decide) s
  obtain ⟨v, hspells, hv⟩ := spelt_separatedOrNone hρ.signs (.cons htag (.cons hprops htexts))
  have hargs : SeparatedOrNone (Phrase (.expression .assignment)) v
      (Node.bareList (n :: m :: ns)) := hv
  exact ⟨_, hw.call hρ.signs hspells hargs s⟩

theorem prints_element {name : Node} {attributes items : List Node} (s : Span) (selfClosing : Bool)
    (hname : Role.tagName.Shown ρ name) (hattributes : ∀ n ∈ attributes, Role.tagAttribute.Shown ρ n)
    (hitems : ∀ n ∈ items, Role.child.Shown ρ n) :
    Prints ρ (.element s name attributes items selfClosing) := by
  obtain ⟨-, tag, v, htag, hspells, hphrase⟩ := hname
  obtain ⟨texts, htexts, hspelt⟩ := spelt_of_written hitems
  obtain ⟨attributeTexts, hprops, hattributeSpelt⟩ := spelt_of_written hattributes
  rw [← children_eq_mapM] at htexts
  rw [← props_eq_mapM] at hprops
  rw [← Node.bareList_lowered] at hspelt hattributeSpelt
  have htext : Script.expression (.element s name attributes items selfClosing) =
      .ok (createElement tag (braced "null" attributeTexts) texts) :=
    bind_eq_ok htag (bind_eq_ok hprops (bind_eq_ok htexts rfl))
  cases attributes with
  | nil =>
    cases hprops
    obtain ⟨w, hread⟩ := reading_createElement hρ ⟨v, hspells, hphrase⟩
      (Reading.nothing hρ.signs s).spelt hspelt s
    exact ⟨_, w, .suffixed, htext, Nat.min_le_right _ _, hread⟩
  | cons =>
    obtain ⟨u, hbraced, hu⟩ := spelt_braced hρ.signs hattributeSpelt (List.cons_ne_nil _ _) "null"
    obtain ⟨w, hread⟩ := reading_createElement hρ ⟨v, hspells, hphrase⟩
      (Reading.object hbraced hu s).spelt hspelt s
    exact ⟨_, w, .suffixed, htext, Nat.min_le_right _ _, hread⟩

theorem prints_fragment {items : List Node} (s : Span) (hitems : ∀ n ∈ items, Role.child.Shown ρ n) :
    Prints ρ (.fragment s items) := by
  obtain ⟨texts, htexts, hspelt⟩ := spelt_of_written hitems
  rw [← children_eq_mapM] at htexts
  rw [← Node.bareList_lowered] at hspelt
  obtain ⟨v, hfragment⟩ := reading_reactMember hρ (x := "Fragment") (by decide) s
  obtain ⟨w, hread⟩ := reading_createElement hρ hfragment.spelt
    (Reading.nothing hρ.signs s).spelt hspelt s
  exact ⟨_, w, .suffixed, bind_eq_ok htexts rfl, Nat.min_le_right _ _, hread⟩

/-! ## The parts of markup -/

theorem shown_tagName {n : Node} (hn : Role.tagName.admits n) (hf : n.FormedOf (Faithful ρ) .tagName)
    (hparts : ∀ part ∈ n.parts, part.1.Shown ρ part.2) : Role.tagName.Shown ρ n := by
  cases n with
  | tagName s x =>
    have hx := Faithful.named hf
    exact ⟨⟨x, _, rfl, (Reading.name hx s).loosen (by decide)⟩,
      (Reading.string hρ.signs s hx.isName.no_backslash).written rfl⟩
  | tagMember s owner field =>
    simp only [Node.parts, List.forall_mem_cons] at hparts
    obtain ⟨⟨⟨path, w, hpath, hread⟩, -⟩, ⟨t, x, rfl, hx⟩, -⟩ := hparts
    have hmember := hread.member hρ.signs hx s t
    have htext : Script.reference (.tagMember s owner (.tagName t x)) = .ok (path ++ "." ++ x) :=
      bind_eq_ok hpath rfl
    exact ⟨⟨_, _, htext, hmember⟩, hmember.written htext⟩
  | _ => cases hn

/-- A name with its value. -/
theorem written_keyed {x : String} (hx : Named ρ x) {text? : Except RenderError String} {n : Node}
    (h : Written ρ text? (Phrase (.expression .assignment) · n)) :
    Written ρ (text? >>= fun text => pure (x ++ ": " ++ text))
      (Phrase .property · (.property {} (.identifier {} x) n)) := by
  obtain ⟨text, w, htext, hspells, hphrase⟩ := h
  exact ⟨_, _, bind_eq_ok htext rfl, hspells.keyed hρ.signs hx, .property hphrase⟩

theorem shown_property {n : Node} (hn : Role.property.admits n)
    (hparts : ∀ part ∈ n.parts, part.1.Shown ρ part.2) : Role.property.Shown ρ n := by
  cases n with
  | property s key value =>
    simp only [Node.parts, List.forall_mem_cons] at hparts
    obtain ⟨⟨t, x, rfl, hx⟩, hvalue, -⟩ := hparts
    exact written_keyed hρ hx hvalue.written
  | _ => cases hn

theorem shown_tagAttribute {n : Node} (hn : Role.tagAttribute.admits n)
    (hparts : ∀ part ∈ n.parts, part.1.Shown ρ part.2) : Role.tagAttribute.Shown ρ n := by
  cases n with
  | tagAttribute s name value =>
    simp only [Node.parts, List.forall_mem_cons] at hparts
    obtain ⟨⟨t, x, rfl, hx⟩, rfl | hvalue, -⟩ := hparts
    · exact written_keyed hρ hx ((Reading.truth hρ.signs s).written rfl)
    · have hpresent : value.lowered.isAbsent = false := by
        obtain ⟨_, _, _, _, hphrase⟩ := hvalue
        rw [← Node.isAbsent_bare]
        exact hphrase.not_absent
      have htree : (Node.tagAttribute s (.tagName t x) value).lowered =
          .property s (.identifier t x) value.lowered := Node.unmarkedRoot_attribute hpresent
      rw [Role.Shown, htree]
      exact written_keyed hρ hx hvalue
  | _ => cases hn

theorem shown_attributeValue {n : Node} (hn : Role.attributeValue.admits n)
    (hf : n.FormedOf (Faithful ρ) .attributeValue) (hq : n.Quotable)
    (hparts : ∀ part ∈ n.parts, part.1.Shown ρ part.2) : Role.attributeValue.Shown ρ n := by
  cases n with
  | absent => exact .inl rfl
  | literal s value raw isTemplate =>
    cases value with
    | text x =>
      obtain ⟨rfl, htemplate⟩ := hf
      cases isTemplate with
      | true => cases htemplate rfl
      | false => exact .inr ((Reading.string hρ.signs s hq).written rfl)
    | _ => cases hn
  | container _ e =>
    simp only [Node.parts, List.forall_mem_cons] at hparts
    exact .inr hparts.1.written
  | _ => cases hn

theorem shown_child {n : Node} (hn : Role.child.admits n) (hq : n.Quotable)
    (hparts : ∀ part ∈ n.parts, part.1.Shown ρ part.2) : Role.child.Shown ρ n := by
  cases n with
  | markupText s x => exact (Reading.string hρ.signs s hq).written rfl
  | container _ e =>
    simp only [Node.parts, List.forall_mem_cons] at hparts
    exact hparts.1.written
  | element s name attributes items selfClosing =>
    simp only [Node.parts, List.forall_mem_append, List.forall_mem_cons, List.forall_mem_map] at hparts
    exact (prints_element hρ s selfClosing hparts.1.1 hparts.1.2 hparts.2).written
  | fragment s items =>
    simp only [Node.parts, List.forall_mem_map] at hparts
    exact (prints_fragment hρ s hparts).written
  | _ => cases hn

/-! ## All the way down -/

/-- An expression is read as it is, if its parts are. -/
theorem prints_of_parts {n : Node} (hn : n.isExpression) (hf : n.FormedOf (Faithful ρ) .expression)
    (hq : n.Quotable) (hparts : ∀ part ∈ n.parts, part.1.Shown ρ part.2) : Prints ρ n := by
  cases n with
  | identifier s x => exact prints_identifier hρ.signs s hf
  | literal s => exact prints_literal hρ.signs s hn hf hq
  | binary s op a b =>
    simp only [Node.parts, List.forall_mem_cons] at hparts
    exact prints_binary hρ.signs s hf hparts.1 hparts.2.1
  | unary s op a before =>
    simp only [Node.parts, List.forall_mem_cons] at hparts
    exact prints_unary hρ.signs s hf hparts.1
  | assignment s op a b =>
    simp only [Node.parts, List.forall_mem_cons] at hparts
    exact prints_assignment hρ.signs s hf hparts.1 hparts.2.1
  | conditional s a b c =>
    simp only [Node.parts, List.forall_mem_cons] at hparts
    exact prints_conditional hρ.signs s hparts.1 hparts.2.1 hparts.2.2.1
  | call s callee arguments =>
    simp only [Node.parts, List.forall_mem_cons, List.forall_mem_map] at hparts
    exact prints_call hρ.signs s hparts.1 hparts.2
  | member s owner field computed =>
    simp only [Node.parts, List.forall_mem_cons] at hparts
    cases computed with
    | true => exact prints_computed hρ.signs s hparts.1 hparts.2.1
    | false =>
      obtain ⟨t, x, rfl, hx⟩ := hf.resolve_left (by intro h; cases h)
      exact prints_member hρ.signs s hparts.1 hx.named
  | array s items =>
    simp only [Node.parts, List.forall_mem_map] at hparts
    exact prints_array hρ.signs s hparts
  | object s properties =>
    simp only [Node.parts, List.forall_mem_map] at hparts
    exact prints_object hρ.signs s hparts
  | element s name attributes items selfClosing =>
    simp only [Node.parts, List.forall_mem_append, List.forall_mem_cons, List.forall_mem_map] at hparts
    exact prints_element hρ s selfClosing hparts.1.1 hparts.1.2 hparts.2
  | fragment s items =>
    simp only [Node.parts, List.forall_mem_map] at hparts
    exact prints_fragment hρ s hparts
  | _ => cases hn

/-- In each role, a printable tree is read as what it stands for. -/
theorem shown_of_printable {r : Role} {n : Node} (h : Printable ρ r n) : r.Shown ρ n := by
  induction h with
  | @mk r n hn _ ih =>
    obtain ⟨⟨hadmits, hf⟩, hq⟩ := hn
    cases r with
    | expression => exact prints_of_parts hρ hadmits hf hq ih
    | optional =>
      cases n with
      | absent => exact .inl rfl
      | _ => exact .inr (prints_of_parts hρ hadmits (hf.operand rfl) hq ih)
    | word =>
      cases n with
      | identifier s x => exact ⟨s, x, rfl, (hf.resolve_right nofun).named⟩
      | _ => cases hadmits
    | tagWord =>
      cases n with
      | tagName s x => exact ⟨s, x, rfl, Faithful.named hf⟩
      | _ => cases hadmits
    | property => exact shown_property hρ hadmits ih
    | tagName => exact shown_tagName hρ hadmits hf ih
    | tagAttribute => exact shown_tagAttribute hρ hadmits ih
    | attributeValue => exact shown_attributeValue hρ hadmits hf hq ih
    | child => exact shown_child hρ hadmits hq ih
    | _ => trivial

end

end HanScript
