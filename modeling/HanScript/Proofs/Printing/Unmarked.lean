-- Markup stands for calls. A tree with the call in the place of each element has
-- the text of the tree, whatever stands around the element.
import HanScript.Proofs.Conformance.Rendered
import HanScript.Proofs.Printing.Lowered
import HanScript.Proofs.Printing.Rebuilt

namespace HanScript

namespace Node

/-- The tree with the call in the place of each element, and nothing else changed. -/
def unmarked (n : Node) : Node := n.rewritten unmarkedRoot

def isMarkup : Node → Bool
  | element .. | fragment .. | tagName .. | tagMember .. | tagAttribute .. | container ..
  | markupText .. => true
  | _ => false

theorem unmarked_eq (n : Node) : n.unmarked = unmarkedRoot (n.rebuilt id unmarked) :=
  rewritten_eq unmarkedRoot n

theorem unmarked_of_not_markup {n : Node} (h : n.isMarkup = false) :
    n.unmarked = n.rebuilt id unmarked := by
  rw [unmarked_eq]
  cases n with
  | element | fragment | tagName | tagMember | tagAttribute | container | markupText => cases h
  | _ => rfl

end Node

open Script

/-! ## The text of the call -/

theorem expression_createElement (s : Span) (tag props : Node) (children : List Node) :
    Script.expression (.createElement s tag props children) = (do
      let tag ← Script.expression tag
      let props ← Script.expression props
      let texts ← expressions children
      return Script.createElement tag props texts) := by
  have hcallee : Script.expression (.reactMember s "createElement") = .ok "React.createElement" := rfl
  simp only [Node.createElement, Script.expression, expressions, hcallee, bind_assoc, pure_bind]
  rfl

theorem expression_element (s : Span) (name : Node) (attributes items : List Node) (b : Bool) :
    Script.expression (.element s name attributes items b) = (do
      let tag ← tag name
      let props ← propsObject attributes
      let texts ← children items
      return Script.createElement tag props texts) := by
  simp only [Script.expression, propsObject, bind_assoc, pure_bind]

/-- The object of the attributes has their text. -/
theorem expression_propsArgument {s : Span} {attributes : List Node}
    (h : ∀ n ∈ attributes, pair n.unmarked = prop n) :
    Script.expression (Node.propsArgument s (attributes.map Node.unmarked)) =
      propsObject attributes := by
  cases attributes with
  | nil => rfl
  | cons n ns =>
    have hall := mapM_rebuilt h
    simp only [List.map_cons] at hall ⊢
    simp only [Node.propsArgument, Script.expression, propsObject, pairs_eq_mapM, props_eq_mapM, hall]
    simp only [List.mapM_cons, bind_assoc, pure_bind]
    rfl

/-! ## Names of tags -/

/-- The node has the text of a reference, and it is never put in parentheses where a member is taken
of it. -/
structure Refers (n name : Node) : Prop where
  text : Script.expression n = Script.reference name
  level : callLevel ≤ precedence n
  integer : isBareInteger n = .ok false

theorem Refers.operandText {n name : Node} (h : Refers n name) (text : String) :
    operandText n text = text := by
  have hlevel : ¬ precedence n < callLevel := Nat.not_lt.mpr h.level
  simp [Script.operandText, hlevel, parenthesizedIf]

theorem Refers.member {owner field : Node} {s : Span} {x : String} {t u : Span}
    (h : Refers owner field) :
    Refers (.member s owner (.identifier t x) false) (.tagMember u field (.tagName t x)) := by
  refine ⟨?_, Nat.le_refl _, rfl⟩
  have hname : nameTextOf (.tagName t x) = .ok x := rfl
  simp only [Script.expression, h.text, h.integer, Script.reference, hname, ok_bind, h.operandText,
    parenthesizedIf]
  rfl

/-! ## Roles -/

/-- The roles that only markup has. -/
def Role.isMarkup : Role → Bool
  | tagName | tagWord | tagAttribute | attributeValue | child => true
  | _ => false

/-- What the tree without markup is in its role: as good as the tree, or, for markup, the part of a
call that has the same text. -/
def Role.Unmarked : Role → Node → Prop
  | tagName, n => Refers n.unmarked.reference n ∧ Script.expression n.unmarked.tagArgument = tag n
  | tagWord, n => ∃ s x, n = .tagName s x
  | tagAttribute, n => pair n.unmarked = prop n
  | attributeValue, n => n.unmarked.isAbsent = n.isAbsent ∧
    (n.isAbsent = false → Script.expression n.unmarked = propValue n)
  | child, n => Script.expression n.unmarked = Script.child n
  | r, n => r.Alike n.unmarked n

theorem Role.unmarked_iff_alike {r : Role} (hr : r.isMarkup = false) (n : Node) :
    r.Unmarked n ↔ r.Alike n.unmarked n := by
  cases r with
  | tagName | tagWord | tagAttribute | attributeValue | child => cases hr
  | _ => rfl

/-- Only markup has parts that are markup by their roles. -/
theorem Node.role_of_parts {n : Node} (hn : n.isMarkup = false) :
    ∀ part ∈ n.parts, part.1.isMarkup = false := by
  cases n with
  | element | fragment | tagName | tagMember | tagAttribute | container | markupText => cases hn
  | _ => simp [parts, Role.isMarkup]

def PartsUnmarked (n : Node) : Prop := ∀ part ∈ n.parts, part.1.Unmarked part.2

theorem alike_of_not_markup {r : Role} {n : Node} (hr : r.admits n) (hn : n.isMarkup = false)
    (hparts : PartsUnmarked n) : r.Alike n.unmarked n := by
  rw [Node.unmarked_of_not_markup hn]
  refine alike_rebuilt hr fun part hpart => ?_
  exact (Role.unmarked_iff_alike (Node.role_of_parts hn part hpart) part.2).mp (hparts part hpart)

theorem tagName_unmarked {n : Node} (hn : Role.tagName.admits n) (hparts : PartsUnmarked n) :
    Role.tagName.Unmarked n := by
  cases n with
  | tagName => exact ⟨⟨rfl, (by decide : callLevel ≤ atomLevel), rfl⟩, rfl⟩
  | tagMember s owner field =>
    simp only [PartsUnmarked, Node.parts, List.forall_mem_cons] at hparts
    obtain ⟨⟨howner, -⟩, ⟨t, x, rfl⟩, -⟩ := hparts
    have hmember : Refers (Node.tagMember s owner (.tagName t x)).unmarked.reference
        (.tagMember s owner (.tagName t x)) := by
      rw [Node.unmarked_eq]
      exact howner.member
    exact ⟨hmember, hmember.text⟩
  | _ => cases hn

theorem element_unmarked {s : Span} {name : Node} {attributes items : List Node} {b : Bool}
    (hparts : PartsUnmarked (.element s name attributes items b)) :
    Script.Alike (Node.element s name attributes items b).unmarked
      (.element s name attributes items b) := by
  simp only [PartsUnmarked, Node.parts, List.forall_mem_append, List.forall_mem_cons,
    List.forall_mem_map] at hparts
  obtain ⟨⟨⟨-, htag⟩, hattributes⟩, hitems⟩ := hparts
  rw [Node.unmarked_eq]
  refine ⟨?_, .inr ⟨Nat.le_refl _, (by decide : callLevel ≤ atomLevel)⟩, rfl, rfl, rfl, rfl⟩
  simp only [Node.rebuilt, Node.unmarkedRoot, id, expression_createElement, expression_element, htag,
    expression_propsArgument hattributes, expressions_eq_mapM, children_eq_mapM, mapM_rebuilt hitems]

theorem fragment_unmarked {s : Span} {items : List Node} (hparts : PartsUnmarked (.fragment s items)) :
    Script.Alike (Node.fragment s items).unmarked (.fragment s items) := by
  simp only [PartsUnmarked, Node.parts, List.forall_mem_map] at hparts
  rw [Node.unmarked_eq]
  refine ⟨?_, .inr ⟨Nat.le_refl _, (by decide : callLevel ≤ atomLevel)⟩, rfl, rfl, rfl, rfl⟩
  have hfragment : Script.expression (.reactMember s "Fragment") = .ok Target.javaScript.fragment := rfl
  have hnull : Script.literal .nothing "null" false = .ok "null" := rfl
  simp only [Node.rebuilt, Node.unmarkedRoot, id, expression_createElement, hfragment, hnull, ok_bind,
    Script.expression, expressions_eq_mapM, children_eq_mapM, mapM_rebuilt hparts]

theorem child_unmarked {n : Node} (hn : Role.child.admits n) (hparts : PartsUnmarked n) :
    Role.child.Unmarked n := by
  cases n with
  | markupText => rfl
  | container =>
    simp only [PartsUnmarked, Node.parts, List.forall_mem_cons] at hparts
    exact hparts.1.text
  | element => exact (element_unmarked hparts).text
  | fragment => exact (fragment_unmarked hparts).text
  | _ => cases hn

/-- A text is no template as the value of an attribute, so it is quoted in both places. -/
theorem attributeValue_unmarked {T : Terminal → Prop} {n : Node} (hn : Formed T .attributeValue n)
    (hbelow : ∀ part ∈ n.parts, part.1.admits part.2) (hparts : PartsUnmarked n) :
    Role.attributeValue.Unmarked n := by
  cases n with
  | absent => exact ⟨rfl, nofun⟩
  | literal s value raw template =>
    cases value with
    | text x =>
      cases template with
      | true => exact absurd (hn.2.2 rfl) (by decide)
      | false => exact ⟨rfl, fun _ => rfl⟩
    | _ => cases hn.1
  | container s e =>
    simp only [PartsUnmarked, Node.parts, List.forall_mem_cons] at hparts hbelow
    have habsent := hparts.1.absent
    exact ⟨habsent.trans (Node.not_absent_of_expression hbelow.1), fun _ => hparts.1.text⟩
  | _ => cases hn.1

theorem tagAttribute_unmarked {n : Node} (hn : Role.tagAttribute.admits n)
    (hparts : PartsUnmarked n) : Role.tagAttribute.Unmarked n := by
  cases n with
  | tagAttribute s name value =>
    simp only [PartsUnmarked, Node.parts, List.forall_mem_cons] at hparts
    obtain ⟨⟨t, x, rfl⟩, ⟨habsent, hvalue⟩, -⟩ := hparts
    cases hv : value.isAbsent with
    | true =>
      cases value with
      | absent => rfl
      | _ => cases hv
    | false =>
      have hnode : (Node.tagAttribute s (.tagName t x) value).unmarked =
          .property s (.identifier t x) value.unmarked := by
        rw [Node.unmarked_eq]
        exact Node.unmarkedRoot_attribute (habsent.trans hv)
      have hname : nameTextOf (.identifier t x) = nameTextOf (.tagName t x) := rfl
      simp only [Role.Unmarked, hnode, pair, prop, hvalue hv, hname]
  | _ => cases hn

/-- The only markup outside of markup are elements and fragments in the place of expressions. -/
theorem alike_of_markup {r : Role} {n : Node} (hr : r.isMarkup = false) (hn : r.admits n)
    (hmarkup : n.isMarkup) (hparts : PartsUnmarked n) : r.Alike n.unmarked n := by
  cases n with
  | element =>
    cases r with
    | expression | optional => exact element_unmarked hparts
    | initial => exact optional_alike (element_unmarked hparts)
    | child => cases hr
    | _ => cases hn
  | fragment =>
    cases r with
    | expression | optional => exact fragment_unmarked hparts
    | initial => exact optional_alike (fragment_unmarked hparts)
    | child => cases hr
    | _ => cases hn
  | tagName | tagMember | tagAttribute | container | markupText =>
    cases r with
    | tagName | tagWord | tagAttribute | attributeValue | child => cases hr
    | _ => cases hn
  | _ => cases hmarkup

/-- In every role the tree without markup has the text of the tree. -/
theorem unmarked_of_formed {T : Terminal → Prop} {r : Role} {n : Node}
    (h : Node.Everywhere (Formed T) r n) : r.Unmarked n := by
  induction h with
  | @mk r n hn hbelow ih =>
    cases hr : r.isMarkup with
    | false =>
      rw [Role.unmarked_iff_alike hr]
      cases hmarkup : n.isMarkup with
      | false => exact alike_of_not_markup hn.1 hmarkup ih
      | true => exact alike_of_markup hr hn.1 hmarkup ih
    | true =>
      cases r with
      | tagName => exact tagName_unmarked hn.1 ih
      | tagWord =>
        cases n with
        | tagName => exact ⟨_, _, rfl⟩
        | _ => cases hn.1
      | tagAttribute => exact tagAttribute_unmarked hn.1 ih
      | attributeValue =>
        exact attributeValue_unmarked hn (fun part hp => (hbelow part hp).here.1) ih
      | child => exact child_unmarked hn.1 ih
      | _ => cases hr

/-! ## What the parser gives -/

theorem formed_of_statement {c d : Cursor} {n : Node} (h : Parser.statement.Gives c n d) :
    Node.Everywhere (Formed fun _ => True) .statement n := by
  obtain ⟨w, -, hw⟩ := Parser.reads_statement h
  exact .of_bare (fun _ _ => Formed.of_bare) (Grammar.Statement.formed hw fun _ _ => trivial)

theorem formed_of_expression {c d : Cursor} {n : Node} (h : Parser.expression.Gives c n d) :
    Node.Everywhere (Formed fun _ => True) .expression n := by
  obtain ⟨w, -, hw⟩ := Parser.expression_forms h
  exact .of_bare (fun _ _ => Formed.of_bare) (Grammar.Phrase.formed hw fun _ _ => trivial)

/-- Markup reads as the call that it stands for. For whatever the parser gives, be it a program, a
statement at any depth or an expression, the tree without markup has the same text as the tree, and
it is put in parentheses in the same places. -/
theorem markup_reads_as_calls :
    (∀ tokens p, parse tokens = .ok p → render p.unmarked = render p) ∧
    (∀ c n d, Parser.statement.Gives c n d → ∀ depth,
      Script.statement n.unmarked depth = Script.statement n depth ∧
      line n.unmarked depth = line n depth) ∧
    (∀ c n d, Parser.expression.Gives c n d →
      Script.expression n.unmarked = Script.expression n ∧
      operand n.unmarked = operand n ∧
      startsWithObject n.unmarked = startsWithObject n) := by
  refine ⟨fun tokens p h => unmarked_of_formed (formed_of_parse h), ?_, ?_⟩
  · intro c n d h depth
    have halike : Role.statement.Alike n.unmarked n := unmarked_of_formed (formed_of_statement h)
    refine ⟨halike.1 depth, ?_⟩
    unfold line
    rw [halike.1 depth]
  · intro c n d h
    have halike : Script.Alike n.unmarked n := unmarked_of_formed (formed_of_expression h)
    refine ⟨halike.text, ?_, halike.object⟩
    unfold operand
    simp only [halike.text, halike.operandText]

/-- An element that a member is taken of and called, with markup of every form inside. -/
def markedUp : String := "<甲.乙 丙 丁='戊' 己=\x7b-<庚/>\x7d>辛<>\x7b壬\x7d</></甲.乙>.癸()"

theorem markedUp_reads_as_calls :
    ∃ p n d, parse (tokenize markedUp) = .ok p ∧ p.unmarked.same p = false ∧
      render p.unmarked = render p ∧
      Parser.expression.Gives (.ofTokens (tokenize markedUp)) n d ∧
      operand n.unmarked = operand n := by
  obtain ⟨p, hp⟩ : ∃ p, parse (tokenize markedUp) = .ok p := ⟨_, rfl⟩
  obtain ⟨n, d, hn⟩ : ∃ n d, Parser.expression.Gives (.ofTokens (tokenize markedUp)) n d := ⟨_, _, rfl⟩
  have hdiffers : (parse (tokenize markedUp)).toOption.any fun p => !p.unmarked.same p := by decide
  exact ⟨p, n, d, hp, by simpa [hp, Except.toOption] using hdiffers,
    markup_reads_as_calls.1 _ p hp, hn, (markup_reads_as_calls.2.2 _ n d hn).2.1⟩

end HanScript
