-- The renderer puts parentheses wherever two pieces would run together: the text of
-- every expression, with its markup, is a row of pieces that may stand side by side.
import HanScript.Proofs.Conformance.Rendered
import HanScript.Proofs.Printing.Markup
import HanScript.Proofs.Printing.Rows

namespace HanScript

open Grammar Script Vocabulary

theorem mapM_ok {α β : Type} {P : β → Prop} {f : α → Except RenderError β} {as : List α}
    (h : ∀ a ∈ as, ∃ b, f a = .ok b ∧ P b) : ∃ bs, as.mapM f = .ok bs ∧ ∀ b ∈ bs, P b := by
  have hvalues : ∀ a ∈ as, ∃ c : { b // P b }, f a = .ok c.val := by
    intro a ha
    obtain ⟨b, hb, hP⟩ := h a ha
    exact ⟨⟨b, hP⟩, hb⟩
  obtain ⟨cs, hcs⟩ := Succeeds.mapM hvalues
  refine ⟨_, hcs, fun b hb => ?_⟩
  obtain ⟨c, -, rfl⟩ := List.mem_map.mp hb
  exact c.property

section

variable {a b c : Node} (s : Span)

/-! ## Operators -/

theorem arranged_binary {op : String} (hop : (Node.binary s op a b).FormedOf Lexical .expression)
    (ha : Arranged a) (hb : Arranged b) : Arranged (.binary s op a b) := by
  obtain ⟨left, ps, ha⟩ := ha
  obtain ⟨right, qs, hb⟩ := hb
  have hsign : ∃ kind, (op, kind) ∈ signs ∧ kind ∉ pointKinds := by
    obtain ⟨kind, hlexical, hkind⟩ := hop
    rcases hkind with rfl | ⟨l, hl⟩
    · exact ⟨.power, hlexical.sign (by decide : .power ∈ signs.map Prod.snd), by decide⟩
    · have hall : ∀ kind ∈ l.operators, kind ∈ signs.map Prod.snd ∧ kind ∉ pointKinds := by
        cases l <;> decide
      exact ⟨kind, hlexical.sign (hall kind hl).1, (hall kind hl).2⟩
  obtain ⟨kind, he, hk⟩ := hsign
  obtain ⟨ps', hleft, -⟩ := ha.toLaid.wrapped _
  obtain ⟨qs', hright, -⟩ := hb.toLaid.wrapped _
  exact ⟨_, _, .loose (hleft.operator he hk hright)
    (bind_eq_ok ha.text_eq (bind_eq_ok hb.text_eq rfl)) (binary_level op)⟩

theorem arranged_assignment {op : String}
    (hop : (Node.assignment s op a b).FormedOf Lexical .expression)
    (ha : Arranged a) (hb : Arranged b) : Arranged (.assignment s op a b) := by
  obtain ⟨left, ps, ha⟩ := ha
  obtain ⟨right, qs, hb⟩ := hb
  obtain ⟨kind, hkind, hlexical⟩ := hop
  have hall : ∀ kind ∈ assignmentOperators, kind ∈ signs.map Prod.snd ∧ kind ∉ pointKinds := by decide
  have he : (op, kind) ∈ signs := hlexical.sign (hall kind hkind).1
  obtain ⟨ps', hleft, -⟩ := ha.toLaid.wrapped _
  exact ⟨_, _, .loose (hleft.operator he (hall kind hkind).2 hb.toLaid)
    (bind_eq_ok ha.text_eq (bind_eq_ok hb.text_eq rfl)) (by decide : assignmentLevel < unaryLevel)⟩

theorem arranged_conditional (ha : Arranged a) (hb : Arranged b) (hc : Arranged c) :
    Arranged (.conditional s a b c) := by
  obtain ⟨test, ps, ha⟩ := ha
  obtain ⟨consequent, qs, hb⟩ := hb
  obtain ⟨alternate, rs, hc⟩ := hc
  obtain ⟨ps', htest, -⟩ := ha.toLaid.wrapped (precedence a ≤ conditionalLevel)
  have hquestion := htest.operator (e := ("?", .question)) (by decide) (by decide) hb.toLaid
  have hcolon := hquestion.operator (e := (":", .colon)) (by decide) (by decide) hc.toLaid
  have htext : Script.expression (.conditional s a b c) = .ok (looseText a test ++ " " ++ "?" ++ " " ++
      consequent ++ " " ++ ":" ++ " " ++ alternate) := by
    refine bind_eq_ok ha.text_eq (bind_eq_ok hb.text_eq (bind_eq_ok hc.text_eq ?_))
    simp only [String.append_assoc]
    rfl
  exact ⟨_, _, .loose hcolon htext (by decide : conditionalLevel < unaryLevel)⟩

/-- A sign is not put before the same sign, unless the two stay apart. -/
theorem arranged_unary {op : String} {before : Bool}
    (hop : (Node.unary s op a before).FormedOf Lexical .expression) (ha : Arranged a) :
    Arranged (.unary s op a before) := by
  obtain ⟨rfl, kind, hkind, hlexical⟩ := hop
  obtain ⟨argument, ps, ha⟩ := ha
  have hsigns : ∀ kind ∈ unaryOperators, kind ∈ signs.map Prod.snd := by decide
  have hwords : ∀ e ∈ signs, e.2 ∈ unaryOperators → e.1 ≠ "-" → e.1 ≠ "+" → e.1 = "!" := by decide
  have he : (op, kind) ∈ signs := hlexical.sign (hsigns kind hkind)
  obtain ⟨qs, hqs, hhead, -⟩ := ha.toLaid.wrapped (precedence a < unaryLevel ||
    (op == "-" || op == "+") && unaryOperator? a == some op)
  have hmeet : ∀ q ∈ qs.head?, Piece.Meets (.sign (op, kind) he hkind) q := by
    intro q hq
    refine .signed fun e he' hu' heq hsame => ?_
    subst heq
    rcases hhead _ hq with hglue | ⟨hneeded, hq⟩
    · cases hglue
    · obtain ⟨hlevel, hdiffer⟩ : ¬ precedence a < unaryLevel ∧
          ((op = "-" ∨ op = "+") → unaryOperator? a ≠ some op) := by simpa using hneeded
      have hunary := (ha.begins e he' hu' hq).resolve_left hlevel
      rw [hsame] at hunary
      apply hwords _ he hkind
      · exact fun hop => hdiffer (.inl hop) hunary
      · exact fun hop => hdiffer (.inr hop) hunary
  have hsign : Laid op [.sign (op, kind) he hkind] := .piece rfl
  have hlaid := hsign.append hqs (by simpa using hmeet)
  refine ⟨_, _, hlaid, bind_eq_ok ha.text_eq rfl, fun e he' hu' hp => ?_, fun _ _ _ => ?_⟩
  · cases hp
    exact .inr rfl
  · exact .inl (by decide : unaryLevel < callLevel)

/-! ## Calls and members -/

theorem arranged_call {arguments : List Node} (ha : Arranged a) (hargs : ∀ n ∈ arguments, Arranged n) :
    Arranged (.call s a arguments) := by
  obtain ⟨text, ps, ha⟩ := ha
  obtain ⟨qs, hqs, hhead, -⟩ := ha.operand
  obtain ⟨texts, htexts, hrows⟩ := mapM_ok fun n hn => (hargs n hn).rowed
  obtain ⟨rs, hrs⟩ := laid_listed hrows
  rw [← expressions_eq_mapM] at htexts
  exact ⟨_, _, .closed hqs hhead hrs (x := "(") (y := ")") (by decide) (by decide)
    (bind_eq_ok htexts (bind_eq_ok ha.text_eq rfl))⟩

theorem arranged_computed (ha : Arranged a) (hb : Arranged b) : Arranged (.member s a b true) := by
  obtain ⟨text, ps, ha⟩ := ha
  obtain ⟨index, rs, hb⟩ := hb
  obtain ⟨qs, hqs, hhead, -⟩ := ha.operand
  have htext : Script.expression (.member s a b true) =
      .ok (operandText a text ++ ("[" ++ index ++ "]")) := by
    refine bind_eq_ok ha.text_eq (bind_eq_ok hb.text_eq ?_)
    simp only [String.append_assoc]
    rfl
  exact ⟨_, _, .closed hqs hhead hb.toLaid (by decide) (by decide) htext⟩

/-- Where the owner ends with an integer, it is a number and in parentheses. -/
theorem arranged_member {t : Span} {x : String} (ha : Arranged a) (hx : IsWord x) :
    Arranged (.member s a (.identifier t x) false) := by
  obtain ⟨text, ps, ha⟩ := ha
  obtain ⟨qs, hqs, hhead, hlast⟩ := ha.operand
  obtain ⟨bare, hbare⟩ := isBareInteger_of_expression ha.text_eq
  obtain ⟨rs, hrs, hhead', hlast'⟩ := hqs.wrapped bare
  have hunsigned : Unsigned rs := by
    intro p hp
    rcases hhead' p hp with hglue | ⟨-, hp⟩
    · exact not_sign_of_glue hglue
    · exact hhead p hp
  have hpointable : Pointable rs := by
    intro p hp
    rcases hlast' p hp with hglue | ⟨rfl, hp⟩
    · exact not_integer_of_glue hglue
    · by_cases hinteger : p.isInteger
      · have htrue := hlast p hp hinteger
        rw [hbare] at htrue
        cases htrue
      · simpa using hinteger
  exact ⟨_, _, .tight (hrs.pointed hpointable hx) (bind_eq_ok ha.text_eq (bind_eq_ok hbare rfl))
    (hunsigned.append (unsigned_cons rfl)) (pointable_concat rfl)⟩

/-! ## Lists -/

theorem arranged_array {items : List Node} (h : ∀ n ∈ items, n = .absent ∨ Arranged n) :
    Arranged (.array s items) := by
  have hslots : ∀ n ∈ items, ∃ o, slot n = .ok o ∧ ∃ ps, Laid (o.getD "") ps := by
    intro n hn
    rcases h n hn with rfl | hn
    · exact ⟨none, rfl, [], .nothing⟩
    · obtain ⟨text, htext, hps⟩ := hn.rowed
      refine ⟨some text, ?_, hps⟩
      cases n with
      | absent => cases htext
      | _ => exact bind_eq_ok htext rfl
  obtain ⟨texts, htexts, hrows⟩ := mapM_ok hslots
  have hitems : ∀ x ∈ texts.map (·.getD ""), ∃ ps, Laid x ps := by simpa using hrows
  obtain ⟨ps, hps⟩ := laid_listed hitems
  rw [← slots_eq_mapM] at htexts
  have hinside : ∃ qs, Laid (inside texts) qs := by
    unfold inside
    split
    · have hcomma := hps.glued (x := ",") (g := .bracket "," (by decide)) rfl rfl .nothing
      exact ⟨_, by simpa using hcomma⟩
    · exact ⟨ps, by simpa using hps⟩
  obtain ⟨qs, hqs⟩ := hinside
  have htext : Script.expression (.array s items) = .ok ("" ++ ("[" ++ inside texts ++ "]")) := by
    refine bind_eq_ok htexts ?_
    rw [elements_eq, String.empty_append]
    rfl
  exact ⟨_, _, .closed .nothing unsigned_nil hqs (by decide) (by decide) htext⟩

theorem arranged_object {properties : List Node} (h : ∀ n ∈ properties, Rowed (pair n)) :
    Arranged (.object s properties) := by
  obtain ⟨texts, htexts, hrows⟩ := mapM_ok h
  rw [← pairs_eq_mapM] at htexts
  cases texts with
  | nil =>
    exact ⟨_, _, .atom (p := .bracket "\x7b\x7d" (by decide)) rfl (bind_eq_ok htexts rfl) rfl rfl⟩
  | cons x rest =>
    obtain ⟨ps, hps⟩ := laid_listed hrows
    have htext : Script.expression (.object s properties) =
        .ok ("" ++ ("\x7b " ++ listed (x :: rest) ++ " \x7d")) := by
      refine bind_eq_ok htexts ?_
      rw [String.empty_append]
      rfl
    exact ⟨_, _, .closed .nothing unsigned_nil hps (by decide) (by decide) htext⟩

/-! ## Names and literals -/

theorem laid_word {x : String} (h : IsWord x) : ∃ ps, Laid x ps := ⟨[.word x h], .piece rfl⟩

theorem laid_quote {x : String} (h : '\\' ∉ x.toList) : ∃ ps, Laid (quote x) ps :=
  ⟨[.quoted '"' x (.inl rfl) h], .piece rfl⟩

theorem arranged_word {n : Node} {x : String} (hx : IsWord x) (htext : Script.expression n = .ok x) :
    Arranged n :=
  ⟨x, _, .atom (p := .word x hx) rfl htext rfl rfl⟩

theorem arranged_identifier {x : String} (hx : (Node.identifier s x).FormedOf Lexical .expression) :
    Arranged (.identifier s x) := by
  rcases hx with hx | ⟨-, rfl⟩
  · exact arranged_word (hx.name rfl).1 rfl
  · exact arranged_word ⟨by decide, by decide⟩ rfl

theorem digitOfAnyScript_of_digit {c : Char} (h : Text.isDigit c) : Text.isDigitOfAnyScript c := by
  have hrange : 0x30 ≤ c.toNat ∧ c.toNat < 0x30 + 10 := by
    simp only [Text.isDigit, Bool.and_eq_true, decide_eq_true_eq, Char.le_def,
      UInt32.le_iff_toNat_le] at h
    exact ⟨h.1, Nat.lt_succ_of_le h.2⟩
  have hfind : (Text.zeros.find? fun z => z ≤ c.toNat && c.toNat < z + 10) = some 0x30 :=
    List.find?_cons_of_pos (by simpa using hrange)
  simp [Text.isDigitOfAnyScript, Text.decimalValue?, hfind]

/-- A number that is an integer as a piece of text is one for the renderer. -/
theorem arranged_number {k : Number} {raw : String} (hraw : raw.isEmpty = false) (hx : IsNumeral raw) :
    Arranged (.literal s (.number k) raw false) := by
  have htext : numberOr raw k = .ok raw := by simp [numberOr, hraw]
  have hexpression : Script.expression (.literal s (.number k) raw false) = .ok raw := by
    simpa [Script.expression, literal] using htext
  refine ⟨raw, [.number raw hx], .piece rfl, hexpression, fun e he hu hp => ?_, fun p hp hinteger => ?_⟩
  · cases hp
  · cases hp
    have hdigits : raw.toList.all Text.isDigitOfAnyScript :=
      List.all_eq_true.mpr fun c hc => digitOfAnyScript_of_digit (List.all_eq_true.mp hinteger c hc)
    refine .inr (bind_eq_ok htext ?_)
    rw [hraw, hdigits]
    rfl

theorem arranged_literal {value : Value} {raw : String} {isTemplate : Bool}
    (hn : Node.isSoundLiteral value raw isTemplate)
    (hl : (Node.literal s value raw isTemplate).FormedOf Lexical .expression)
    (hq : (Node.literal s value raw isTemplate).Quotable) :
    Arranged (.literal s value raw isTemplate) := by
  cases value with
  | text x =>
    cases isTemplate with
    | true => exact ⟨_, _, .atom (p := .quoted '\x60' x (.inr rfl) hq) rfl rfl rfl rfl⟩
    | false => exact ⟨_, _, .atom (p := .quoted '"' x (.inl rfl) hq) rfl rfl rfl rfl⟩
  | number k =>
    simp only [Node.isSoundLiteral, Bool.and_eq_true, Bool.not_eq_true'] at hn
    obtain ⟨rfl, hraw⟩ := hn
    exact arranged_number s hraw (hl.1.number rfl)
  | truth b =>
    simp only [Node.isSoundLiteral, Bool.not_eq_true'] at hn
    subst hn
    cases b with
    | true => exact arranged_word (x := "true") ⟨by decide, by decide⟩ rfl
    | false => exact arranged_word (x := "false") ⟨by decide, by decide⟩ rfl
  | nothing =>
    simp only [Node.isSoundLiteral, Bool.not_eq_true'] at hn
    subst hn
    exact arranged_word (x := "null") ⟨by decide, by decide⟩ rfl

end

/-! ## Markup -/

/-- What the renderer says of a node in its role is a row of pieces. -/
def Role.Arranged : Role → Node → Prop
  | expression, n => HanScript.Arranged n
  | optional, n => n = .absent ∨ HanScript.Arranged n
  | word, n => ∃ s x, n = .identifier s x ∧ IsWord x
  | property, n => Rowed (pair n)
  | tagName, n => Rowed (tag n) ∧
    ∃ text ps, Script.reference n = .ok text ∧ Laid text ps ∧ Pointable ps
  | tagWord, n => ∃ s x, n = .tagName s x ∧ IsWord x
  | tagAttribute, n => Rowed (prop n)
  | attributeValue, n => Rowed (propValue n)
  | child, n => Rowed (Script.child n)
  | _, _ => True

/-- Items in braces, or what stands for none of them. -/
theorem laid_braced {none : String} (hnone : ∃ ps, Laid none ps) {texts : List String}
    (h : ∀ x ∈ texts, ∃ ps, Laid x ps) : ∃ ps, Laid (braced none texts) ps := by
  cases texts with
  | nil => exact hnone
  | cons =>
    obtain ⟨ps, hps⟩ := laid_listed h
    exact ⟨_, hps.enclosed (x := "\x7b ") (y := " \x7d") (by decide) (by decide)⟩

theorem laid_react {x : String} (hx : IsWord x) :
    Laid ("React" ++ "." ++ x) ([.word "React" ⟨by decide, by decide⟩] ++ [.field x hx]) :=
  Laid.pointed (.piece rfl) (@pointable_concat [] _ rfl) hx

/-- The call that makes an element. -/
theorem arranged_createElement {n : Node} {tag props : String} {texts : List String}
    (htag : ∃ ps, Laid tag ps) (hprops : ∃ ps, Laid props ps) (htexts : ∀ x ∈ texts, ∃ ps, Laid x ps)
    (htext : Script.expression n = .ok (createElement tag props texts)) : Arranged n := by
  have hcallee := laid_react (x := "createElement") ⟨by decide, by decide⟩
  obtain ⟨ps, hps⟩ := laid_listed
    (List.forall_mem_cons.mpr ⟨htag, List.forall_mem_cons.mpr ⟨hprops, htexts⟩⟩)
  exact ⟨_, _, .closed hcallee (unsigned_cons rfl) hps (x := "(") (y := ")") (by decide) (by decide) htext⟩

theorem arranged_element {name : Node} {attributes items : List Node} (s : Span) (selfClosing : Bool)
    (hname : Role.tagName.Arranged name) (hattributes : ∀ n ∈ attributes, Rowed (prop n))
    (hitems : ∀ n ∈ items, Rowed (Script.child n)) :
    Arranged (.element s name attributes items selfClosing) := by
  obtain ⟨⟨tag, htag, hlaid⟩, -⟩ := hname
  obtain ⟨texts, htexts, hrows⟩ := mapM_ok hitems
  obtain ⟨attributeTexts, hprops, hattributeRows⟩ := mapM_ok hattributes
  rw [← children_eq_mapM] at htexts
  rw [← props_eq_mapM] at hprops
  have hnull := laid_word (x := "null") ⟨by decide, by decide⟩
  exact arranged_createElement hlaid (laid_braced hnull hattributeRows) hrows
    (bind_eq_ok htag (bind_eq_ok hprops (bind_eq_ok htexts rfl)))

theorem arranged_fragment {items : List Node} (s : Span) (hitems : ∀ n ∈ items, Rowed (Script.child n)) :
    Arranged (.fragment s items) := by
  obtain ⟨texts, htexts, hrows⟩ := mapM_ok hitems
  rw [← children_eq_mapM] at htexts
  have hfragment := laid_react (x := "Fragment") ⟨by decide, by decide⟩
  exact arranged_createElement ⟨_, hfragment⟩ (laid_word (x := "null") ⟨by decide, by decide⟩) hrows
    (bind_eq_ok htexts rfl)

/-! ## The parts of markup -/

section

variable {n : Node} (hparts : ∀ part ∈ n.parts, part.1.Arranged part.2)

include hparts

theorem arranged_tagName (hn : Role.tagName.admits n) (hf : n.FormedOf Lexical .tagName) :
    Role.tagName.Arranged n := by
  cases n with
  | tagName s x =>
    have hx : IsName x := hf.name rfl
    exact ⟨⟨_, rfl, laid_quote hx.no_backslash⟩, x, [.word x hx.1], rfl, .piece rfl,
      @pointable_concat [] _ rfl⟩
  | tagMember s owner field =>
    simp only [Node.parts, List.forall_mem_cons] at hparts
    obtain ⟨⟨-, path, ps, hpath, hlaid, hlast⟩, ⟨t, x, rfl, hx⟩, -⟩ := hparts
    have htext : Script.reference (.tagMember s owner (.tagName t x)) = .ok (path ++ "." ++ x) :=
      bind_eq_ok hpath rfl
    have hmember := hlaid.pointed hlast hx
    exact ⟨⟨_, htext, _, hmember⟩, _, _, htext, hmember, pointable_concat rfl⟩
  | _ => cases hn

omit hparts in
/-- A name with its value. -/
theorem rowed_keyed {x : String} (hx : IsWord x) {text? : Except RenderError String}
    (h : Rowed text?) : Rowed (text? >>= fun text => pure (x ++ ": " ++ text)) := by
  obtain ⟨text, htext, ps, hps⟩ := h
  have hkey : Laid x [.word x hx] := .piece rfl
  exact ⟨_, bind_eq_ok htext rfl, _, hkey.glued (g := .bracket ": " (by decide)) rfl rfl hps⟩

theorem arranged_property (hn : Role.property.admits n) : Role.property.Arranged n := by
  cases n with
  | property s key value =>
    simp only [Node.parts, List.forall_mem_cons] at hparts
    obtain ⟨⟨t, x, rfl, hx⟩, hvalue, -⟩ := hparts
    exact rowed_keyed hx hvalue.rowed
  | _ => cases hn

theorem arranged_tagAttribute (hn : Role.tagAttribute.admits n) : Role.tagAttribute.Arranged n := by
  cases n with
  | tagAttribute s name value =>
    simp only [Node.parts, List.forall_mem_cons] at hparts
    obtain ⟨⟨t, x, rfl, hx⟩, hvalue, -⟩ := hparts
    exact rowed_keyed hx hvalue
  | _ => cases hn

theorem arranged_attributeValue (hn : Role.attributeValue.admits n) (hq : n.Quotable) :
    Role.attributeValue.Arranged n := by
  cases n with
  | absent => exact ⟨_, rfl, laid_word (x := "true") ⟨by decide, by decide⟩⟩
  | literal s value raw isTemplate =>
    cases value with
    | text x => exact ⟨_, rfl, laid_quote hq⟩
    | _ => cases hn
  | container _ e =>
    simp only [Node.parts, List.forall_mem_cons] at hparts
    exact hparts.1.rowed
  | _ => cases hn

theorem arranged_child (hn : Role.child.admits n) (hq : n.Quotable) : Role.child.Arranged n := by
  cases n with
  | markupText s x => exact ⟨_, rfl, laid_quote hq⟩
  | container _ e =>
    simp only [Node.parts, List.forall_mem_cons] at hparts
    exact hparts.1.rowed
  | element s name attributes items selfClosing =>
    simp only [Node.parts, List.forall_mem_append, List.forall_mem_cons, List.forall_mem_map] at hparts
    exact (arranged_element s selfClosing hparts.1.1 hparts.1.2 hparts.2).rowed
  | fragment s items =>
    simp only [Node.parts, List.forall_mem_map] at hparts
    exact (arranged_fragment s hparts).rowed
  | _ => cases hn

/-! ## All the way down -/

theorem arranged_of_parts (hn : n.isExpression) (hf : n.FormedOf Lexical .expression)
    (hq : n.Quotable) : Arranged n := by
  cases n with
  | identifier s x => exact arranged_identifier s hf
  | literal s => exact arranged_literal s hn hf hq
  | binary s op a b =>
    simp only [Node.parts, List.forall_mem_cons] at hparts
    exact arranged_binary s hf hparts.1 hparts.2.1
  | unary s op a before =>
    simp only [Node.parts, List.forall_mem_cons] at hparts
    exact arranged_unary s hf hparts.1
  | assignment s op a b =>
    simp only [Node.parts, List.forall_mem_cons] at hparts
    exact arranged_assignment s hf hparts.1 hparts.2.1
  | conditional s a b c =>
    simp only [Node.parts, List.forall_mem_cons] at hparts
    exact arranged_conditional s hparts.1 hparts.2.1 hparts.2.2.1
  | call s callee arguments =>
    simp only [Node.parts, List.forall_mem_cons, List.forall_mem_map] at hparts
    exact arranged_call s hparts.1 hparts.2
  | member s owner field computed =>
    simp only [Node.parts, List.forall_mem_cons] at hparts
    cases computed with
    | true => exact arranged_computed s hparts.1 hparts.2.1
    | false =>
      obtain ⟨t, x, rfl, hx⟩ := hf.resolve_left (by intro h; cases h)
      exact arranged_member s hparts.1 (hx.name rfl).1
  | array s items =>
    simp only [Node.parts, List.forall_mem_map] at hparts
    exact arranged_array s hparts
  | object s properties =>
    simp only [Node.parts, List.forall_mem_map] at hparts
    exact arranged_object s hparts
  | element s name attributes items selfClosing =>
    simp only [Node.parts, List.forall_mem_append, List.forall_mem_cons, List.forall_mem_map] at hparts
    exact arranged_element s selfClosing hparts.1.1 hparts.1.2 hparts.2
  | fragment s items =>
    simp only [Node.parts, List.forall_mem_map] at hparts
    exact arranged_fragment s hparts
  | _ => cases hn

end

/-- In each role, what is formed of tokens and has no backslash in its texts is a row of pieces. -/
theorem arranged_of_formed {r : Role} {n : Node}
    (h : Node.Everywhere (fun r n => Formed Lexical r n ∧ n.Quotable) r n) : r.Arranged n := by
  induction h with
  | @mk r n hn _ ih =>
    obtain ⟨⟨hadmits, hf⟩, hq⟩ := hn
    cases r with
    | expression => exact arranged_of_parts ih hadmits hf hq
    | optional =>
      cases n with
      | absent => exact .inl rfl
      | _ => exact .inr (arranged_of_parts ih hadmits (hf.operand rfl) hq)
    | word =>
      cases n with
      | identifier s x => exact ⟨s, x, rfl, ((hf.resolve_right nofun).name rfl).1⟩
      | _ => cases hadmits
    | tagWord =>
      cases n with
      | tagName s x => exact ⟨s, x, rfl, (hf.name rfl).1⟩
      | _ => cases hadmits
    | property => exact arranged_property ih hadmits
    | tagName => exact arranged_tagName ih hadmits hf
    | tagAttribute => exact arranged_tagAttribute ih hadmits
    | attributeValue => exact arranged_attributeValue ih hadmits hq
    | child => exact arranged_child ih hadmits hq
    | _ => trivial

end HanScript
