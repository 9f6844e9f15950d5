-- Operands with operators between them compile to themselves: the tree that the
-- parser makes of them is one that the renderer needs no parentheses for.
import HanScript.Proofs.Printing.Rebuilt
import HanScript.Proofs.RoundTrip.Program

namespace HanScript

open Grammar Script

/-! ## A statement of one expression -/

/-- The text of a plain expression that begins with no brace is a statement that compiles to
itself. -/
theorem compile_plain {e : Node} {text : String} (he : Plain .expression e)
    (htext : Script.expression e = .ok text) (hbrace : startsWithObject e = false) :
    compile (text ++ ";") = .ok (text ++ ";") := by
  obtain ⟨text', w, l, htext', -, hread⟩ := shown_of_printable transparent_id he.printable
  cases htext.symm.trans htext'
  rw [hbrace, he.lowered_eq] at hread
  have hread := hread.loosen l.one_le_rank
  have hspells := hread.spells.ended transparent_id.signs
  have htokens : (tokenize (text ++ ";")).map Token.terminal =
      w ++ [⟨.semicolon, ";"⟩] ++ [⟨.eof, ""⟩] := by simpa using hspells.tokenize
  obtain ⟨hsentence, -⟩ := sentence_of_terminals htokens (hspells.ne_eof fun _ => id)
  have hprogram : Program (sentence (tokenize (text ++ ";")))
      (.program {} [.expressionStatement {} e.bare]) := by
    rw [hsentence, ← List.append_nil (w ++ _)]
    exact .mk (.cons (.expression hread.phrase hread.not_statementKind .semicolon) .nil)
  obtain ⟨p, hp, hbare⟩ := parse_ok_iff_program.mpr hprogram
  have halike : Script.Alike e.bare e := alike_bare (he.printable.mono fun _ _ h => h.1.1)
  have hrender : render p = .ok (text ++ ";") := by
    rw [← render_bare (conforms_of_parse hp), hbare]
    have hline : Script.statement (.expressionStatement {} e.bare) 0 = .ok (text ++ ";") := by
      unfold Script.statement
      rw [halike.text, halike.object, htext, hbrace]
      rfl
    simp only [render, lines, hline]
    rfl
  exact compile_of_parse hp hrender

/-! ## Chains -/

/-- What may stand between operators: a name, a numeral that has a value, or a word for a value. -/
inductive Operand : String → Prop where
  | name {x} : Scans ⟨.identifier, x⟩ → Operand x
  | number {x} : Scans ⟨.number, x⟩ → (Numeral.value? x).isSome → Operand x
  | word {x} : x ∈ ["true", "false", "null", "undefined"] → Operand x

/-- The operators with a blank on both sides: those of the table, and assignments. -/
def infixes : List String := operatorLevels.map Prod.fst ++ ["=", "+=", "-=", "*=", "/=", "%="]

/-- An operand, and then operators and operands by turns, with a blank between any two of them. -/
def chainText (first : String) (links : List (String × String)) : String :=
  joined " " (first :: links.flatMap fun link => [link.1, link.2])

theorem chainText_cons (first op x : String) (links : List (String × String)) :
    chainText first ((op, x) :: links) = first ++ " " ++ op ++ " " ++ chainText x links := by
  simp [chainText, joined, String.append_assoc]

/-- A chain is made of the chains on both sides of any of its operators. -/
theorem chainText_append (first : String) (front : List (String × String)) (op x : String)
    (back : List (String × String)) :
    chainText first (front ++ (op, x) :: back) =
      chainText first front ++ " " ++ op ++ " " ++ chainText x back := by
  induction front generalizing first with
  | nil => exact chainText_cons first op x back
  | cons link front ih =>
    obtain ⟨op', y⟩ := link
    rw [List.cons_append, chainText_cons, chainText_cons, ih]
    simp only [String.append_assoc]

/-- How tightly an operator binds. -/
def infixRank (op : String) : Nat := (operatorLevels.lookup op).getD assignmentLevel

/-- The operators bind at least as tightly as the level, and there is an operand after each. -/
def LinksAt (l : Level) (links : List (String × String)) : Prop :=
  ∀ link ∈ links, link.1 ∈ infixes ∧ l.rank ≤ infixRank link.1 ∧ Operand link.2

/-- Where no operator is of a level, all bind more tightly. -/
theorem LinksAt.tighter {l m : Level} {links : List (String × String)} (h : LinksAt l links)
    (hne : ∀ link ∈ links, infixRank link.1 ≠ l.rank) (hm : m.rank ≤ l.rank + 1) :
    LinksAt m links := by
  intro link hlink
  obtain ⟨hop, hrank, hx⟩ := h link hlink
  have := hne link hlink
  exact ⟨hop, by omega, hx⟩

/-! ## Trees of chains -/

/-- The text is that of the tree, which binds at least as tightly as the level. -/
structure Verbatim (l : Level) (n : Node) (text : String) : Prop where
  plain : Plain .expression n
  text : Script.expression n = .ok text
  rank : l.rank ≤ precedence n
  not_unary : unaryOperator? n = none
  not_object : startsWithObject n = false

theorem Verbatim.loosen {l m : Level} {n : Node} {text : String} (h : Verbatim m n text)
    (hl : l.rank ≤ m.rank) : Verbatim l n text :=
  ⟨h.plain, h.text, Nat.le_trans hl h.rank, h.not_unary, h.not_object⟩

theorem Operand.verbatim {x : String} (h : Operand x) : ∃ n, Verbatim .primary n x := by
  cases h with
  | name hx => exact ⟨.identifier {} x, .name hx, rfl, Nat.le_refl _, rfl, rfl⟩
  | number hx hvalue =>
    obtain ⟨k, hk⟩ := Option.isSome_iff_exists.mp hvalue
    refine ⟨.literal {} (.number k) x false, .number hx hk, ?_, Nat.le_refl _, rfl, rfl⟩
    simp [Script.expression, literal, numberOr, Numeral.ne_empty hk]
  | word hx =>
    simp only [List.mem_cons, List.not_mem_nil, or_false] at hx
    rcases hx with rfl | rfl | rfl | rfl
    · exact ⟨.literal {} (.truth true) "true" false, .truth, rfl, Nat.le_refl _, rfl, rfl⟩
    · exact ⟨.literal {} (.truth false) "false" false, .falsity, rfl, Nat.le_refl _, rfl, rfl⟩
    · exact ⟨.literal {} .nothing "null" false, .nothing, rfl, Nat.le_refl _, rfl, rfl⟩
    · exact ⟨.identifier {} "undefined", .undefinedWord, rfl, Nat.le_refl _, rfl, rfl⟩

section

variable {e : String × TokenKind} {a b : Node} {left right : String}

theorem mem_of_operatorLevel {op : String} {level : Nat} (h : operatorLevels.lookup op = some level) :
    op ∈ operatorLevels.map Prod.fst := List.mem_map_of_mem (Lexeme.mem_of_lookup h)

/-- An operator that binds to the left takes a looser operand there. -/
theorem Verbatim.leftAssociative {l m : Level} (he : e ∈ signs) (hm : l.tighter? = some m)
    (hk : e.2 ∈ l.operators) (ha : Verbatim l a left) (hb : Verbatim m b right) :
    Verbatim l (.binary {} e.1 a b) (left ++ " " ++ e.1 ++ " " ++ right) := by
  obtain ⟨hlookup, hpower, -, -⟩ := operator_level he hk
  have hrank := Level.rank_tighter hm
  have hright := hb.rank
  have hleft : ¬ precedence a < l.rank := Nat.not_lt.mpr ha.rank
  have hlooser : ¬ precedence b < l.rank := by omega
  have hequal : ¬ precedence b = l.rank := by omega
  have htext : binaryText e.1 a b left right = left ++ " " ++ e.1 ++ " " ++ right := by
    simp [binaryText, hlookup, hpower, parenthesizedIf, hleft, hlooser, hequal]
  refine ⟨.binary (mem_of_operatorLevel hlookup) ha.plain hb.plain,
    bind_eq_ok ha.text (bind_eq_ok hb.text (congrArg Except.ok htext)), ?_, rfl, ha.not_object⟩
  simp [precedence, hlookup]

/-- A power takes a tighter operand on its left. -/
theorem Verbatim.power (he : e ∈ signs) (hk : e.2 = .power) (ha : Verbatim .unary a left)
    (hb : Verbatim .power b right) :
    Verbatim .power (.binary {} e.1 a b) (left ++ " " ++ e.1 ++ " " ++ right) := by
  obtain ⟨hlookup, hpower⟩ := power_level he hk
  have hrank : Level.unary.rank = Level.power.rank + 1 := rfl
  have hleft := ha.rank
  have hlooser : ¬ precedence a < Level.power.rank := by omega
  have hequal : ¬ precedence a = Level.power.rank := by omega
  have hright : ¬ precedence b < Level.power.rank := Nat.not_lt.mpr hb.rank
  have htext : binaryText e.1 a b left right = left ++ " " ++ e.1 ++ " " ++ right := by
    simp [binaryText, hlookup, hpower, parenthesizedIf, hlooser, hequal, hright, ha.not_unary]
  refine ⟨.binary (mem_of_operatorLevel hlookup) ha.plain hb.plain,
    bind_eq_ok ha.text (bind_eq_ok hb.text (congrArg Except.ok htext)), ?_, rfl, ha.not_object⟩
  simp [precedence, hlookup]

/-- What is assigned to binds more tightly than a condition. -/
theorem Verbatim.assignment {op : String} (hop : op ∈ ["=", "+=", "-=", "*=", "/=", "%="])
    (ha : Verbatim .logicalOr a left) (hb : Verbatim .assignment b right) :
    Verbatim .assignment (.assignment {} op a b) (left ++ " " ++ op ++ " " ++ right) := by
  have hrank : Level.logicalOr.rank = conditionalLevel + 1 := rfl
  have hleft := ha.rank
  have hloose : ¬ precedence a ≤ conditionalLevel := by omega
  have htext : looseText a left = left := by
    simp [looseText, hloose, parenthesizedIf]
  refine ⟨.assignment hop ha.plain hb.plain, bind_eq_ok ha.text (bind_eq_ok hb.text ?_),
    Nat.le_refl _, rfl, ha.not_object⟩
  rw [htext]
  rfl

end

/-! ## From the tightest level to the loosest -/

section

variable {α : Type} {p : α → Prop} [DecidablePred p] {xs : List α}

theorem exists_first (h : ∃ x ∈ xs, p x) :
    ∃ front x back, xs = front ++ x :: back ∧ p x ∧ ∀ y ∈ front, ¬ p y := by
  have hsome : (xs.find? fun x => p x).isSome := by simpa using h
  obtain ⟨x, hx⟩ := Option.isSome_iff_exists.mp hsome
  obtain ⟨hp, front, back, rfl, hfront⟩ := List.find?_eq_some_iff_append.mp hx
  exact ⟨front, x, back, rfl, by simpa using hp, by simpa using hfront⟩

theorem exists_last (h : ∃ x ∈ xs, p x) :
    ∃ front x back, xs = front ++ x :: back ∧ p x ∧ ∀ y ∈ back, ¬ p y := by
  have hreverse : ∃ x ∈ xs.reverse, p x := by simpa using h
  obtain ⟨back, x, front, heq, hp, hback⟩ := exists_first hreverse
  refine ⟨front.reverse, x, back.reverse, ?_, hp, by simpa using hback⟩
  rw [← List.reverse_reverse xs, heq]
  simp

end

/-- Every chain of operators that bind at least as tightly as the level has a tree that needs no
parentheses. -/
def Settled (l : Level) : Prop :=
  ∀ first links, Operand first → LinksAt l links → ∃ n, Verbatim l n (chainText first links)

section

variable {l m : Level} (hm : l.tighter? = some m) (h : Settled m)

include hm h

/-- A chain without an operator of the level is one of the next level. -/
theorem Settled.of_none {first : String} {links : List (String × String)} (hfirst : Operand first)
    (hlinks : LinksAt l links) (hnone : ¬ ∃ link ∈ links, infixRank link.1 = l.rank) :
    ∃ n, Verbatim l n (chainText first links) := by
  have hrank := Level.rank_tighter hm
  simp only [not_exists, not_and] at hnone
  obtain ⟨n, hn⟩ := h first links hfirst (hlinks.tighter hnone (by omega))
  exact ⟨n, hn.loosen (by omega)⟩

/-- No operator is of the level. -/
theorem Settled.without (hl : ∀ op ∈ infixes, infixRank op ≠ l.rank) : Settled l := by
  intro first links hfirst hlinks
  refine h.of_none hm hfirst hlinks ?_
  rintro ⟨link, hlink, hrank⟩
  exact hl _ (hlinks link hlink).1 hrank

/-- The last operator of a level that binds to the left is that of the whole tree. -/
theorem Settled.leftward (hl : ∀ op ∈ infixes, infixRank op = l.rank →
      ∃ e ∈ signs, e.1 = op ∧ e.2 ∈ l.operators) : Settled l := by
  intro first links hfirst hlinks
  induction hk : links.length using Nat.strongRecOn generalizing links with
  | ind k ih =>
    by_cases hany : ∃ link ∈ links, infixRank link.1 = l.rank
    · obtain ⟨front, ⟨op, x⟩, back, rfl, hop, hback⟩ := exists_last hany
      simp only [LinksAt, List.forall_mem_append, List.forall_mem_cons] at hlinks
      obtain ⟨hfront, ⟨hmem, -, hx⟩, hrest⟩ := hlinks
      obtain ⟨a, ha⟩ := ih front.length (by simp at hk; omega) front hfront rfl
      have hrank := Level.rank_tighter hm
      obtain ⟨b, hb⟩ := h x back hx (LinksAt.tighter hrest hback (by omega))
      obtain ⟨e, he, rfl, hkind⟩ := hl op hmem hop
      rw [chainText_append]
      exact ⟨_, ha.leftAssociative he hm hkind hb⟩
    · exact h.of_none hm hfirst hlinks hany

omit h in
/-- The first operator of a level that binds to the right is that of the whole tree. On its left
there is what `tight` stands for. -/
theorem Settled.rightward {tight : Level} (h : Settled m) (htight : Settled tight)
    (hlinks : ∀ links, LinksAt m links → LinksAt tight links)
    (hl : ∀ op ∈ infixes, infixRank op = l.rank → ∀ a b left right, Verbatim tight a left →
      Verbatim l b right → ∃ n, Verbatim l n (left ++ " " ++ op ++ " " ++ right)) : Settled l := by
  intro first links hfirst hlinksAt
  induction hk : links.length using Nat.strongRecOn generalizing first links with
  | ind k ih =>
    by_cases hany : ∃ link ∈ links, infixRank link.1 = l.rank
    · obtain ⟨front, ⟨op, x⟩, back, rfl, hop, hfront⟩ := exists_first hany
      simp only [LinksAt, List.forall_mem_append, List.forall_mem_cons] at hlinksAt
      obtain ⟨hbefore, ⟨hmem, -, hx⟩, hback⟩ := hlinksAt
      have hrank := Level.rank_tighter hm
      obtain ⟨a, ha⟩ := htight first front hfirst
        (hlinks front (LinksAt.tighter hbefore hfront (by omega)))
      obtain ⟨b, hb⟩ := ih back.length (by simp at hk; omega) x back hx hback rfl
      rw [chainText_append]
      exact hl op hmem hop a b _ _ ha hb
    · exact h.of_none hm hfirst hlinksAt hany

end

theorem settled_primary : Settled .primary := by
  intro first links hfirst hlinks
  cases links with
  | nil => exact hfirst.verbatim
  | cons link links =>
    have hall : ∀ op ∈ infixes, ¬ Level.primary.rank ≤ infixRank op := by decide
    obtain ⟨hmem, hrank, -⟩ := hlinks link List.mem_cons_self
    exact absurd hrank (hall _ hmem)

theorem settled_power : Settled .power := by
  have hunary : Settled .unary := (settled_primary.without rfl (by decide)).without rfl (by decide)
  refine .rightward rfl hunary hunary (fun _ h => h) fun op hop hrank a b left right ha hb => ?_
  have hall : ∀ op ∈ infixes, infixRank op = Level.power.rank → ∃ e ∈ signs, e.1 = op ∧ e.2 = .power := by
    decide
  obtain ⟨e, he, rfl, hkind⟩ := hall op hop hrank
  exact ⟨_, ha.power he hkind hb⟩

theorem settled_logicalOr : Settled .logicalOr := by
  have hmultiplicative : Settled .multiplicative := settled_power.leftward rfl (by decide)
  have hadditive : Settled .additive := hmultiplicative.leftward rfl (by decide)
  have hrelational : Settled .relational := hadditive.leftward rfl (by decide)
  have hequality : Settled .equality := hrelational.leftward rfl (by decide)
  have hand : Settled .logicalAnd := hequality.leftward rfl (by decide)
  exact hand.leftward rfl (by decide)

theorem settled_assignment : Settled .assignment := by
  have hnone : ∀ op ∈ infixes, infixRank op ≠ Level.conditional.rank := by decide
  have hconditional : Settled .conditional := settled_logicalOr.without rfl hnone
  refine .rightward rfl hconditional settled_logicalOr ?_ fun op hop hrank a b left right ha hb => ?_
  · intro links hlinks
    exact hlinks.tighter (fun link hlink => hnone _ (hlinks link hlink).1) (Nat.le_refl _)
  · have hall : ∀ op ∈ infixes, infixRank op = Level.assignment.rank →
        op ∈ ["=", "+=", "-=", "*=", "/=", "%="] := by decide
    exact ⟨_, ha.assignment (hall op hop hrank) hb⟩

/-- Operands with operators between them compile to themselves. -/
theorem operator_chain_compiles_to_itself {first : String} {links : List (String × String)}
    (hfirst : Operand first) (hlinks : ∀ link ∈ links, link.1 ∈ infixes ∧ Operand link.2) :
    compile (joined " " (first :: links.flatMap fun link => [link.1, link.2]) ++ ";") =
      .ok (joined " " (first :: links.flatMap fun link => [link.1, link.2]) ++ ";") := by
  have hall : ∀ op ∈ infixes, Level.assignment.rank ≤ infixRank op := by decide
  obtain ⟨n, hn⟩ := settled_assignment first links hfirst fun link hlink =>
    ⟨(hlinks link hlink).1, hall _ (hlinks link hlink).1, (hlinks link hlink).2⟩
  exact compile_plain hn.plain hn.text hn.not_object

/-- Operators of most levels, in an order that makes trees of both directions. -/
def mixedLinks : List (String × String) :=
  [("=", "b"), ("-", "2"), ("**", "c"), ("**", "0x1F"), ("-", "1.5"), ("<", "true"), ("+=", "null")]

theorem mixedLinks_compile_to_themselves :
    (∀ link ∈ mixedLinks, link.1 ∈ infixes ∧ Operand link.2) ∧
      compile "甲 = b - 2 ** c ** 0x1F - 1.5 < true += null;" =
        .ok "甲 = b - 2 ** c ** 0x1F - 1.5 < true += null;" := by
  have hname : ∀ x ∈ ["甲", "b", "c"], Operand x := fun x hx =>
    .name (by unfold Scans; revert x; decide)
  have hnumber : ∀ x ∈ ["2", "0x1F", "1.5"], Operand x := fun x hx =>
    .number (by unfold Scans; revert x; decide) (by revert x; decide)
  have hlinks : ∀ link ∈ mixedLinks, link.1 ∈ infixes ∧ Operand link.2 := by
    simp only [mixedLinks, List.forall_mem_cons]
    exact ⟨⟨by decide, hname _ (by decide)⟩, ⟨by decide, hnumber _ (by decide)⟩,
      ⟨by decide, hname _ (by decide)⟩, ⟨by decide, hnumber _ (by decide)⟩,
      ⟨by decide, hnumber _ (by decide)⟩, ⟨by decide, .word (by decide)⟩,
      ⟨by decide, .word (by decide)⟩, List.forall_mem_nil _⟩
  have htext : joined " " ("甲" :: mixedLinks.flatMap fun link => [link.1, link.2]) ++ ";" =
      "甲 = b - 2 ** c ** 0x1F - 1.5 < true += null;" := by decide
  have hcompiles := operator_chain_compiles_to_itself (hname "甲" (by decide)) hlinks
  rw [htext] at hcompiles
  exact ⟨hlinks, hcompiles⟩

end HanScript
