-- Which `if` an `else` belongs to. The text of an `if` has no braces of its own,
-- so that an `else` after it is read with the nearest `if` that has none yet. In
-- what is parsed, that is the `if` that it belongs to.
import HanScript.Proofs.Conformance.Rendered
import HanScript.Proofs.Printing.Each

namespace HanScript

namespace Node

/-- An `else` after the node would not be taken by an `if` inside what stands before it. -/
def ElseIsClear : Node → Prop
  | ifElse _ _ consequent alternate => alternate.isAbsent ∨ consequent.endsOpen = false
  | _ => True

/-! ## How texts are read -/

/-- The statement with an `else` after its text. The nearest `if` that has none takes it. -/
def withElse : Node → Node → Node
  | ifElse s t c absent, a =>
    if c.endsOpen then ifElse s t (c.withElse a) absent else ifElse s t c a
  | ifElse s t c other, a => ifElse s t c (other.withElse a)
  | whileLoop s t body, a => whileLoop s t (body.withElse a)
  | forLoop s i t u body, a => forLoop s i t u (body.withElse a)
  | exporting s n isDefault, a => exporting s (n.withElse a) isDefault
  | n, _ => n

/-- An `if` as its text is read. -/
def ifRead (s : Span) (t c a : Node) : Node :=
  if a.isAbsent || !c.endsOpen then ifElse s t c a else ifElse s t (c.withElse a) absent

mutual

/-- The tree as its text is read: every `else` is given to the nearest `if`. -/
def asRead : Node → Node
  | program s body => program s (asReadAll body)
  | block s body => block s (asReadAll body)
  | function s name params body => function s name params (asRead body)
  | ifElse s t c a => ifRead s t (asRead c) (asRead a)
  | whileLoop s t body => whileLoop s t (asRead body)
  | forLoop s i t u body => forLoop s i t u (asRead body)
  | exporting s n isDefault => exporting s (asRead n) isDefault
  | n => n

def asReadAll : List Node → List Node
  | [] => []
  | n :: ns => asRead n :: asReadAll ns

end

theorem asReadAll_eq_map (ns : List Node) : asReadAll ns = ns.map asRead := by
  induction ns with
  | nil => rfl
  | cons n ns ih => simp [asReadAll, ih]

theorem isAbsent_of_ne {n : Node} (h : n = absent → False) : n.isAbsent = false := by
  cases n with
  | absent => exact (h rfl).elim
  | _ => rfl

theorem isAbsent_withElse (n a : Node) : (n.withElse a).isAbsent = n.isAbsent := by
  fun_cases withElse n a <;> rfl

theorem isAbsent_ifRead (s : Span) (t c a : Node) : (ifRead s t c a).isAbsent = false := by
  unfold ifRead
  split <;> rfl

theorem isAbsent_asRead (n : Node) : n.asRead.isAbsent = n.isAbsent := by
  cases n with
  | ifElse => exact isAbsent_ifRead ..
  | _ => rfl

end Node

/-! ## The same text -/

namespace Script

/-- An `else` is put after the text, whichever `if` takes it. -/
theorem statement_withElse {n a : Node} (hn : n.endsOpen) (ha : a.isAbsent = false) (depth : Int) :
    statement (n.withElse a) depth = do
      let text ← statement n depth
      let other ← statement a depth
      return text ++ " else " ++ other := by
  fun_induction Node.withElse n a with
  | case1 s t c a hc ih => simp [statement, ih hc ha, bind_assoc, String.append_assoc]
  | case2 s t c a hc => simp [statement, statement_ifElse, ha, bind_assoc, String.append_assoc]
  | case3 s t c other a hother ih =>
    have habsent : other.isAbsent = false := Node.isAbsent_of_ne hother
    have hopen : other.endsOpen := by simpa [Node.endsOpen, habsent] using hn
    simp [statement_ifElse, Node.isAbsent_withElse, habsent, ih hopen ha, bind_assoc,
      String.append_assoc]
  | case4 s t body a ih => simp [statement, ih hn ha, bind_assoc, String.append_assoc]
  | case5 s i t u body a ih => simp [statement, ih hn ha, bind_assoc, String.append_assoc]
  | case6 s n isDefault a ih => simp [statement, ih hn ha, String.append_assoc]
  | case7 n a hi hi' hw hf he =>
    cases n with
    | ifElse => exact absurd rfl (hi' _ _ _ _)
    | whileLoop => exact absurd rfl (hw _ _ _)
    | forLoop => exact absurd rfl (hf _ _ _ _ _)
    | exporting => exact absurd rfl (he _ _ _)
    | _ => cases hn

/-- An `if` has the text that it has as it is read. -/
theorem statement_ifRead (s : Span) (t c a : Node) (depth : Int) :
    statement (Node.ifRead s t c a) depth = statement (.ifElse s t c a) depth := by
  unfold Node.ifRead
  split
  · rfl
  · rename_i h
    simp only [Bool.or_eq_true, Bool.not_eq_true', not_or, Bool.not_eq_true, Bool.not_eq_false] at h
    simp [statement_ifElse, h.1, statement, statement_withElse h.2 h.1, String.append_assoc]

mutual

theorem statement_asRead (n : Node) (depth : Int) : statement n.asRead depth = statement n depth := by
  cases n with
  | block s body =>
    cases body with
    | nil => rfl
    | cons n ns => simp [Node.asRead, Node.asReadAll, statement, lines, statement_asRead n, lines_asRead ns]
  | function s name params body => simp [Node.asRead, statement, statement_asRead body]
  | ifElse s t c a =>
    rw [Node.asRead, statement_ifRead]
    simp only [statement_ifElse, Node.isAbsent_asRead, statement_asRead c, statement_asRead a]
  | whileLoop s t body => simp [Node.asRead, statement, statement_asRead body]
  | forLoop s i t u body => simp [Node.asRead, statement, statement_asRead body]
  | exporting s n isDefault => simp [Node.asRead, statement, statement_asRead n]
  | _ => rfl

theorem lines_asRead (ns : List Node) (depth : Int) :
    lines (Node.asReadAll ns) depth = lines ns depth := by
  cases ns with
  | nil => rfl
  | cons n ns => simp only [Node.asReadAll, lines, statement_asRead n, lines_asRead ns]

end

end Script

/-- The text of a tree is that of the tree as it is read. -/
theorem render_asRead (n : Node) : render n.asRead = render n := by
  cases n with
  | program s body => simp only [Node.asRead, render, Script.lines_asRead]
  | block s body => simp only [Node.asRead, render, Script.lines_asRead]
  | ifElse s t c a =>
    rw [Node.asRead, Node.ifRead]
    split <;> rfl
  | _ => rfl

/-! ## Trees that are read as they are -/

/-- The roles of statements, and of what statements stand in. -/
def Role.isOuter (r : Role) : Bool :=
  r = .program || r = .statement || r = .alternative || r = .block

namespace Node

/-- Every `else` in the tree is clear. -/
def ElsesAreClear : Role → Node → Prop := Everywhere fun _ n => n.ElseIsClear

variable {r q : Role} {n : Node}

/-- Where every `else` is clear, the nearest `if` is the one that it belongs to. -/
theorem asRead_of_clear (h : ElsesAreClear r n) : n.asRead = n := by
  induction h with
  | @mk r n hn _ ih =>
    cases n with
    | program s body =>
      simp only [parts, List.forall_mem_map] at ih
      rw [asRead, asReadAll_eq_map, List.map_congr_left ih, List.map_id']
    | block s body =>
      simp only [parts, List.forall_mem_map] at ih
      rw [asRead, asReadAll_eq_map, List.map_congr_left ih, List.map_id']
    | function s name params body => rw [asRead, ih (.block, body) (by simp [parts])]
    | ifElse s t c a =>
      have hc := ih (.statement, c) (by simp [parts])
      have ha := ih (.alternative, a) (by simp [parts])
      simp only at hc ha
      rw [asRead, hc, ha, ifRead, if_pos]
      simpa [ElseIsClear] using hn
    | whileLoop s t body => rw [asRead, ih (.statement, body) (by simp [parts])]
    | forLoop s i t u body => rw [asRead, ih (.statement, body) (by simp [parts])]
    | exporting s n isDefault => rw [asRead, ih (.statement, n) (by simp [parts])]
    | _ => rfl

/-- The nodes that statements stand in. -/
def holdsStatements : Node → Bool
  | program .. | block .. | function .. | ifElse .. | whileLoop .. | forLoop .. | exporting .. => true
  | _ => false

theorem parts_inner (h : n.holdsStatements = false) : ∀ part ∈ n.parts, part.1.isOuter = false := by
  cases n with
  | program | block | function | ifElse | whileLoop | forLoop | exporting => cases h
  | element => simp [parts, Role.isOuter, or_imp, forall_and]
  | _ => simp [parts, Role.isOuter]

/-- There is no `if` in an expression. -/
theorem clear_of_inner (h : Conforms r n) (hr : r.isOuter = false) : ElsesAreClear r n := by
  induction h with
  | @mk r n hn _ ih =>
    have hholds : n.holdsStatements = false := by
      cases n with
      | program | block | function | ifElse | whileLoop | forLoop | exporting =>
        cases r <;> cases hn <;> cases hr
      | _ => rfl
    refine .mk ?_ fun part hpart => ih part hpart (parts_inner hholds part hpart)
    cases n with
    | ifElse => cases hholds
    | _ => trivial

/-- A node in another role is as clear. -/
theorem ElsesAreClear.inRole (h : ElsesAreClear r n) (q : Role) : ElsesAreClear q n :=
  h.elsewhere h.here

theorem clear_withElse {c a : Node} (hc : ElsesAreClear .statement c)
    (ha : ElsesAreClear .alternative a) : ElsesAreClear .statement (c.withElse a) := by
  fun_induction withElse c a with
  | case1 s t c a hopen ih =>
    refine .mk (.inl rfl) ?_
    simp only [parts, List.forall_mem_cons]
    exact ⟨hc.part (by simp [parts]), ih (hc.part (by simp [parts])) ha, .leaf trivial rfl, by simp⟩
  | case2 s t c a hopen =>
    refine .mk (.inr (by simpa using hopen)) ?_
    simp only [parts, List.forall_mem_cons]
    exact ⟨hc.part (by simp [parts]), hc.part (by simp [parts]), ha, by simp⟩
  | case3 s t c other a hother ih =>
    have hclear : c.endsOpen = false := hc.here.resolve_left (by simp [isAbsent_of_ne hother])
    refine .mk (.inr hclear) ?_
    simp only [parts, List.forall_mem_cons]
    have hrest : ElsesAreClear .alternative other := hc.part (by simp [parts])
    exact ⟨hc.part (by simp [parts]), hc.part (by simp [parts]),
      (ih (hrest.inRole _) ha).inRole _, by simp⟩
  | case4 s t body a ih =>
    refine .mk trivial ?_
    simp only [parts, List.forall_mem_cons]
    exact ⟨hc.part (by simp [parts]), ih (hc.part (by simp [parts])) ha, by simp⟩
  | case5 s i t u body a ih =>
    refine .mk trivial ?_
    simp only [parts, List.forall_mem_cons]
    exact ⟨hc.part (by simp [parts]), hc.part (by simp [parts]), hc.part (by simp [parts]),
      ih (hc.part (by simp [parts])) ha, by simp⟩
  | case6 s n isDefault a ih =>
    refine .mk trivial ?_
    simp only [parts, List.forall_mem_cons]
    exact ⟨ih (hc.part (by simp [parts])) ha, by simp⟩
  | case7 => exact hc

theorem clear_ifRead {s : Span} {t c a : Node} (ht : ElsesAreClear .expression t)
    (hc : ElsesAreClear .statement c) (ha : ElsesAreClear .alternative a) :
    ElsesAreClear r (ifRead s t c a) := by
  unfold ifRead
  split
  · rename_i h
    refine .mk (by simpa [ElseIsClear] using h) ?_
    simp only [parts, List.forall_mem_cons]
    exact ⟨ht, hc, ha, by simp⟩
  · refine .mk (.inl rfl) ?_
    simp only [parts, List.forall_mem_cons]
    exact ⟨ht, clear_withElse hc ha, .leaf trivial rfl, by simp⟩

/-- As its text is read, every `else` in a tree is clear. -/
theorem clear_asRead (h : Conforms r n) : ElsesAreClear r n.asRead := by
  induction h with
  | @mk r n hn hparts ih =>
    have hinner : ∀ part ∈ n.parts, part.1.isOuter = false → ElsesAreClear part.1 part.2 :=
      fun part hpart hr => clear_of_inner (hparts part hpart) hr
    cases n with
    | program s body =>
      rw [asRead, asReadAll_eq_map]
      refine .mk trivial ?_
      simpa [parts, ElsesAreClear] using ih
    | block s body =>
      rw [asRead, asReadAll_eq_map]
      refine .mk trivial ?_
      simpa [parts, ElsesAreClear] using ih
    | function s name params body =>
      rw [asRead]
      refine .mk trivial ?_
      simp only [parts, List.forall_mem_cons, List.forall_mem_map] at ih hinner ⊢
      exact ⟨hinner.1 rfl, ih.2.1, fun n hn => hinner.2.2 n hn rfl⟩
    | ifElse s t c a =>
      rw [asRead]
      simp only [parts, List.forall_mem_cons] at ih hinner
      exact clear_ifRead (hinner.1 rfl) ih.2.1 ih.2.2.1
    | whileLoop s t body =>
      rw [asRead]
      refine .mk trivial ?_
      simp only [parts, List.forall_mem_cons] at ih hinner ⊢
      exact ⟨hinner.1 rfl, ih.2.1, by simp⟩
    | forLoop s i t u body =>
      rw [asRead]
      refine .mk trivial ?_
      simp only [parts, List.forall_mem_cons] at ih hinner ⊢
      exact ⟨hinner.1 rfl, hinner.2.1 rfl, hinner.2.2.1 rfl, ih.2.2.2.1, by simp⟩
    | exporting s n isDefault =>
      rw [asRead]
      refine .mk trivial ?_
      simp only [parts, List.forall_mem_cons] at ih ⊢
      exact ⟨ih.1, by simp⟩
    | _ => exact .mk trivial fun part hpart => hinner part hpart (parts_inner rfl part hpart)

end Node

/-- No `else` of a parsed program is ambiguous: no `if` that has one has an open statement before it.
So its text, which has no braces around that statement, is read as the program itself. For to read a
text is to give every `else` to the nearest `if`, and that changes no text, and leaves every `else`
clear. -/
theorem elses_stay_with_their_ifs :
    (∀ tokens p, parse tokens = .ok p →
      p.ElsesAreClear .program ∧ p.asRead = p) ∧
    (∀ n, render n.asRead = render n) ∧
    ∀ n, Node.Conforms .program n → Node.ElsesAreClear .program n.asRead := by
  refine ⟨fun tokens p hp => ?_, render_asRead, fun n => Node.clear_asRead⟩
  have hclear : Node.ElsesAreClear .program p := by
    refine (formed_of_parse hp).mono fun r n hn => ?_
    cases n with
    | ifElse => exact hn.2
    | _ => trivial
  exact ⟨hclear, Node.asRead_of_clear hclear⟩

/-- The tokens of an `if` in an `if`, with an `else if` and an `else` after it. -/
def stackedIfs : List Token :=
  [⟨.ifWord, "如果", {}⟩, ⟨.leftParen, "(", {}⟩, ⟨.identifier, "a", {}⟩, ⟨.rightParen, ")", {}⟩,
   ⟨.ifWord, "如果", {}⟩, ⟨.leftParen, "(", {}⟩, ⟨.identifier, "b", {}⟩, ⟨.rightParen, ")", {}⟩,
   ⟨.breakWord, "破", {}⟩, ⟨.semicolon, ";", {}⟩,
   ⟨.elseIfWord, "否则如果", {}⟩, ⟨.leftParen, "(", {}⟩, ⟨.identifier, "c", {}⟩, ⟨.rightParen, ")", {}⟩,
   ⟨.continueWord, "续", {}⟩, ⟨.semicolon, ";", {}⟩,
   ⟨.elseWord, "否则", {}⟩, ⟨.breakWord, "破", {}⟩, ⟨.semicolon, ";", {}⟩]

/-- A tree in which the outer `if` has an `else` that its text gives to the inner one. -/
def strayElse : Node :=
  .program {} [.ifElse {} (.identifier {} "a") (.ifElse {} (.identifier {} "b") (.breaking {}) .absent)
    (.continuing {})]

theorem stackedIfs_stay :
    (∃ p, parse stackedIfs = .ok p ∧ p.ElsesAreClear .program ∧ p.asRead = p) ∧
    Node.Conforms .program strayElse ∧ Node.ElsesAreClear .program strayElse.asRead := by
  obtain ⟨hparsed, -, hread⟩ := elses_stay_with_their_ifs
  have hstray : Node.Conforms .program strayElse := by
    refine .mk rfl ?_
    simp only [strayElse, Node.parts, List.map_cons, List.map_nil, List.forall_mem_singleton]
    refine .mk rfl ?_
    simp only [Node.parts, List.forall_mem_cons]
    refine ⟨.leaf rfl rfl, .mk rfl ?_, .leaf rfl rfl, by simp⟩
    simp only [Node.parts, List.forall_mem_cons]
    exact ⟨.leaf rfl rfl, .leaf rfl rfl, .leaf rfl rfl, by simp⟩
  exact ⟨⟨_, rfl, hparsed stackedIfs _ rfl⟩, hstray, hread strayElse hstray⟩

end HanScript
