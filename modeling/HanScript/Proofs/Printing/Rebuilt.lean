-- Trees that are rebuilt from other parts have the same text if their parts do.
-- Of a part that is an operand, the text around it also shows how tightly it
-- binds, so that has to be the same too, as far as parentheses tell.
import HanScript.Proofs.Conformance.Role
import HanScript.Proofs.Printing.Each
import HanScript.Proofs.Rewritten

namespace HanScript

namespace Script

/-! ## Operands -/

/-- In the place of an operand both nodes have the same text, and it is put in parentheses at the
same places. All that tells levels from the one of calls on apart is their own text. -/
structure Alike (n m : Node) : Prop where
  text : expression n = expression m
  level : precedence n = precedence m ∨ callLevel ≤ precedence n ∧ callLevel ≤ precedence m
  operator : unaryOperator? n = unaryOperator? m
  integer : isBareInteger n = isBareInteger m
  object : startsWithObject n = startsWithObject m
  absent : n.isAbsent = m.isAbsent

namespace Alike

theorem refl (n : Node) : Alike n n := ⟨rfl, .inl rfl, rfl, rfl, rfl, rfl⟩

variable {n m : Node} (h : Alike n m)

include h

theorem lt_iff {level : Nat} (hl : level ≤ callLevel) :
    precedence n < level ↔ precedence m < level := by
  rcases h.level with he | ⟨hn, hm⟩
  · rw [he]
  · omega

theorem beq_level {level : Nat} (hl : level < callLevel) :
    (precedence n == level) = (precedence m == level) := by
  rw [Bool.eq_iff_iff, beq_iff_eq, beq_iff_eq]
  rcases h.level with he | ⟨hn, hm⟩
  · rw [he]
  · omega

theorem operandText (text : String) : operandText n text = operandText m text := by
  simp only [Script.operandText, h.lt_iff (Nat.le_refl _)]

theorem looseText (text : String) : looseText n text = looseText m text := by
  have hle : precedence n ≤ conditionalLevel ↔ precedence m ≤ conditionalLevel := by
    rw [← Nat.lt_succ_iff, ← Nat.lt_succ_iff]
    exact h.lt_iff (by decide)
  simp only [Script.looseText, hle]

theorem unaryText (operator : String) (before : Bool) (argument : String) :
    unaryText operator n before argument = unaryText operator m before argument := by
  simp only [Script.unaryText, h.lt_iff (by decide : unaryLevel ≤ callLevel), h.operator]

end Alike

theorem level_lt_callLevel (operator : String) :
    (operatorLevels.lookup operator).getD looseLevel < callLevel := by
  have hall : ∀ e ∈ operatorLevels, e.2 < callLevel := by decide
  cases h : operatorLevels.lookup operator with
  | none => decide
  | some level =>
    obtain ⟨front, back, he, -⟩ := List.lookup_eq_some_iff.mp h
    exact hall (operator, level) (by rw [he]; simp)

theorem Alike.binaryText {l l' r r' : Node} (hl : Alike l l') (hr : Alike r r')
    (operator left right : String) :
    binaryText operator l r left right = binaryText operator l' r' left right := by
  have hlevel := level_lt_callLevel operator
  simp only [Script.binaryText, hl.lt_iff (Nat.le_of_lt hlevel), hr.lt_iff (Nat.le_of_lt hlevel),
    hl.operator, hl.beq_level hlevel, hr.beq_level hlevel]

theorem mapM_rebuilt {α : Type} {f : Node → Node} {p q : Node → Except RenderError α}
    {ns : List Node} (h : ∀ n ∈ ns, p (f n) = q n) : (ns.map f).mapM p = ns.mapM q := by
  induction ns with
  | nil => rfl
  | cons n ns ih =>
    rw [List.forall_mem_cons] at h
    rw [List.map_cons, List.mapM_cons, List.mapM_cons, h.1, ih h.2]

end Script

open Script

/-! ## Roles -/

/-- In the role the renderer makes the same of both nodes. -/
def Role.Alike : Role → Node → Node → Prop
  | program, n, m => render n = render m
  | statement, n, m | block, n, m | alternative, n, m =>
    (∀ depth, Script.statement n depth = Script.statement m depth) ∧ n.isAbsent = m.isAbsent
  | declarator, n, m => Script.declarator n = Script.declarator m
  | target, n, m => pattern n = pattern m
  | word, n, m | tagWord, n, m => nameOf n = nameOf m
  | wordOrHole, n, m => slotName? n = slotName? m
  | initial, n, m => initialPart n = initialPart m
  | specifier, n, m => importSpecifier n = importSpecifier m
  | source, n, m => importSource n = importSource m
  | expression, n, m | optional, n, m => Script.Alike n m
  | property, n, m => pair n = pair m
  | tagName, n, m => tag n = tag m ∧ reference n = reference m
  | tagAttribute, n, m => prop n = prop m
  | attributeValue, n, m => propValue n = propValue m
  | child, n, m => Script.child n = Script.child m

section

variable {g : Span → Span} {f : Node → Node}

/-- The parts of the node are as good as those that it is rebuilt from. -/
def PartsAlike (f : Node → Node) (n : Node) : Prop :=
  ∀ part ∈ n.parts, part.1.Alike (f part.2) part.2

theorem optional_alike {n m : Node} (h : Role.optional.Alike n m) :
    Script.optional n = Script.optional m := by
  unfold Script.optional
  rw [h.absent, h.text]

theorem slot_alike {n m : Node} (h : Role.optional.Alike n m) : slot n = slot m := by
  have hslot : ∀ n : Node, slot n =
      if n.isAbsent then .ok none else Script.expression n >>= fun text => pure (some text) := by
    intro n
    cases n <;> rfl
  rw [hslot, hslot, h.absent, h.text]

/-! ## Expressions and markup -/

theorem element_alike {s : Span} {name : Node} {attributes items : List Node} {b : Bool}
    (h : PartsAlike f (.element s name attributes items b)) :
    Script.expression ((Node.element s name attributes items b).rebuilt g f) =
      Script.expression (.element s name attributes items b) := by
  simp only [PartsAlike, Node.parts, List.forall_mem_append, List.forall_mem_cons,
    List.forall_mem_map] at h
  obtain ⟨⟨⟨htag, -⟩, hattributes⟩, hitems⟩ := h
  simp only [Node.rebuilt, Script.expression, htag, props_eq_mapM, children_eq_mapM,
    mapM_rebuilt hattributes, mapM_rebuilt hitems]

theorem fragment_alike {s : Span} {items : List Node} (h : PartsAlike f (.fragment s items)) :
    Script.expression ((Node.fragment s items).rebuilt g f) =
      Script.expression (.fragment s items) := by
  simp only [PartsAlike, Node.parts, List.forall_mem_map] at h
  simp only [Node.rebuilt, Script.expression, children_eq_mapM, mapM_rebuilt h]

theorem expression_alike {n : Node} (hn : n.isExpression) (hparts : PartsAlike f n) :
    Script.Alike (n.rebuilt g f) n := by
  cases n with
  | literal _ value =>
    cases value <;> exact ⟨rfl, .inl rfl, rfl, rfl, rfl, rfl⟩
  | identifier => exact ⟨rfl, .inl rfl, rfl, rfl, rfl, rfl⟩
  | binary =>
    simp only [PartsAlike, Node.parts, List.forall_mem_cons, Role.Alike] at hparts
    obtain ⟨hl, hr, -⟩ := hparts
    refine ⟨?_, .inl rfl, rfl, rfl, hl.object, rfl⟩
    simp only [Node.rebuilt, Script.expression, hl.text, hr.text, hl.binaryText hr]
  | unary _ _ _ before =>
    simp only [PartsAlike, Node.parts, List.forall_mem_cons, Role.Alike] at hparts
    obtain ⟨ha, -⟩ := hparts
    refine ⟨?_, .inl rfl, rfl, rfl, congrArg (!before && ·) ha.object, rfl⟩
    simp only [Node.rebuilt, Script.expression, ha.text, ha.unaryText]
  | assignment =>
    simp only [PartsAlike, Node.parts, List.forall_mem_cons, Role.Alike] at hparts
    obtain ⟨hl, hr, -⟩ := hparts
    refine ⟨?_, .inl rfl, rfl, rfl, hl.object, rfl⟩
    simp only [Node.rebuilt, Script.expression, hl.text, hr.text, hl.looseText]
  | conditional =>
    simp only [PartsAlike, Node.parts, List.forall_mem_cons, Role.Alike] at hparts
    obtain ⟨ht, hc, ha, -⟩ := hparts
    refine ⟨?_, .inl rfl, rfl, rfl, ht.object, rfl⟩
    simp only [Node.rebuilt, Script.expression, ht.text, hc.text, ha.text, ht.looseText]
  | call =>
    simp only [PartsAlike, Node.parts, List.forall_mem_cons, List.forall_mem_map,
      Role.Alike] at hparts
    obtain ⟨hf, has⟩ := hparts
    refine ⟨?_, .inl rfl, rfl, rfl, hf.object, rfl⟩
    simp only [Node.rebuilt, Script.expression, expressions_eq_mapM,
      mapM_rebuilt fun a ha => (has a ha).text, hf.text, hf.operandText]
  | member _ owner field computed =>
    simp only [PartsAlike, Node.parts, List.forall_mem_cons, Role.Alike] at hparts
    obtain ⟨ho, hf, -⟩ := hparts
    refine ⟨?_, .inl rfl, rfl, rfl, ho.object, rfl⟩
    cases computed with
    | true => simp only [Node.rebuilt, Script.expression, ho.text, hf.text, ho.operandText]
    | false =>
      simp only [Node.rebuilt, Script.expression, ho.text, hf.text, ho.operandText, ho.integer]
  | array =>
    simp only [PartsAlike, Node.parts, List.forall_mem_map] at hparts
    refine ⟨?_, .inl rfl, rfl, rfl, rfl, rfl⟩
    simp only [Node.rebuilt, Script.expression, slots_eq_mapM,
      mapM_rebuilt fun item hitem => slot_alike (hparts item hitem)]
  | object =>
    simp only [PartsAlike, Node.parts, List.forall_mem_map] at hparts
    refine ⟨?_, .inl rfl, rfl, rfl, rfl, rfl⟩
    simp only [Node.rebuilt, Script.expression, pairs_eq_mapM, mapM_rebuilt hparts]
  | element => exact ⟨element_alike hparts, .inl rfl, rfl, rfl, rfl, rfl⟩
  | fragment => exact ⟨fragment_alike hparts, .inl rfl, rfl, rfl, rfl, rfl⟩
  | _ => cases hn

theorem attributeValue_alike {n : Node} (hn : Role.attributeValue.admits n)
    (hparts : PartsAlike f n) : Role.attributeValue.Alike (n.rebuilt g f) n := by
  cases n with
  | absent | literal => rfl
  | container =>
    simp only [PartsAlike, Node.parts, List.forall_mem_cons] at hparts
    exact hparts.1.text
  | _ => cases hn

theorem child_alike {n : Node} (hn : Role.child.admits n) (hparts : PartsAlike f n) :
    Role.child.Alike (n.rebuilt g f) n := by
  cases n with
  | markupText => rfl
  | container =>
    simp only [PartsAlike, Node.parts, List.forall_mem_cons] at hparts
    exact hparts.1.text
  | element => exact element_alike (g := g) hparts
  | fragment => exact fragment_alike (g := g) hparts
  | _ => cases hn

/-! ## Statements -/

theorem pattern_alike {n : Node} (hn : Role.target.admits n) (hparts : PartsAlike f n) :
    Role.target.Alike (n.rebuilt g f) n := by
  cases n with
  | identifier => rfl
  | arrayPattern =>
    simp only [PartsAlike, Node.parts, List.forall_mem_map] at hparts
    simp only [Role.Alike, Node.rebuilt, pattern, mapM_rebuilt hparts]
  | _ => cases hn

theorem declarator_alike {n : Node} (hn : Role.declarator.admits n) (hparts : PartsAlike f n) :
    Role.declarator.Alike (n.rebuilt g f) n := by
  cases n with
  | declarator =>
    simp only [PartsAlike, Node.parts, List.forall_mem_cons, Role.Alike] at hparts
    obtain ⟨htarget, hinitial, -⟩ := hparts
    simp only [Role.Alike, Node.rebuilt, Script.declarator, htarget, hinitial.absent, hinitial.text]
  | _ => cases hn

theorem declaration_alike {s : Span} {keyword : String} {declarators : List Node}
    (hparts : PartsAlike f (.declaration s keyword declarators)) :
    declaration ((Node.declaration s keyword declarators).rebuilt g f) =
      declaration (.declaration s keyword declarators) := by
  simp only [PartsAlike, Node.parts, List.forall_mem_map] at hparts
  simp only [Node.rebuilt, declaration, mapM_rebuilt hparts]

theorem initial_alike {n : Node} (hn : Role.initial.admits n) (hparts : PartsAlike f n) :
    Role.initial.Alike (n.rebuilt g f) n := by
  cases n with
  | absent => rfl
  | declaration => exact declaration_alike (g := g) hparts
  | _ => exact optional_alike (expression_alike hn hparts)

theorem specifier_alike {n : Node} (hn : Role.specifier.admits n) (hparts : PartsAlike f n) :
    Role.specifier.Alike (n.rebuilt g f) n := by
  cases n with
  | importSpecifier =>
    simp only [PartsAlike, Node.parts, List.forall_mem_cons, Role.Alike] at hparts
    simp only [Role.Alike, Node.rebuilt, importSpecifier, hparts.1, hparts.2.1]
  | _ => cases hn

theorem lines_alike {body : List Node} (h : ∀ n ∈ body, Role.statement.Alike (f n) n)
    (depth : Int) : lines (body.map f) depth = lines body depth := by
  rw [lines_eq_mapM, lines_eq_mapM]
  refine mapM_rebuilt fun n hn => ?_
  unfold line
  rw [(h n hn).1 depth]

theorem block_alike {s : Span} {body : List Node} (hparts : PartsAlike f (.block s body)) :
    Role.block.Alike ((Node.block s body).rebuilt g f) (.block s body) := by
  simp only [PartsAlike, Node.parts, List.forall_mem_map] at hparts
  refine ⟨fun depth => ?_, rfl⟩
  cases body with
  | nil => rfl
  | cons n ns =>
    have hlines := lines_alike hparts (depth + 1)
    simp only [Node.rebuilt, List.map_cons, Script.statement] at hlines ⊢
    rw [hlines]

theorem statement_alike {n : Node} (hn : n.isStatement) (hparts : PartsAlike f n) :
    Role.statement.Alike (n.rebuilt g f) n := by
  refine ⟨fun depth => ?_, by cases n <;> rfl⟩
  cases n with
  | declaration => exact congrArg (· >>= fun text => pure (text ++ ";")) (declaration_alike hparts)
  | function =>
    simp only [PartsAlike, Node.parts, List.forall_mem_cons, List.forall_mem_map] at hparts
    obtain ⟨hname, hbody, hparams⟩ := hparts
    simp only [Role.Alike] at hname
    simp only [Node.rebuilt, Script.statement, mapM_rebuilt hparams, nameTextOf, hname,
      hbody.1 depth]
  | block => exact (block_alike hparts).1 depth
  | ifElse =>
    simp only [PartsAlike, Node.parts, List.forall_mem_cons] at hparts
    obtain ⟨htest, hconsequent, halternate, -⟩ := hparts
    simp only [Node.rebuilt, statement_ifElse, htest.text, hconsequent.1, halternate.1, halternate.2]
  | whileLoop =>
    simp only [PartsAlike, Node.parts, List.forall_mem_cons] at hparts
    obtain ⟨htest, hbody, -⟩ := hparts
    simp only [Node.rebuilt, Script.statement, htest.text, hbody.1]
  | forLoop =>
    simp only [PartsAlike, Node.parts, List.forall_mem_cons] at hparts
    obtain ⟨hinitial, htest, hupdate, hbody, -⟩ := hparts
    simp only [Role.Alike] at hinitial
    simp only [Node.rebuilt, Script.statement, hinitial, optional_alike htest,
      optional_alike hupdate, hbody.1 depth]
  | returning =>
    simp only [PartsAlike, Node.parts, List.forall_mem_cons] at hparts
    simp only [Node.rebuilt, statement_returning, hparts.1.text, hparts.1.absent]
  | breaking | continuing => rfl
  | importing =>
    simp only [PartsAlike, Node.parts, List.forall_mem_cons, List.forall_mem_map] at hparts
    obtain ⟨hsource, hspecifiers⟩ := hparts
    simp only [Role.Alike] at hsource
    simp only [Node.rebuilt, Script.statement, mapM_rebuilt hspecifiers, hsource]
  | exporting =>
    simp only [PartsAlike, Node.parts, List.forall_mem_cons] at hparts
    simp only [Node.rebuilt, Script.statement, hparts.1.1]
  | expressionStatement =>
    simp only [PartsAlike, Node.parts, List.forall_mem_cons] at hparts
    simp only [Node.rebuilt, Script.statement, hparts.1.text, hparts.1.object]
  | _ => cases hn

/-! ## All roles -/

/-- A node that is rebuilt from parts as good as its own is as good as before in its role. -/
theorem alike_rebuilt {r : Role} {n : Node} (hn : r.admits n) (hparts : PartsAlike f n) :
    r.Alike (n.rebuilt g f) n := by
  cases r with
  | program =>
    cases n with
    | program =>
      simp only [PartsAlike, Node.parts, List.forall_mem_map] at hparts
      simp only [Role.Alike, Node.rebuilt, render, lines_alike hparts]
    | _ => cases hn
  | statement => exact statement_alike hn hparts
  | alternative =>
    cases n with
    | absent => exact ⟨fun _ => rfl, rfl⟩
    | _ => exact statement_alike hn hparts
  | block =>
    cases n with
    | block => exact block_alike hparts
    | _ => cases hn
  | declarator => exact declarator_alike hn hparts
  | target => exact pattern_alike hn hparts
  | word =>
    cases n with
    | identifier => rfl
    | _ => cases hn
  | wordOrHole =>
    cases n with
    | absent | identifier => rfl
    | _ => cases hn
  | initial => exact initial_alike hn hparts
  | optional =>
    cases n with
    | absent => exact .refl _
    | _ => exact expression_alike hn hparts
  | specifier => exact specifier_alike hn hparts
  | source =>
    cases n with
    | literal _ value => cases value <;> rfl
    | _ => cases hn
  | expression => exact expression_alike hn hparts
  | property =>
    cases n with
    | property =>
      simp only [PartsAlike, Node.parts, List.forall_mem_cons] at hparts
      obtain ⟨hkey, hvalue, -⟩ := hparts
      simp only [Role.Alike] at hkey
      simp only [Role.Alike, Node.rebuilt, pair, nameTextOf, hkey, hvalue.text]
    | _ => cases hn
  | tagName =>
    cases n with
    | tagName => exact ⟨rfl, rfl⟩
    | tagMember =>
      simp only [PartsAlike, Node.parts, List.forall_mem_cons, Role.Alike] at hparts
      obtain ⟨howner, hfield, -⟩ := hparts
      refine ⟨?_, ?_⟩ <;> simp only [Node.rebuilt, tag, reference, nameTextOf, howner.2, hfield]
    | _ => cases hn
  | tagWord =>
    cases n with
    | tagName => rfl
    | _ => cases hn
  | tagAttribute =>
    cases n with
    | tagAttribute =>
      simp only [PartsAlike, Node.parts, List.forall_mem_cons, Role.Alike] at hparts
      simp only [Role.Alike, Node.rebuilt, prop, nameTextOf, hparts]
    | _ => cases hn
  | attributeValue => exact attributeValue_alike hn hparts
  | child => exact child_alike hn hparts

end

/-! ## Spans -/

theorem Node.bare_eq_rebuilt (n : Node) : n.bare = n.rebuilt (fun _ => {}) bare := by
  cases n <;> simp only [bare, rebuilt, bareList_eq_map]

/-- The text of a tree does not say where its parts stand. Only a node that stands where a name
belongs would be written out with its span, and a tree that conforms has names there. -/
theorem alike_bare {r : Role} {n : Node} (h : Node.Conforms r n) : r.Alike n.bare n := by
  induction h with
  | mk hn _ ih =>
    rw [Node.bare_eq_rebuilt]
    exact alike_rebuilt hn ih

/-- A program that conforms has the same text without its spans. -/
theorem render_bare {p : Node} (h : Node.Conforms .program p) : render p.bare = render p :=
  alike_bare h

end HanScript
