-- What the grammar calls an expression or markup the parser takes as that, and
-- gives its tree, as long as nothing comes after it that would make it longer.
import HanScript.Proofs.Grammar.Expression
import HanScript.Proofs.Parsing.Completeness.Lists

namespace HanScript

namespace Grammar.Level

open HanScript.Parser

/-! ## Levels and rules -/

/-- The levels, from the loosest to the tightest. -/
def all : List Level :=
  [assignment, conditional, logicalOr, logicalAnd, equality, relational, additive, multiplicative,
   power, unary, suffixed, primary]

/-- The rule that reads expressions of a level. -/
def rule : Level → Inner → Parser Node
  | assignment => Rule.assignment
  | conditional => Rule.conditional
  | logicalOr => Rule.logicalOr
  | logicalAnd => Rule.logicalAnd
  | equality => Rule.equality
  | relational => Rule.relational
  | additive => Rule.additive
  | multiplicative => Rule.multiplicative
  | power => Rule.power
  | unary => Rule.unary
  | suffixed => Rule.callMember
  | primary => Rule.primary

/-- The tokens that the loop of a level goes on with. A level without a loop has none. -/
def looping : Level → List TokenKind
  | suffixed => suffixKinds
  | l => l.operators

/-- The tokens that make an expression of a level longer, though not of a tighter one. -/
def own : Level → List TokenKind
  | assignment => []
  -- What comes after both ways of a condition belongs to the second.
  | conditional => .question :: assignmentOperators
  | power => [.power]
  | l => l.looping

/-- The tokens that would make an expression of a level longer. -/
def continuing (l : Level) : List TokenKind := (all.dropWhile (· ≠ l)).flatMap own

/-- Those of them that the loop of the level does not take. -/
def within (l : Level) : List TokenKind := l.continuing.filter (· ∉ l.looping)

/-- One step of the loop of a level. -/
def step (l : Level) (inner : Inner) : Node → Parser (Option Node) :=
  if l = suffixed then Rule.suffix inner
  else chainStep l.operators ((l.tighter?.getD primary).rule inner)

theorem step_none {l : Level} {inner : Inner} {n : Node} {d : Cursor}
    (h : d.current.kind ∉ l.looping) : (l.step inner n).Gives d none d := by
  unfold step
  split
  · rename_i hl
    subst hl
    exact suffix_none.mpr ⟨h, rfl⟩
  · rename_i hl
    have ho : l.looping = l.operators := by
      cases l <;> first | rfl | exact absurd rfl hl
    exact chainStep_none.mpr ⟨ho ▸ h, rfl⟩

theorem not_within {l : Level} {kind : TokenKind} (h : kind ∉ l.continuing) : kind ∉ l.within :=
  fun hw => h (List.mem_filter.mp hw).1

theorem not_looping {l : Level} {kind : TokenKind} (h : kind ∉ l.continuing) : kind ∉ l.looping := by
  have hsub : ∀ k ∈ l.looping, k ∈ l.continuing := by cases l <;> decide
  exact fun hk => h (hsub kind hk)

theorem looping_not_within {l : Level} {kind : TokenKind} (h : kind ∈ l.looping) :
    kind ∉ l.within := by
  simp [within, h]

theorem operators_subset_looping {l : Level} {kind : TokenKind} (h : kind ∈ l.operators) :
    kind ∈ l.looping := by
  have hsub : ∀ k ∈ l.operators, k ∈ l.looping := by cases l <;> decide
  exact hsub kind h

/-- What makes an expression of the next tighter level longer is not for the loop. -/
theorem not_continuing_tighter {l m : Level} {kind : TokenKind} (hl : l.tighter? = some m)
    (h : kind ∉ l.within) : kind ∉ m.continuing := by
  have hsub : ∀ k ∈ m.continuing, k ∈ l.within := by cases l <;> cases hl <;> decide
  exact fun hk => h (hsub kind hk)

/-! ## Expressions of a level -/

/-- Wherever the tokens stand, unless an operand that they end with goes on after them, the rule
of the level takes them, and its loop comes to the tree. -/
def Found (l : Level) (w : List Terminal) (n : Node) : Prop :=
  ∀ ⦃b c d⦄, c.left ≤ b.length → c.Passes w d → d.current.kind ∉ l.within →
    ∃ q, Reaches (l.rule (inner b)) (l.step (inner b)) c q d ∧ q.bare = n

/-- Where nothing makes the expression longer, the rule stops after it. -/
theorem Found.finds {l : Level} {w : List Terminal} {n : Node} (h : l.Found w n) (b : List Token) :
    Finds (l.rule (inner b)) Node.bare b.length (· ∉ l.continuing) w n := by
  intro c d hk hp hd
  obtain ⟨q, hq, rfl⟩ := h hk hp (not_within hd)
  exact ⟨q, hq.stop (step_none (not_looping hd)), rfl⟩

/-- A level without a loop has nothing to come to but what its rule gives. -/
theorem Found.of_finds {l : Level} {w : List Terminal} {n : Node} (hl : l.looping = [])
    (h : ∀ b, Finds (l.rule (inner b)) Node.bare b.length (· ∉ l.continuing) w n) : l.Found w n := by
  intro b c d hk hp hd
  have hc : d.current.kind ∉ l.continuing := by simpa [within, hl] using hd
  obtain ⟨q, hq, rfl⟩ := h b hk hp hc
  have hstop : (l.step (inner b) q).Gives d none d := step_none (by simp [hl])
  refine ⟨q, ⟨d.budget, Nat.lt_succ_self d.left, fun {r e} hr => ?_⟩, rfl⟩
  rcases stepsWithin_cons_gives.mp hr with ⟨hs, rfl⟩ | ⟨q', e', hs, -⟩
  · obtain ⟨-, rfl⟩ := hstop.unique hs
    exact hq
  · cases (hstop.unique hs).1

end Grammar.Level

namespace Parser

open Grammar

/-! ## Phrases -/

/-- The parser finds what the tokens form, in the way that the form asks for. -/
def Found : Form → List Terminal → Node → Prop
  | .expression l, w, n => l.Found w n
  | .property, w, n => ∀ b,
    Finds (Rule.property (inner b)) Node.bare b.length (· ∉ Level.assignment.continuing) w n
  | .container, w, n => ∀ b, Finds (Rule.container (inner b)) Node.bare b.length (fun _ => True) w n
  | .tagAttribute, w, n => ∀ b, Finds (Rule.tagAttribute (inner b)) Node.bare b.length (· ≠ .assign) w n
  -- A child can lead straight to markup one level further in.
  | .child, w, n => ∀ b k, k < b.length →
    Finds (Rule.child (inner b)) (Option.map Node.bare) k (fun _ => True) w (some n)
  | .markup, w, n => ∀ b, Finds (Rule.markup (inner b)) Node.bare b.length (fun _ => True) w n

/-- The tokens form the tree, and the parser finds it. -/
def FoundPhrase (f : Form) (w : List Terminal) (n : Node) : Prop := ∃ _ : Phrase f w n, Found f w n

theorem FoundPhrase.phrase {f : Form} {w : List Terminal} {n : Node} (h : FoundPhrase f w n) :
    Phrase f w n := h.1

theorem FoundPhrase.found {f : Form} {w : List Terminal} {n : Node} (h : FoundPhrase f w n) :
    Found f w n := h.2

/-! ## Rules further in -/

section Inner

variable {b : List Token} {k : Nat} {w : List Terminal} {n : Node} (hk : k < b.length)

include hk

theorem inner_assignment_finds (h : Level.assignment.Found w n) :
    Finds (inner b).assignment Node.bare k (· ∉ Level.assignment.continuing) w n := by
  cases b with
  | nil => simp at hk
  | cons t b =>
    intro c d hc hp hd
    rw [inner]
    exact h.finds b (Nat.le_trans hc (Nat.le_of_lt_succ hk)) hp hd

theorem inner_power_finds (h : Level.power.Found w n) :
    Finds (inner b).power Node.bare k (· ∉ Level.power.continuing) w n := by
  cases b with
  | nil => simp at hk
  | cons t b =>
    intro c d hc hp hd
    rw [inner]
    exact h.finds b (Nat.le_trans hc (Nat.le_of_lt_succ hk)) hp hd

theorem inner_unary_finds (h : Level.unary.Found w n) :
    Finds (inner b).unary Node.bare k (· ∉ Level.unary.continuing) w n := by
  cases b with
  | nil => simp at hk
  | cons t b =>
    intro c d hc hp hd
    rw [inner]
    exact h.finds b (Nat.le_trans hc (Nat.le_of_lt_succ hk)) hp hd

theorem inner_markup_finds
    (h : ∀ b, Finds (Rule.markup (inner b)) Node.bare b.length (fun _ => True) w n) :
    Finds (inner b).markup Node.bare k (fun _ => True) w n := by
  cases b with
  | nil => simp at hk
  | cons t b =>
    intro c d hc hp hd
    rw [inner]
    exact h b (Nat.le_trans hc (Nat.le_of_lt_succ hk)) hp hd

end Inner

/-! ## Operators -/

section Operators

variable {l m : Level} {w v u : List Terminal} {a a' a'' n : Node} {op : Terminal} {x y : String}

theorem step_of_chain {inner : Inner} (hl : l.tighter? = some m) (ho : op.kind ∈ l.operators) :
    l.step inner = chainStep l.operators (m.rule inner) := by
  have hs : l ≠ .suffixed := by
    rintro rfl
    simp [Level.operators] at ho
  rw [Level.step, if_neg hs, hl]
  rfl

/-- A level that chains operands begins with one of them. -/
theorem found_first (hl : l.tighter? = some m)
    (hr : ∀ inner, l.rule inner = Rule.leftChain l.operators (m.rule inner))
    (hs : ∀ inner, l.step inner = chainStep l.operators (m.rule inner)) (h : m.Found w n) :
    l.Found w n := by
  intro b c d hk hp hd
  obtain ⟨q, hq, rfl⟩ := h.finds b hk hp (Level.not_continuing_tighter hl hd)
  refine ⟨q, ?_, rfl⟩
  rw [hr, hs, leftChain_eq]
  exact reaches_steps.after hq

/-- A test without its two ways is taken also before an assignment. -/
theorem conditional_finds_test (h : Level.logicalOr.Found w n) (b : List Token) :
    Finds (Rule.conditional (inner b)) Node.bare b.length
      (· ∉ .question :: Level.logicalOr.continuing) w n := by
  intro c d hk hp hd
  obtain ⟨q, hq, rfl⟩ := h.finds b hk hp fun hm => hd (List.mem_cons_of_mem _ hm)
  refine ⟨q, bind_gives.mpr ⟨q, d, hq, bind_gives.mpr ⟨false, d, accept_of_ne ?_, ?_⟩⟩, rfl⟩
  · exact fun he => hd (by simp [he])
  · exact pure_gives.mpr ⟨rfl, rfl⟩

/-- An expression is also one of every looser level. -/
theorem found_tighter (hl : l.tighter? = some m) (hw : Phrase (.expression m) w n)
    (h : m.Found w n) : l.Found w n := by
  cases l <;> cases hl
  case assignment =>
    refine .of_finds rfl fun b c d hk hp hd => ?_
    obtain ⟨q, hq, rfl⟩ := h.finds b hk hp hd
    have hsub : ∀ kind ∈ assignmentOperators, kind ∈ Level.assignment.continuing := by decide
    refine ⟨q, bind_gives.mpr ⟨q, d, hq, bind_gives.mpr ⟨false, d, isAtAny_gives.mpr ⟨?_, rfl⟩, ?_⟩⟩, rfl⟩
    · exact decide_eq_false fun hm => hd (hsub _ hm)
    · exact pure_gives.mpr ⟨rfl, rfl⟩
  case conditional =>
    have hsub : ∀ kind ∈ .question :: Level.logicalOr.continuing,
        kind ∈ Level.conditional.continuing := by decide
    exact .of_finds rfl fun b => (conditional_finds_test h b).mono fun _ hd hm => hd (hsub _ hm)
  case power =>
    refine .of_finds rfl fun b c d hk hp hd => ?_
    obtain ⟨q, hq, rfl⟩ := h.finds b hk hp fun hm => hd (List.mem_append_right _ hm)
    refine ⟨q, bind_gives.mpr ⟨q, d, hq, bind_gives.mpr ⟨false, d, isAt_gives.mpr ⟨?_, rfl⟩, ?_⟩⟩, rfl⟩
    · exact decide_eq_false fun he => hd (by rw [he]; decide)
    · exact pure_gives.mpr ⟨rfl, rfl⟩
  case unary =>
    refine .of_finds rfl fun b c d hk hp hd => ?_
    obtain ⟨q, hq, rfl⟩ := h.finds b hk hp hd
    refine ⟨q, bind_gives.mpr ⟨false, c, isAtAny_gives.mpr ⟨decide_eq_false ?_, rfl⟩, hq⟩, rfl⟩
    exact hp.avoids (hw.avoids (by decide))
  case suffixed =>
    intro b c d hk hp hd
    obtain ⟨q, hq, rfl⟩ := h.finds b hk hp (by simp [Level.continuing, Level.all, Level.own,
      Level.looping, Level.operators])
    exact ⟨q, reaches_steps.after hq, rfl⟩
  all_goals exact found_first rfl (fun _ => rfl) (fun _ => rfl) h

theorem found_binary (hl : l.tighter? = some m) (hw : l.Found w a) (ho : op.kind ∈ l.operators)
    (hv : m.Found v a') : l.Found (w ++ op :: v) (.binary {} op.value a a') := by
  intro b c d hk hp hd
  obtain ⟨e, hpw, hp⟩ := Cursor.passes_append.mp hp
  obtain ⟨e', hpo, hpv⟩ := Cursor.passes_head.mp hp
  have hop : e.current.kind = op.kind := hpo.kind
  obtain ⟨q, hq, rfl⟩ := hw hk hpw
    (Level.looping_not_within (Level.operators_subset_looping (hop ▸ ho)))
  obtain ⟨r, hr, rfl⟩ := hv.finds b (by have := hpw.left_le; have := hpo.left_le; omega) hpv
    (Level.not_continuing_tighter hl hd)
  rw [hpo.2.2] at hr
  have hstep : (l.step (inner b) q).Gives e
      (some (.binary (d.spanFrom q.span) e.current.value q r)) d := by
    rw [step_of_chain hl ho]
    exact chainStep_some.mpr ⟨hop ▸ ho, r, hr, rfl⟩
  refine ⟨_, hq.step hstep (hp.left_lt (by simp)), ?_⟩
  simp [Node.bare, hp.value]

theorem found_assignment (hw : Level.logicalOr.Found w a) (ho : op.kind ∈ assignmentOperators) (hv : Level.assignment.Found v a') :
    Level.assignment.Found (w ++ op :: v) (.assignment {} op.value a a') := by
  refine .of_finds rfl fun b c d hk hp hd => ?_
  obtain ⟨e, hpw, hp⟩ := Cursor.passes_append.mp hp
  obtain ⟨e', hpo, hpv⟩ := Cursor.passes_head.mp hp
  have hop : e.current.kind = op.kind := hpo.kind
  have hstop : ∀ kind ∈ assignmentOperators, kind ∉ .question :: Level.logicalOr.continuing := by
    decide
  obtain ⟨q, hq, rfl⟩ := conditional_finds_test hw b hk hpw (hop ▸ hstop _ ho)
  have hlt : e'.left < b.length := by
    have := hpw.left_le
    have := hpo.left_lt (by simp)
    omega
  obtain ⟨r, hr, rfl⟩ := inner_assignment_finds hlt hv (Nat.le_refl _) hpv hd
  refine ⟨.assignment (d.spanFrom q.span) e.current.value q r, ?_, by simp [Node.bare, hp.value]⟩
  simp only [Level.rule, Rule.assignment, bind_gives, isAtAny_gives]
  refine ⟨q, e, hq, true, e, ⟨decide_eq_true (hop ▸ ho), rfl⟩, ?_⟩
  simp only [if_true, bind_gives, advance_gives, spanFrom_gives, pure_gives]
  exact ⟨_, _, ⟨rfl, hpo.2.2.symm⟩, r, d, hr, _, d, ⟨rfl, rfl⟩, rfl, rfl⟩

theorem found_conditional (hw : Level.logicalOr.Found w a) (hv : Level.assignment.Found v a')
    (hu : Level.assignment.Found u a'') :
    Level.conditional.Found (w ++ ⟨.question, x⟩ :: v ++ ⟨.colon, y⟩ :: u)
      (.conditional {} a a' a'') := by
  refine .of_finds rfl fun b c d hk hp hd => ?_
  rw [List.append_assoc] at hp
  obtain ⟨c₁, hpw, hp⟩ := Cursor.passes_append.mp hp
  obtain ⟨c₂, hpq, hp⟩ := Cursor.passes_head.mp hp
  obtain ⟨c₃, hpv, hp⟩ := Cursor.passes_append.mp hp
  obtain ⟨c₄, hpc, hpu⟩ := Cursor.passes_head.mp hp
  have hlt : c₂.left < b.length := by
    have := hpw.left_le
    have := hpq.left_lt (by simp)
    omega
  obtain ⟨q, hq, rfl⟩ := hw.finds b hk hpw (hpq.not_mem (by decide))
  obtain ⟨r, hr, rfl⟩ := inner_assignment_finds hlt hv (Nat.le_refl _) hpv (hpc.not_mem (by decide))
  obtain ⟨s, hs, rfl⟩ := inner_assignment_finds hlt hu
    (Nat.le_trans hpc.left_le hpv.left_le) hpu hd
  refine ⟨.conditional (d.spanFrom q.span) q r s, ?_, by simp [Node.bare]⟩
  simp only [Level.rule, Rule.conditional, bind_gives]
  refine ⟨q, c₁, hq, true, c₂, accept_of_passes hpq, ?_⟩
  simp only [if_true, bind_gives, spanFrom_gives, pure_gives]
  exact ⟨r, c₃, hr, _, c₄, expect_of_passes hpc, s, d, hs, _, d, ⟨rfl, rfl⟩, rfl, rfl⟩

theorem found_power (hw : Level.unary.Found w a) (hv : Level.power.Found v a') :
    Level.power.Found (w ++ ⟨.power, x⟩ :: v) (.binary {} x a a') := by
  refine .of_finds rfl fun b c d hk hp hd => ?_
  obtain ⟨e, hpw, hp⟩ := Cursor.passes_append.mp hp
  obtain ⟨e', hpo, hpv⟩ := Cursor.passes_head.mp hp
  obtain ⟨q, hq, rfl⟩ := hw.finds b hk hpw (hpo.not_mem (by decide))
  have hlt : e'.left < b.length := by
    have := hpw.left_le
    have := hpo.left_lt (by simp)
    omega
  obtain ⟨r, hr, rfl⟩ := inner_power_finds hlt hv (Nat.le_refl _) hpv hd
  refine ⟨.binary (d.spanFrom q.span) e.current.value q r, ?_, by simp [Node.bare, hp.value]⟩
  simp only [Level.rule, Rule.power, bind_gives, isAt_gives]
  refine ⟨q, e, hq, true, e, ⟨decide_eq_true hpo.kind, rfl⟩, ?_⟩
  simp only [if_true, bind_gives, advance_gives, spanFrom_gives, pure_gives]
  exact ⟨_, _, ⟨rfl, hpo.2.2.symm⟩, r, d, hr, _, d, ⟨rfl, rfl⟩, rfl, rfl⟩

theorem found_unary (ho : op.kind ∈ unaryOperators) (hw : Level.unary.Found w a) :
    Level.unary.Found (op :: w) (.unary {} op.value a true) := by
  refine .of_finds rfl fun b c d hk hp hd => ?_
  obtain ⟨e, hpo, hpw⟩ := Cursor.passes_head.mp hp
  have hop : c.current.kind = op.kind := hpo.kind
  have hlt : e.left < b.length := by
    have := hpo.left_lt (by simp)
    omega
  obtain ⟨q, hq, rfl⟩ := inner_unary_finds hlt hw (Nat.le_refl _) hpw hd
  refine ⟨.unary (d.spanFrom c.current.span) c.current.value q true, ?_,
    by simp [Node.bare, hp.value]⟩
  simp only [Level.rule, Rule.unary, bind_gives, isAtAny_gives]
  refine ⟨true, c, ⟨decide_eq_true (hop ▸ ho), rfl⟩, ?_⟩
  simp only [if_true, bind_gives, advance_gives, spanFrom_gives, pure_gives]
  exact ⟨_, _, ⟨rfl, hpo.2.2.symm⟩, q, d, hq, _, d, ⟨rfl, rfl⟩, rfl, rfl⟩

/-! ## Calls and members -/

/-- What is found before a call or a member is its owner. -/
theorem found_suffix {kind : TokenKind} (hw : Level.suffixed.Found w a)
    (hkind : kind ∈ suffixKinds)
    (h : ∀ ⦃b e d q⦄, e.left ≤ b.length → e.Passes (⟨kind, x⟩ :: v) d → q.bare = a →
      ∃ q', (Rule.suffix (inner b) q).Gives e (some q') d ∧ q'.bare = n) :
    Level.suffixed.Found (w ++ ⟨kind, x⟩ :: v) n := by
  intro b c d hk hp _
  obtain ⟨e, hpw, hp⟩ := Cursor.passes_append.mp hp
  obtain ⟨q, hq, ha⟩ := hw hk hpw (Level.looping_not_within (by rw [hp.kind]; exact hkind))
  obtain ⟨q', hq', rfl⟩ := h (Nat.le_trans hpw.left_le hk) hp ha
  exact ⟨q', hq.step hq' (hp.left_lt (by simp)), rfl⟩

theorem found_call {as : List Node} (hw : Level.suffixed.Found w a)
    (hv : SeparatedOrNone (FoundPhrase (.expression .assignment)) v as) :
    Level.suffixed.Found (w ++ ⟨.leftParen, x⟩ :: v ++ [⟨.rightParen, y⟩]) (.call {} a as) := by
  rw [List.append_assoc, List.cons_append]
  refine found_suffix hw (by decide) fun b e d q hk hp hq => ?_
  have hl := hp.kind
  obtain ⟨c₁, hpl, hp⟩ := Cursor.passes_head.mp hp
  obtain ⟨c₂, hpv, hpr⟩ := Cursor.passes_append.mp hp
  have hlt : c₁.left < b.length := by
    have := hpl.left_lt (by simp)
    omega
  have hr : c₂.current.kind = .rightParen := hpr.kind
  obtain ⟨qs, hqs, rfl⟩ := separatedUntil_finds (fun _ _ h => inner_assignment_finds hlt h.found)
    (by decide) (fun _ _ h => h.phrase.avoids (by decide)) (by decide) (by decide) hv (Nat.le_refl _) hpv hr
  refine ⟨_, suffix_some.mpr (.inl ⟨hl, qs, ?_, rfl⟩), by simp [Node.bare, hq]⟩
  rw [← hpl.2.2]
  simp only [Rule.arguments, bind_gives, pure_gives]
  exact ⟨qs, c₂, hqs, _, d, expect_of_passes hpr, rfl, rfl⟩

theorem found_member (hw : Level.suffixed.Found w a) :
    Level.suffixed.Found (w ++ [⟨.dot, x⟩, ⟨.identifier, y⟩])
      (.member {} a (.identifier {} y) false) := by
  refine found_suffix hw (by decide) fun b e d q hk hp hq => ?_
  obtain ⟨c₁, hpl, hpy⟩ := Cursor.passes_head.mp hp
  have hf := identifier_gives.mpr ⟨y, hpy, rfl⟩
  rw [hpl.2.2] at hf
  exact ⟨_, suffix_some.mpr (.inr (.inl ⟨hp.kind, _, hf, rfl⟩)), by simp [Node.bare, hq]⟩

theorem found_computed (hw : Level.suffixed.Found w a) (hv : Level.assignment.Found v a') :
    Level.suffixed.Found (w ++ ⟨.leftBracket, x⟩ :: v ++ [⟨.rightBracket, y⟩])
      (.member {} a a' true) := by
  rw [List.append_assoc, List.cons_append]
  refine found_suffix hw (by decide) fun b e d q hk hp hq => ?_
  have hl := hp.kind
  obtain ⟨c₁, hpl, hp⟩ := Cursor.passes_head.mp hp
  obtain ⟨c₂, hpv, hpr⟩ := Cursor.passes_append.mp hp
  have hlt : c₁.left < b.length := by
    have := hpl.left_lt (by simp)
    omega
  obtain ⟨f, hf, rfl⟩ := inner_assignment_finds hlt hv (Nat.le_refl _) hpv (hpr.not_mem (by decide))
  rw [hpl.2.2] at hf
  refine ⟨_, suffix_some.mpr (.inr (.inr ⟨hl, f, c₂, _, hf, expect_of_passes hpr, rfl⟩)), ?_⟩
  simp [Node.bare, hq]

end Operators

/-! ## Atoms -/

section Atoms

variable {w v : List Terminal} {n : Node} {ns : List Node} {x y : String}

/-- Nothing makes an atom longer. -/
theorem found_atom
    (h : ∀ b, Finds (Rule.primary (inner b)) Node.bare b.length (fun _ => True) w n) :
    Level.primary.Found w n :=
  .of_finds rfl fun b => (h b).mono fun _ _ => trivial

theorem found_number {k : Number} (hk : Numeral.value? x = some k) :
    Level.primary.Found [⟨.number, x⟩] (.literal {} (.number k) x false) := by
  refine found_atom fun b c d _ hp _ =>
    ⟨.literal (d.spanFrom c.current.span) (.number k) x false, ?_, rfl⟩
  refine bind_gives.mpr ⟨_, c, peek_gives.mpr ⟨rfl, rfl⟩, ?_⟩
  simp only [hp.kind]
  exact numeral_gives.mpr ⟨hp.2.2.symm, k, by rw [hp.value]; exact hk, by rw [hp.value]⟩

/-- A literal of one token has the text of the token. The rule of atoms takes it where the
first token says so. -/
theorem found_literal {kind : TokenKind} {value : Value} {template : Bool}
    (h : ∀ {inner : Inner} {c d : Cursor} {q : Node}, c.current.kind = kind → c.current.value = x →
      (literal value template).Gives c q d → (Rule.primary inner).Gives c q d) :
    Level.primary.Found [⟨kind, x⟩] (.literal {} value x template) :=
  found_atom fun _ c d _ hp _ => ⟨.literal (d.spanFrom c.current.span) value x template,
    h hp.kind hp.value (literal_gives.mpr ⟨hp.2.2.symm, by rw [hp.value]⟩), rfl⟩

theorem found_undefined : Level.primary.Found [⟨.undefinedWord, x⟩] (.identifier {} "undefined") := by
  refine found_atom fun b c d _ hp _ =>
    ⟨.identifier (d.spanFrom c.current.span) "undefined", ?_, rfl⟩
  refine bind_gives.mpr ⟨_, c, peek_gives.mpr ⟨rfl, rfl⟩, ?_⟩
  simp only [hp.kind, bind_gives, advance_gives, spanFrom_gives, pure_gives]
  exact ⟨_, _, ⟨rfl, hp.2.2.symm⟩, _, _, ⟨rfl, rfl⟩, rfl, rfl⟩

theorem found_name : Level.primary.Found [⟨.identifier, x⟩] (.identifier {} x) := by
  refine found_atom fun b c d _ hp _ => ⟨.identifier (d.spanFrom c.current.span) x, ?_, rfl⟩
  refine bind_gives.mpr ⟨_, c, peek_gives.mpr ⟨rfl, rfl⟩, ?_⟩
  simp only [hp.kind]
  exact identifier_gives.mpr ⟨x, hp, rfl⟩

theorem found_array
    (h : Slotted (FoundPhrase (.expression .assignment)) w ns) :
    Level.primary.Found (⟨.leftBracket, x⟩ :: w ++ [⟨.rightBracket, y⟩]) (.array {} ns) := by
  refine found_atom fun b c d hk hp _ => ?_
  cases b with
  | nil =>
    have := hp.left_lt (by simp)
    simp only [List.length_nil] at hk
    omega
  | cons t b =>
    obtain ⟨⟨span, qs⟩, hqs, rfl⟩ := bracketed_finds
      (fun _ _ h => inner_assignment_finds (b := t :: b) (Nat.lt_succ_self _) h.found) (by decide)
      (by decide) (fun _ _ h => h.phrase.avoids (by decide)) h hk hp trivial
    refine ⟨.array span qs, bind_gives.mpr ⟨_, c, peek_gives.mpr ⟨rfl, rfl⟩, ?_⟩, by simp [Node.bare]⟩
    simp only [hp.kind, Rule.array, bind_gives, pure_gives]
    exact ⟨_, d, hqs, rfl, rfl⟩

theorem found_object
    (h : Listed (FoundPhrase .property) w ns) :
    Level.primary.Found (⟨.leftBrace, x⟩ :: w ++ [⟨.rightBrace, y⟩]) (.object {} ns) := by
  refine found_atom fun b c d hk hp _ => ?_
  have hl := hp.kind
  obtain ⟨c₁, hpl, hp⟩ := Cursor.passes_head.mp hp
  obtain ⟨c₂, hpw, hpr⟩ := Cursor.passes_append.mp hp
  have hr : c₂.current.kind = .rightBrace := hpr.kind
  obtain ⟨qs, hqs, rfl⟩ := listUntil_finds (fun _ _ h => h.found b) (by decide)
    (fun _ _ h => h.phrase.avoids (by decide)) (by decide) (by decide) h (Nat.le_trans hpl.left_le hk) hpw hr
  refine ⟨.object (d.spanFrom c.current.span) qs, ?_, by simp [Node.bare]⟩
  refine bind_gives.mpr ⟨_, c, peek_gives.mpr ⟨rfl, rfl⟩, ?_⟩
  simp only [hl, Rule.object, bind_gives, spanFrom_gives, pure_gives]
  exact ⟨_, c₁, expect_of_passes hpl, qs, c₂, hqs, _, d, expect_of_passes hpr, _, d, ⟨rfl, rfl⟩, rfl, rfl⟩

theorem found_parenthesized (h : Level.assignment.Found w n) :
    Level.primary.Found (⟨.leftParen, x⟩ :: w ++ [⟨.rightParen, y⟩]) n := by
  refine found_atom fun b c d hk hp _ => ?_
  have hl := hp.kind
  obtain ⟨c₁, hpl, hp⟩ := Cursor.passes_head.mp hp
  obtain ⟨c₂, hpw, hpr⟩ := Cursor.passes_append.mp hp
  have hlt : c₁.left < b.length := by
    have := hpl.left_lt (by simp)
    omega
  obtain ⟨q, hq, rfl⟩ := inner_assignment_finds hlt h (Nat.le_refl _) hpw (hpr.not_mem (by decide))
  refine ⟨q, bind_gives.mpr ⟨_, c, peek_gives.mpr ⟨rfl, rfl⟩, ?_⟩, rfl⟩
  simp only [hl, bind_gives, advance_gives, pure_gives]
  exact ⟨_, c₁, ⟨rfl, hpl.2.2.symm⟩, q, c₂, hq, _, d, expect_of_passes hpr, rfl, rfl⟩

end Atoms

/-! ## Parts and markup -/

section Markup

variable {w v u t : List Terminal} {n m : Node} {ns as : List Node} {x y p q : String}

theorem found_property (h : Level.assignment.Found w n) :
    Found .property (⟨.identifier, x⟩ :: ⟨.colon, y⟩ :: w) (.property {} (.identifier {} x) n) := by
  intro b c d hk hp hd
  obtain ⟨c₁, hpx, hp⟩ := Cursor.passes_head.mp hp
  obtain ⟨c₂, hpc, hpw⟩ := Cursor.passes_head.mp hp
  have hlt : c₂.left < b.length := by
    have := hpx.left_lt (by simp)
    have := hpc.left_le
    omega
  obtain ⟨e, he, rfl⟩ := inner_assignment_finds hlt h (Nat.le_refl _) hpw hd
  refine ⟨.property (d.spanFrom (c₁.spanFrom c.current.span))
    (.identifier (c₁.spanFrom c.current.span) x) e, ?_, by simp [Node.bare]⟩
  simp only [Rule.property, bind_gives, spanFrom_gives, pure_gives]
  exact ⟨_, c₁, identifier_gives.mpr ⟨x, hpx, rfl⟩, _, c₂, expect_of_passes hpc, e, d, he, _, d,
    ⟨rfl, rfl⟩, rfl, rfl⟩

theorem found_container (h : Level.assignment.Found w n) :
    Found .container (⟨.leftBrace, x⟩ :: w ++ [⟨.rightBrace, y⟩]) (.container {} n) := by
  intro b c d hk hp _
  obtain ⟨c₁, hpl, hp⟩ := Cursor.passes_head.mp hp
  obtain ⟨c₂, hpw, hpr⟩ := Cursor.passes_append.mp hp
  have hlt : c₁.left < b.length := by
    have := hpl.left_lt (by simp)
    omega
  obtain ⟨e, he, rfl⟩ := inner_assignment_finds hlt h (Nat.le_refl _) hpw (hpr.not_mem (by decide))
  refine ⟨.container (d.spanFrom c.current.span) e, ?_, by simp [Node.bare]⟩
  simp only [Rule.container, bind_gives, spanFrom_gives, pure_gives]
  exact ⟨_, c₁, expect_of_passes hpl, e, c₂, he, _, d, expect_of_passes hpr, _, d, ⟨rfl, rfl⟩, rfl, rfl⟩

/-- An attribute is its name and what it is given, if it is given something. -/
theorem tagAttribute_gives {inner : Inner} {c c₁ d : Cursor} {value : Node}
    (hx : c.Passes [⟨.identifier, x⟩] c₁)
    (hv : (Rule.attributeValue inner x).Gives c₁ value d) :
    (Rule.tagAttribute inner).Gives c (.tagAttribute (d.spanFrom c.current.span)
      (.tagName (c₁.spanFrom c.current.span) x) value) d := by
  simp only [Rule.tagAttribute, bind_gives, spanFrom_gives, pure_gives]
  refine ⟨_, c₁, expect_of_passes hx, _, c₁, ⟨rfl, rfl⟩, value, d, ?_, _, d, ⟨rfl, rfl⟩, ?_, rfl⟩
  · rw [hx.value]
    exact hv
  · rw [hx.value]

theorem found_bareAttribute :
    Found .tagAttribute [⟨.identifier, x⟩] (.tagAttribute {} (.tagName {} x) .absent) := by
  intro b c d _ hp hd
  have hv : (Rule.attributeValue (inner b) x).Gives d .absent d := by
    simp only [Rule.attributeValue, bind_gives]
    exact ⟨false, d, accept_of_ne hd, pure_gives.mpr ⟨rfl, rfl⟩⟩
  exact ⟨_, tagAttribute_gives hp hv, by simp [Node.bare]⟩

theorem found_textAttribute {z : String} :
    Found .tagAttribute [⟨.identifier, x⟩, ⟨.assign, y⟩, ⟨.string, z⟩]
      (.tagAttribute {} (.tagName {} x) (.literal {} (.text z) z false)) := by
  intro b c d _ hp _
  obtain ⟨c₁, hpx, hp⟩ := Cursor.passes_head.mp hp
  obtain ⟨c₂, hpa, hpz⟩ := Cursor.passes_head.mp hp
  have hv : (Rule.attributeValue (inner b) x).Gives c₁
      (.literal (d.spanFrom c₂.current.span) (.text z) z false) d := by
    simp only [Rule.attributeValue, Rule.givenValue, bind_gives]
    refine ⟨true, c₂, accept_of_passes hpa, ?_⟩
    refine bind_gives.mpr ⟨_, c₂, peek_gives.mpr ⟨rfl, rfl⟩, ?_⟩
    simp only [hpz.kind, hpz.value]
    exact literal_gives.mpr ⟨hpz.2.2.symm, by rw [hpz.value]⟩
  exact ⟨_, tagAttribute_gives hpx hv, by simp [Node.bare]⟩

theorem found_givenAttribute (hw : Phrase .container w n) (h : Found .container w n) :
    Found .tagAttribute (⟨.identifier, x⟩ :: ⟨.assign, y⟩ :: w) (.tagAttribute {} (.tagName {} x) n) := by
  intro b c d hk hp _
  obtain ⟨c₁, hpx, hp⟩ := Cursor.passes_head.mp hp
  obtain ⟨c₂, hpa, hpw⟩ := Cursor.passes_head.mp hp
  obtain ⟨v, hv, rfl⟩ := h b (by have := hpx.left_le; have := hpa.left_le; omega) hpw trivial
  have hvalue : (Rule.attributeValue (inner b) x).Gives c₁ v d := by
    simp only [Rule.attributeValue, Rule.givenValue, bind_gives]
    refine ⟨true, c₂, accept_of_passes hpa, ?_⟩
    refine bind_gives.mpr ⟨_, c₂, peek_gives.mpr ⟨rfl, rfl⟩, ?_⟩
    obtain ⟨t, u, rfl, ht⟩ := hw.opens
    have hl : c₂.current.kind = .leftBrace := hpw.kind.trans (by simpa [Form.openers] using ht)
    simp only [hl]
    exact hv
  exact ⟨_, tagAttribute_gives hpx hvalue, by simp [Node.bare]⟩

/-! ### Children -/

theorem found_wordChild : Found .child [⟨.identifier, x⟩] (.markupText {} x) := by
  intro b k _ c d _ hp _
  refine ⟨some (.markupText (d.spanFrom c.current.span) x), ?_, by simp [Node.bare]⟩
  refine bind_gives.mpr ⟨_, c, peek_gives.mpr ⟨rfl, rfl⟩, ?_⟩
  simp only [hp.kind, hp.value, bind_gives, advance_gives, spanFrom_gives, pure_gives]
  exact ⟨_, d, ⟨rfl, hp.2.2.symm⟩, _, d, ⟨rfl, rfl⟩, rfl, rfl⟩

theorem found_textChild : Found .child [⟨.string, x⟩] (.markupText {} x) := by
  intro b k _ c d _ hp _
  refine ⟨some (.markupText (d.spanFrom c.current.span) x), ?_, by simp [Node.bare]⟩
  refine bind_gives.mpr ⟨_, c, peek_gives.mpr ⟨rfl, rfl⟩, ?_⟩
  simp only [hp.kind, hp.value, bind_gives, advance_gives, spanFrom_gives, pure_gives]
  exact ⟨_, d, ⟨rfl, hp.2.2.symm⟩, _, d, ⟨rfl, rfl⟩, rfl, rfl⟩

theorem found_givenChild (hw : Phrase .container w n) (h : Found .container w n) :
    Found .child w n := by
  intro b k hb c d hk hp _
  obtain ⟨v, hv, rfl⟩ := h b (Nat.le_trans hk (Nat.le_of_lt hb)) hp trivial
  refine ⟨some v, bind_gives.mpr ⟨_, c, peek_gives.mpr ⟨rfl, rfl⟩, ?_⟩, rfl⟩
  obtain ⟨t, u, rfl, ht⟩ := hw.opens
  have hl : c.current.kind = .leftBrace := hp.kind.trans (by simpa [Form.openers] using ht)
  simp only [hl]
  exact map_gives.mpr ⟨v, hv, rfl⟩

theorem found_nestedChild (hw : Phrase .markup w n) (h : Found .markup w n) : Found .child w n := by
  intro b k hb c d hk hp _
  obtain ⟨v, hv, rfl⟩ := inner_markup_finds hb h hk hp trivial
  refine ⟨some v, bind_gives.mpr ⟨_, c, peek_gives.mpr ⟨rfl, rfl⟩, ?_⟩, rfl⟩
  obtain ⟨x, t, u, rfl, -⟩ := hw.markup_opens
  simp only [hp.kind]
  exact map_gives.mpr ⟨v, hv, rfl⟩

/-- Where a child stands, nothing closes the markup. -/
theorem insideMarkup_of_child (h : Phrase .child w n) {c d : Cursor} (hp : c.Passes w d) :
    (c.current.kind ≠ .closeTag && !Rule.isFragmentEnd c) = true := by
  have hfirst : c.current.kind ∉ [.closeTag] := hp.avoids (h.avoids (by decide))
  have hend : Rule.isFragmentEnd c = false := by
    cases h with
    | nestedChild hw =>
      obtain ⟨x, t, u, rfl, ht⟩ := hw.markup_opens
      have hnext : c.next.kind = t.kind := hp.next
      rcases ht with ht | ht <;> simp [Rule.isFragmentEnd, hnext, ht]
    | wordChild => simp [Rule.isFragmentEnd, hp.kind]
    | textChild => simp [Rule.isFragmentEnd, hp.kind]
    | givenChild hw =>
      have hless : c.current.kind ∉ [.less] := hp.avoids (hw.avoids (by decide))
      simp_all [Rule.isFragmentEnd]
  simp_all

/-- What stands between tags is taken up to what closes them. -/
theorem children_finds {b : List Token} {k : Nat} (hb : k < b.length)
    (h : Interspersed (FoundPhrase .child) w ns) {c d : Cursor}
    (hk : c.left ≤ k) (hp : c.Passes w d)
    (hd : d.current.kind = .closeTag ∨ Rule.isFragmentEnd d = true) :
    ∃ qs, (Rule.children (inner b)).Gives c qs d ∧ qs.map Node.bare = ns := by
  obtain ⟨os, ho, rfl⟩ := (interspersed_iff_sequence d.current.kind).mp h
  have hitem : ∀ ⦃kind w o⦄, Skipping (FoundPhrase .child) kind w o →
      w ≠ [] ∧ Finds (Rule.child (inner b)) (Option.map Node.bare) k (· = kind) w o := by
    intro kind w o hw
    cases o with
    | some n =>
      replace hw : FoundPhrase .child w n := hw
      exact ⟨hw.phrase.ne_nil, (hw.found b k hb).mono fun _ _ => trivial⟩
    | none =>
      obtain ⟨t, rfl, ht⟩ := hw
      refine ⟨by simp, fun c d _ hp _ => ⟨none, ?_, rfl⟩⟩
      refine bind_gives.mpr ⟨_, c, peek_gives.mpr ⟨rfl, rfl⟩, ?_⟩
      rw [← hp.kind] at ht
      simp only [markupKinds, List.mem_cons, List.not_mem_nil, or_false, not_or] at ht
      split
      · simp_all
      · simp_all
      · simp_all
      · simp_all
      · simp_all
      · simp only [bind_gives, advance_gives, pure_gives]
        exact ⟨_, d, ⟨rfl, hp.2.2.symm⟩, trivial, rfl⟩
  have hmore : ∀ ⦃kind w o⦄ ⦃c d : Cursor⦄,
      Skipping (FoundPhrase .child) kind w o → c.Passes w d →
      d.current.kind = kind → (c.current.kind ≠ .closeTag && !Rule.isFragmentEnd c) = true := by
    intro kind w o c d hw hp _
    cases o with
    | some n =>
      replace hw : FoundPhrase .child w n := hw
      exact insideMarkup_of_child hw.phrase hp
    | none =>
      obtain ⟨t, rfl, ht⟩ := hw
      rw [← hp.kind] at ht
      simp_all [markupKinds, Rule.isFragmentEnd]
  obtain ⟨os, hos, rfl⟩ := manyWhile_finds _ hitem hmore ho hk hp rfl (by
    rcases hd with hd | hd <;> simp [hd])
  refine ⟨os.filterMap id, ?_, by simp [List.filterMap_map, List.map_filterMap]⟩
  simp only [Rule.children, bind_gives, pure_gives]
  exact ⟨os, d, hos, rfl, rfl⟩

/-! ### Elements -/

theorem tagName_reached {c : Cursor} (h : TagName w n) {d : Cursor} (hp : c.Passes w d) :
    ∃ first q, Reaches tagName (tagStep first) c q d ∧ q.bare = n := by
  induction h generalizing d with
  | word =>
    exact ⟨_, _, reaches_steps.after (tagWord_gives.mpr ⟨_, hp, rfl⟩), rfl⟩
  | member _ ih =>
    obtain ⟨e, hpw, hp⟩ := Cursor.passes_append.mp hp
    obtain ⟨e', hpd, hpy⟩ := Cursor.passes_head.mp hp
    obtain ⟨first, q, hq, rfl⟩ := ih hpw
    have hf := tagWord_gives.mpr ⟨_, hpy, rfl⟩
    rw [hpd.2.2] at hf
    exact ⟨first, _, hq.step (tagStep_some.mpr ⟨hpd.kind, _, hf, rfl⟩) (hp.left_lt (by simp)),
      by simp [Node.bare]⟩

/-- A name is taken up to a token that is no point. -/
theorem tagName_finds (h : TagName w n) {c d : Cursor} (hp : c.Passes w d)
    (hd : d.current.kind ≠ .dot) : ∃ q, tagName.Gives c q d ∧ q.bare = n := by
  obtain ⟨first, q, hq, rfl⟩ := tagName_reached h hp
  exact ⟨q, hq.stop (tagStep_none.mpr ⟨hd, rfl⟩), rfl⟩

/-- After some attributes comes another one or what comes after them all. -/
theorem follower_of_attributes {kind : TokenKind}
    (h : Sequence (fun _ => FoundPhrase .tagAttribute) kind w as) :
    follower w kind = kind ∨ follower w kind = .identifier := by
  cases h with
  | nil => exact .inl rfl
  | cons hw _ =>
    obtain ⟨t, u, rfl, ht⟩ := hw.phrase.opens
    exact .inr (by simpa [Form.openers] using ht)

/-- Attributes are taken up to a token that is neither a name nor an equals sign. -/
theorem attributes_find {b : List Token} {kind : TokenKind}
    (h : Sequence (fun _ => FoundPhrase .tagAttribute) kind w as)
    (hi : kind ≠ .identifier) (ha : kind ≠ .assign) {c d : Cursor} (hk : c.left ≤ b.length)
    (hp : c.Passes w d) (hd : d.current.kind = kind) :
    ∃ qs, (manyWhile (isAt .identifier) (Rule.tagAttribute (inner b))).Gives c qs d ∧
      qs.map Node.bare = as := by
  replace h : Sequence (fun k w n => FoundPhrase .tagAttribute w n ∧ k ≠ .assign)
      kind w as := h.mono fun hw hrest => by
    refine ⟨hw, ?_⟩
    rcases follower_of_attributes hrest with hf | hf <;> rw [hf]
    · exact ha
    · decide
  refine manyWhile_finds (fun c => c.current.kind = .identifier) ?_ ?_ h hk hp hd (by simp [hd, hi])
  · rintro k w n ⟨hw, hne⟩
    exact ⟨hw.phrase.ne_nil, (hw.found b).mono fun _ hk => hk ▸ hne⟩
  · rintro k w n c d ⟨hw, -⟩ hp -
    obtain ⟨t, u, rfl, ht⟩ := hw.phrase.opens
    simpa [Form.openers, ← hp.kind] using ht

theorem fragmentEnd_of_passes {c d : Cursor}
    (h : c.Passes [⟨.less, p⟩, ⟨.selfClose, q⟩] d ∨ c.Passes [⟨.closeTag, p⟩, ⟨.greater, q⟩] d) :
    Rule.fragmentEnd.Gives c () d := by
  refine bind_gives.mpr ⟨_, c, look_gives.mpr ⟨rfl, rfl⟩, ?_⟩
  rcases h with h | h
  · have hc : Rule.isFragmentEnd c = true := by simp [Rule.isFragmentEnd, h.kind, h.next]
    obtain ⟨e, hl, hs⟩ := Cursor.passes_head.mp h
    simp only [hc, if_true, bind_gives, advance_gives, pure_gives]
    exact ⟨_, e, ⟨rfl, hl.2.2.symm⟩, _, d, ⟨rfl, hs.2.2.symm⟩, trivial, rfl⟩
  · have hc : Rule.isFragmentEnd c = false := by simp [Rule.isFragmentEnd, h.kind]
    obtain ⟨e, hl, hs⟩ := Cursor.passes_head.mp h
    simp only [hc, Bool.false_eq_true, if_false, bind_gives, pure_gives]
    exact ⟨_, e, expect_of_passes hl, _, d, expect_of_passes hs, trivial, rfl⟩

/-- A fragment is closed in either of two ways. -/
theorem found_fragment {end₁ end₂ : TokenKind}
    (he : end₁ = .less ∧ end₂ = .selfClose ∨ end₁ = .closeTag ∧ end₂ = .greater)
    (h : Interspersed (FoundPhrase .child) w ns) :
    Found .markup (⟨.less, x⟩ :: ⟨.greater, y⟩ :: w ++ [⟨end₁, p⟩, ⟨end₂, q⟩]) (.fragment {} ns) := by
  intro b c d hk hp _
  obtain ⟨c₁, hpl, hp⟩ := Cursor.passes_head.mp hp
  obtain ⟨c₂, hpg, hp⟩ := Cursor.passes_head.mp hp
  obtain ⟨c₃, hpw, hpe⟩ := Cursor.passes_append.mp hp
  have hlt : c₂.left < b.length := by
    have := hpl.left_lt (by simp)
    have := hpg.left_le
    omega
  have hclose : c₃.current.kind = .closeTag ∨ Rule.isFragmentEnd c₃ = true := by
    rcases he with ⟨rfl, rfl⟩ | ⟨rfl, rfl⟩
    · exact .inr (by simp [Rule.isFragmentEnd, hpe.kind, hpe.next])
    · exact .inl hpe.kind
  obtain ⟨qs, hqs, rfl⟩ := children_finds hlt h (Nat.le_refl _) hpw hclose
  have hend : Rule.fragmentEnd.Gives c₃ () d := by
    rcases he with ⟨rfl, rfl⟩ | ⟨rfl, rfl⟩
    · exact fragmentEnd_of_passes (.inl hpe)
    · exact fragmentEnd_of_passes (.inr hpe)
  refine ⟨.fragment (d.spanFrom c.current.span) qs, ?_, by simp [Node.bare]⟩
  refine bind_gives.mpr ⟨_, c₁, expect_of_passes hpl, ?_⟩
  refine bind_gives.mpr ⟨true, c₂, accept_of_passes hpg, ?_⟩
  simp only [if_true, bind_gives, spanFrom_gives, pure_gives]
  exact ⟨qs, c₃, hqs, (), d, hend, _, d, ⟨rfl, rfl⟩, rfl, rfl⟩

/-- What an element begins with: its name and its attributes. -/
theorem tag_finds {b : List Token} {kind : TokenKind} (hw : TagName w n)
    (hv : Sequence (fun _ => FoundPhrase .tagAttribute) kind v as)
    (hkind : kind = .selfClose ∨ kind = .greater) {c d : Cursor} (hk : c.left ≤ b.length)
    (hp : c.Passes (w ++ v) d) (hd : d.current.kind = kind) :
    ∃ e name qs, tagName.Gives c name e ∧
      (manyWhile (isAt .identifier) (Rule.tagAttribute (inner b))).Gives e qs d ∧
      name.bare = n ∧ qs.map Node.bare = as := by
  obtain ⟨e, hpw, hpv⟩ := Cursor.passes_append.mp hp
  have hdot : e.current.kind ≠ .dot := by
    rw [hpv.current, hd]
    rcases follower_of_attributes hv with hf | hf <;> rw [hf]
    · rcases hkind with rfl | rfl <;> decide
    · decide
  obtain ⟨name, hn, rfl⟩ := tagName_finds hw hpw hdot
  obtain ⟨qs, hq, rfl⟩ := attributes_find hv (by rcases hkind with rfl | rfl <;> decide)
    (by rcases hkind with rfl | rfl <;> decide) (Nat.le_trans hpw.left_le hk) hpv hd
  exact ⟨e, name, qs, hn, hq, rfl, rfl⟩

theorem found_closedElement (hw : TagName w n)
    (hv : Sequence (fun _ => FoundPhrase .tagAttribute) .selfClose v as) :
    Found .markup (⟨.less, x⟩ :: w ++ v ++ [⟨.selfClose, y⟩]) (.element {} n as [] true) := by
  intro b c d hk hp _
  rw [List.cons_append, List.cons_append] at hp
  obtain ⟨c₁, hpl, hp⟩ := Cursor.passes_head.mp hp
  obtain ⟨c₂, hpt, hps⟩ := Cursor.passes_append.mp hp
  have hgt : c₁.current.kind ≠ .greater := by
    obtain ⟨z, u, rfl⟩ := hw.opens
    simp [hpt.kind]
  obtain ⟨e, name, qs, hn, hq, rfl, rfl⟩ := tag_finds hw hv (.inl rfl) (Nat.le_trans hpl.left_le hk)
    hpt hps.kind
  refine ⟨.element (d.spanFrom c.current.span) name qs [] true, ?_, by simp [Node.bare]⟩
  refine bind_gives.mpr ⟨_, c₁, expect_of_passes hpl, ?_⟩
  refine bind_gives.mpr ⟨false, c₁, accept_of_ne hgt, ?_⟩
  simp only [Bool.false_eq_true, if_false, bind_gives]
  refine ⟨name, e, hn, qs, c₂, hq, true, d, accept_of_passes hps, ?_⟩
  simp only [if_true, bind_gives, spanFrom_gives, pure_gives]
  exact ⟨_, d, ⟨rfl, rfl⟩, rfl, rfl⟩

theorem found_openElement (hw : TagName w n)
    (hv : Sequence (fun _ => FoundPhrase .tagAttribute) .greater v as)
    (hu : Interspersed (FoundPhrase .child) u ns) (ht : TagName t m) :
    Found .markup
      (⟨.less, x⟩ :: w ++ v ++ ⟨.greater, y⟩ :: u ++ ⟨.closeTag, p⟩ :: t ++ [⟨.greater, q⟩])
      (.element {} n as ns false) := by
  intro b c d hk hp _
  simp only [List.cons_append, List.append_assoc] at hp
  obtain ⟨c₁, hpl, hp⟩ := Cursor.passes_head.mp hp
  rw [← List.append_assoc] at hp
  obtain ⟨c₂, hpt, hp⟩ := Cursor.passes_append.mp hp
  obtain ⟨c₃, hpg, hp⟩ := Cursor.passes_head.mp hp
  obtain ⟨c₄, hpu, hp⟩ := Cursor.passes_append.mp hp
  obtain ⟨c₅, hpc, hp⟩ := Cursor.passes_head.mp hp
  obtain ⟨c₆, hpm, hpg'⟩ := Cursor.passes_append.mp hp
  have hgt : c₁.current.kind ≠ .greater := by
    obtain ⟨z, u, rfl⟩ := hw.opens
    simp [hpt.kind]
  have hlt : c₃.left < b.length := by
    have := hpl.left_lt (by simp)
    have := hpt.left_le
    have := hpg.left_le
    omega
  obtain ⟨e, name, qs, hn, hq, rfl, rfl⟩ := tag_finds hw hv (.inr rfl) (Nat.le_trans hpl.left_le hk)
    hpt hpg.kind
  obtain ⟨rs, hr, rfl⟩ := children_finds hlt hu (Nat.le_refl _) hpu (.inl hpc.kind)
  obtain ⟨close, hclose, -⟩ := tagName_finds ht hpm (by simp [hpg'.kind])
  refine ⟨.element (d.spanFrom c.current.span) name qs rs false, ?_, by simp [Node.bare]⟩
  refine bind_gives.mpr ⟨_, c₁, expect_of_passes hpl, ?_⟩
  refine bind_gives.mpr ⟨false, c₁, accept_of_ne hgt, ?_⟩
  simp only [Bool.false_eq_true, if_false, bind_gives]
  refine ⟨name, e, hn, qs, c₂, hq, false, c₂, accept_of_ne (by simp [hpg.kind]), ?_⟩
  simp only [Bool.false_eq_true, if_false, bind_gives, spanFrom_gives, pure_gives]
  exact ⟨_, c₃, expect_of_passes hpg, rs, c₄, hr, _, c₅, expect_of_passes hpc, close, c₆, hclose, _, d,
    expect_of_passes hpg', _, d, ⟨rfl, rfl⟩, rfl, rfl⟩

theorem found_element (hw : Phrase .markup w n) (h : Found .markup w n) :
    Level.primary.Found w n := by
  refine found_atom fun b c d hk hp _ => ?_
  obtain ⟨q, hq, rfl⟩ := h b hk hp trivial
  obtain ⟨x, t, u, rfl, ht⟩ := hw.markup_opens
  refine ⟨q, bind_gives.mpr ⟨_, c, peek_gives.mpr ⟨rfl, rfl⟩, ?_⟩, rfl⟩
  have hnext : c.next.kind = t.kind := hp.next
  have hopens : (c.current.kind = .less && (c.next.kind = .identifier || c.next.kind = .greater))
      = true := by
    rcases ht with ht | ht <;> simp [hp.kind, hnext, ht]
  simp only [hp.kind]
  exact bind_gives.mpr ⟨true, c, look_gives.mpr ⟨hopens, rfl⟩, hq⟩

end Markup

/-! ## All phrases -/

/-- What the tokens form is found where they stand. -/
theorem found_of_phrase {f : Form} {w : List Terminal} {n : Node} (h : Phrase f w n) :
    Found f w n := by
  induction h using Phrase.induction with
  | tighter hl hw ih => exact found_tighter hl hw ih
  | assignment _ ho _ ihw ihv => exact found_assignment ihw ho ihv
  | conditional _ _ _ ihw ihv ihu => exact found_conditional ihw ihv ihu
  | binary hl _ ho _ ihw ihv => exact found_binary hl ihw ho ihv
  | power _ _ ihw ihv => exact found_power ihw ihv
  | unary ho _ ih => exact found_unary ho ih
  | call _ _ ihw ihv => exact found_call ihw ihv
  | member _ ih => exact found_member ih
  | computed _ _ ihw ihv => exact found_computed ihw ihv
  | number hk => exact found_number hk
  | string =>
    exact found_literal fun hk hv hl =>
      bind_gives.mpr ⟨_, _, peek_gives.mpr ⟨rfl, rfl⟩, by simpa only [hk, hv] using hl⟩
  | template =>
    exact found_literal fun hk hv hl =>
      bind_gives.mpr ⟨_, _, peek_gives.mpr ⟨rfl, rfl⟩, by simpa only [hk, hv] using hl⟩
  | trueWord =>
    exact found_literal fun hk hv hl =>
      bind_gives.mpr ⟨_, _, peek_gives.mpr ⟨rfl, rfl⟩, by simpa only [hk, hv] using hl⟩
  | falseWord =>
    exact found_literal fun hk hv hl =>
      bind_gives.mpr ⟨_, _, peek_gives.mpr ⟨rfl, rfl⟩, by simpa only [hk, hv] using hl⟩
  | nullWord =>
    exact found_literal fun hk hv hl =>
      bind_gives.mpr ⟨_, _, peek_gives.mpr ⟨rfl, rfl⟩, by simpa only [hk, hv] using hl⟩
  | undefinedWord => exact found_undefined
  | name => exact found_name
  | array _ ih => exact found_array ih
  | object _ ih => exact found_object ih
  | parenthesized _ ih => exact found_parenthesized ih
  | element hw ih => exact found_element hw ih
  | property _ ih => exact found_property ih
  | container _ ih => exact found_container ih
  | bareAttribute => exact found_bareAttribute
  | textAttribute => exact found_textAttribute
  | givenAttribute hw ih => exact found_givenAttribute hw ih
  | wordChild => exact found_wordChild
  | textChild => exact found_textChild
  | givenChild hw ih => exact found_givenChild hw ih
  | nestedChild hw ih => exact found_nestedChild hw ih
  | fragment _ ih => exact found_fragment (.inl ⟨rfl, rfl⟩) ih
  | taggedFragment _ ih =>
    exact found_fragment (.inr ⟨rfl, rfl⟩) ih
  | closedElement hw _ ih => exact found_closedElement hw ih
  | openElement hw _ _ ht ihv ihu =>
    exact found_openElement hw ihv
      ihu ht

/-- An expression is taken up to a token that does not make it longer. -/
theorem expression_finds {w : List Terminal} {n : Node} (h : Phrase (.expression .assignment) w n)
    (k : Nat) : Finds expression Node.bare k (· ∉ Level.assignment.continuing) w n := by
  intro c d _ hp hd
  obtain ⟨q, hq, rfl⟩ := (found_of_phrase h : Level.assignment.Found w n).finds c.budget
    (Nat.le_succ c.left) hp hd
  exact ⟨q, expression_gives.mpr hq, rfl⟩

end Parser

end HanScript
