-- Programs that are the same compile to the same text. To be the same, two
-- literals need to have values of the same amount only, so that truth and one
-- are the same; but what the parser makes of a literal can be told from how it
-- is written.
import HanScript.Proofs.Printing.Unmarked
import HanScript.Proofs.RoundTrip.Program

namespace HanScript

namespace Node

/-! ## Other values -/

/-- The node without its span, and with another value if it is a literal. -/
def revaluedRoot (f : Value → String → Value) : Node → Node
  | literal _ value raw template => literal {} (f value raw) raw template
  | n => n.rebuilt (fun _ => {}) id

/-- The bare tree, in which each literal has the value that is made of its own and of how it is
written. -/
def revalued (f : Value → String → Value) (n : Node) : Node := n.rewritten (revaluedRoot f)

section

variable {f : Value → String → Value}

theorem revalued_eq {n : Node} (h : ∀ s value raw template, n ≠ literal s value raw template) :
    n.revalued f = n.rebuilt (fun _ => {}) (revalued f) := by
  unfold revalued
  rw [rewritten_eq]
  cases n with
  | literal s value raw template => exact absurd rfl (h s value raw template)
  | _ => simp only [rebuilt, revaluedRoot, id, List.map_id]

mutual

/-- Trees that are the same have the same values as far as values that are the same are given the
same value. -/
theorem revalued_of_same (hf : ∀ v w raw, v.same w = true → f v raw = f w raw) (n m : Node)
    (h : n.same m = true) : n.revalued f = m.revalued f := by
  cases n <;> simp only [same] at h <;> split at h <;> first | contradiction | rfl | skip
  -- Both nodes are of one kind, and what sameness asks of each of their parts makes that part equal.
  all_goals
    revert h
    unfold revalued
    simp only [Bool.and_eq_true, beq_iff_eq, and_imp, rewritten, rewrittenList_eq_map, revaluedRoot,
      rebuilt, List.map_id, id]
    intros
    congr 1 <;> first
      | assumption
      | exact revalued_of_same hf _ _ (by assumption)
      | exact revalued_of_sameList hf _ _ (by assumption)
      | (subst_vars; exact hf _ _ _ (by assumption))

theorem revalued_of_sameList (hf : ∀ v w raw, v.same w = true → f v raw = f w raw)
    (ns ms : List Node) (h : sameList ns ms = true) : ns.map (revalued f) = ms.map (revalued f) := by
  cases ns with
  | nil =>
    cases ms with
    | nil => rfl
    | cons => cases h
  | cons n ns =>
    cases ms with
    | nil => cases h
    | cons m ms =>
      simp only [sameList, Bool.and_eq_true] at h
      rw [List.map_cons, List.map_cons, revalued_of_same hf n m h.1, revalued_of_sameList hf ns ms h.2]

end

end

/-- A node depends on what it is rebuilt from by its parts only. -/
theorem rebuilt_congr {g : Span → Span} {f f' : Node → Node} {n : Node}
    (h : ∀ part ∈ n.parts, f part.2 = f' part.2) : n.rebuilt g f = n.rebuilt g f' := by
  cases n <;> simp only [parts, List.forall_mem_append, List.forall_mem_cons, List.forall_mem_map] at h <;>
    simp_all [rebuilt]

end Node

/-! ## The value that a literal shows -/

/-- The value of a literal that amounts to this and is written like that. -/
def Meaning.asWritten (m : Meaning) (raw : String) : Value :=
  match m, Numeral.value? raw with
  | nothing, _ => .nothing
  | text s, _ => .text s
  | _, some k => .number k
  | m, none => .truth (m = .amount 1)

def Value.asWritten (value : Value) (raw : String) : Value := value.meaning.asWritten raw

theorem Value.asWritten_of_same {v w : Value} {raw : String} (h : v.same w = true) :
    v.asWritten raw = w.asWritten raw := by
  unfold same at h
  unfold asWritten
  rw [of_decide_eq_true h]

theorem Value.asWritten_number {k : Number} {raw : String} (h : Numeral.value? raw = some k) :
    (number k).asWritten raw = .number k := by
  unfold asWritten Meaning.asWritten
  rw [h]
  cases k with
  | integer => rfl
  | double d => cases d <;> rfl

theorem Value.asWritten_truth {b : Bool} {raw : String} (h : Numeral.value? raw = none) :
    (truth b).asWritten raw = .truth b := by
  unfold asWritten Meaning.asWritten
  rw [h]
  cases b <;> rfl

/-- The word for a truth value is no numeral. -/
theorem WordMeans.value?_truth {x : String} {kind : TokenKind} (h : WordMeans x kind)
    (hkind : kind = .trueWord ∨ kind = .falseWord) : Numeral.value? x = none := by
  cases h with
  | @keyword k hk hword =>
    have hkeywords : ∀ k ∈ Vocabulary.keywords, k.kind = .trueWord ∨ k.kind = .falseWord →
        Numeral.value? k.word = none := by decide
    exact hword ▸ hkeywords k hk hkind
  | literal _ he =>
    have hliterals : ∀ e ∈ Vocabulary.literals, e.2 = .trueWord ∨ e.2 = .falseWord →
        Numeral.value? e.1 = none := by decide
    exact hliterals _ he hkind
  | name => simp at hkind

theorem TokenForm.value?_truth {t : Terminal} (h : TokenForm t)
    (hkind : t.kind = .trueWord ∨ t.kind = .falseWord) : Numeral.value? t.value = none := by
  cases h with
  | string | template | number | stray => simp at hkind
  | @word x hx => exact (wordMeans_wordKind x).value?_truth hkind
  | @sign e he =>
    have hsigns : ∀ e ∈ signsAndTags, ¬ (e.2 = .trueWord ∨ e.2 = .falseWord) := by decide
    exact absurd hkind (hsigns e he)

/-- What the grammar makes of tokens has the values that it shows. -/
theorem revalued_asWritten {r : Role} {n : Node} (h : Node.Everywhere (Formed TokenForm) r n) :
    n.revalued Value.asWritten = n.bare := by
  induction h with
  | @mk r n hn _ ih =>
    cases n with
    | literal s value raw template =>
      have hvalue : value.asWritten raw = value := by
        have hformed := hn.2
        cases value with
        | nothing | text => rfl
        | number k => exact Value.asWritten_number hformed.2
        | truth b =>
          apply Value.asWritten_truth
          exact TokenForm.value?_truth hformed (by cases b <;> simp)
      simp only [Node.revalued, Node.rewritten, Node.revaluedRoot, Node.bare, hvalue]
    | _ =>
      rw [Node.bare_eq_rebuilt, Node.revalued_eq (by intros; exact nofun)]
      exact Node.rebuilt_congr ih

/-! ## Programs -/

/-- Of parsed programs that are the same, nothing but the spans differs. -/
theorem bare_of_same {a b : String} {p q : Node} (ha : parseSource a = .ok p)
    (hb : parseSource b = .ok q) (h : p.same q = true) : p.bare = q.bare := by
  have hshown : ∀ {source : String} {p : Node}, parseSource source = .ok p →
      p.revalued Value.asWritten = p.bare := fun hp =>
    revalued_asWritten (formed_of_tokens hp fun _ ht => (tokenForm_of_sentence ht).1)
  calc p.bare = p.revalued Value.asWritten := (hshown ha).symm
    _ = q.revalued Value.asWritten :=
      Node.revalued_of_same (f := Value.asWritten) (fun v w raw hv => Value.asWritten_of_same hv) p q h
    _ = q.bare := hshown hb

/-- Sources whose programs are the same compile to the same text. -/
theorem same_programs_compile_alike {a b : String} {p q : Node} (ha : parseSource a = .ok p)
    (hb : parseSource b = .ok q) (h : p.same q = true) :
    ∃ text, compile a = .ok text ∧ compile b = .ok text := by
  have hp := conforms_of_parse ha
  obtain ⟨text, htext⟩ : Succeeds (render p) := rendered_of_conforms hp
  have hsame : render q = render p := by
    rw [← render_bare hp, ← render_bare (conforms_of_parse hb), bare_of_same ha hb h]
  exact ⟨text, compile_of_parse ha htext, compile_of_parse hb (hsame.trans htext)⟩

/-- Two writings of one assignment, of a truth value and of a number that is as much. -/
def assignedTruth : String := "x = [(真), 1.0] ;"

def assignedTruthAgain : String := "x=【真、1.0】"

theorem assignedTruth_compiles_alike :
    ∃ p q, parseSource assignedTruth = .ok p ∧ parseSource assignedTruthAgain = .ok q ∧
      p.same q = true ∧
      ∃ text, compile assignedTruth = .ok text ∧ compile assignedTruthAgain = .ok text := by
  obtain ⟨p, hp⟩ : ∃ p, parseSource assignedTruth = .ok p := ⟨_, rfl⟩
  obtain ⟨q, hq⟩ : ∃ q, parseSource assignedTruthAgain = .ok q := ⟨_, rfl⟩
  have hsame : (parseSource assignedTruth).toOption.any fun p =>
      (parseSource assignedTruthAgain).toOption.any fun q => p.same q := by decide
  have h : p.same q = true := by simpa [hp, hq, Except.toOption] using hsame
  exact ⟨p, q, hp, hq, h, same_programs_compile_alike hp hq h⟩

/-- Trees that no source gives may be the same and have different texts. -/
example :
    (Node.literal {} (.truth true) "1" false).same (.literal {} (.number (.integer 1)) "1" false) = true ∧
      Script.expression (.literal {} (.truth true) "1" false) = .ok "true" ∧
      Script.expression (.literal {} (.number (.integer 1)) "1" false) = .ok "1" :=
  ⟨by decide, rfl, rfl⟩

end HanScript
