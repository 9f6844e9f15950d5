-- The texts of expressions are read as the expressions, without their markup.
-- The parentheses that the renderer puts are those that the levels of the grammar
-- ask for.
import HanScript.Proofs.Conformance.Formed
import HanScript.Proofs.Printing.Lowered
import HanScript.Proofs.Printing.Reading

namespace HanScript

open Grammar Script

/-- Names for elements, and all that is no name, are read as they are. -/
structure Transparent (ρ : Terminal → Terminal) : Prop where
  signs : KeepsSigns ρ
  react : ∀ x ∈ ["React", "createElement", "Fragment"], ρ ⟨.identifier, x⟩ = ⟨.identifier, x⟩

/-- A token that the scanner makes and that is read as it is. -/
def Faithful (ρ : Terminal → Terminal) (t : Terminal) : Prop := Lexical t ∧ ρ t = t

theorem Faithful.named {ρ : Terminal → Terminal} {x : String} (h : Faithful ρ ⟨.identifier, x⟩) :
    Named ρ x := ⟨h.1.name rfl, h.2⟩

/-- No text in the node itself has a backslash. -/
def Node.Quotable : Node → Prop
  | .literal _ (.text s) _ _ | .markupText _ s => '\\' ∉ s.toList
  | _ => True

/-- The tree goes back to faithful tokens, and no text in it has a backslash. -/
def Printable (ρ : Terminal → Terminal) : Role → Node → Prop :=
  Node.Everywhere fun r n => Formed (Faithful ρ) r n ∧ n.Quotable

/-- The text of the expression is read as the expression, as tightly bound as it is. -/
def Prints (ρ : Terminal → Terminal) (n : Node) : Prop :=
  ∃ text w l, Script.expression n = .ok text ∧ min (precedence n) callLevel ≤ Level.rank l ∧
    Reading ρ l (startsWithObject n) n.lowered text w

/-- What is read as an atom binds as tightly as anything. -/
theorem prints_atom {ρ : Terminal → Terminal} {n : Node} {text : String} {w : List Terminal}
    (htext : Script.expression n = .ok text)
    (h : Reading ρ .primary (startsWithObject n) n.lowered text w) : Prints ρ n :=
  ⟨text, w, .primary, htext, Nat.le_trans (Nat.min_le_right _ _) (by decide), h⟩

theorem bind_eq_ok {α β : Type} {x : Except RenderError α} {f : α → Except RenderError β} {a : α}
    {b : β} (hx : x = .ok a) (hf : f a = .ok b) : x >>= f = .ok b := by
  rw [hx]
  exact hf

/-! ## Operators -/

/-- The renderer and the grammar agree on how tightly operators bind. -/
theorem operator_level {e : String × TokenKind} (he : e ∈ signs) {l : Level} (hl : e.2 ∈ l.operators) :
    operatorLevels.lookup e.1 = some l.rank ∧ (e.1 == "**") = false ∧ l.rank < callLevel ∧
      l.tighter?.isSome := by
  have hall : ∀ e ∈ signs, e.2 ∈ l.operators → operatorLevels.lookup e.1 = some l.rank ∧
      (e.1 == "**") = false ∧ l.rank < callLevel ∧ l.tighter?.isSome := by
    cases l <;> decide
  exact hall e he hl

theorem power_level {e : String × TokenKind} (he : e ∈ signs) (hk : e.2 = .power) :
    operatorLevels.lookup e.1 = some Level.power.rank ∧ (e.1 == "**") = true := by
  have hall : ∀ e ∈ signs, e.2 = .power →
      operatorLevels.lookup e.1 = some Level.power.rank ∧ (e.1 == "**") = true := by decide
  exact hall e he hk

section

variable {ρ : Terminal → Terminal} (hρ : KeepsSigns ρ) {a b c : Node} (s : Span)

include hρ

theorem prints_leftAssociative {e : String × TokenKind} (he : e ∈ signs) {l : Level}
    (hl : e.2 ∈ l.operators) (ha : Prints ρ a) (hb : Prints ρ b) : Prints ρ (.binary s e.1 a b) := by
  obtain ⟨left, w, la, hleft, hla, hra⟩ := ha
  obtain ⟨right, v, lb, hright, hlb, hrb⟩ := hb
  obtain ⟨hlookup, hpower, hcall, hsome⟩ := operator_level he hl
  obtain ⟨m, hm⟩ := Option.isSome_iff_exists.mp hsome
  have hrank := Level.rank_tighter hm
  obtain ⟨w', hw'⟩ := hra.wrapped hρ (l := l) (precedence a < l.rank) (by simp; omega)
  obtain ⟨v', hv'⟩ := hrb.wrapped hρ (l := m) (precedence b < l.rank || precedence b == l.rank)
    (by simp; omega)
  refine ⟨_, w' ++ ⟨e.2, e.1⟩ :: v', l, bind_eq_ok hleft (bind_eq_ok hright rfl), ?_, ?_⟩
  · have hlevel : precedence (.binary s e.1 a b) = l.rank := by simp [precedence, hlookup]
    exact Nat.le_trans (Nat.min_le_left _ _) (Nat.le_of_eq hlevel)
  · simpa [binaryText, hlookup, hpower, startsWithObject, Node.lowered_binary] using
      hw'.binary hρ he hm hl hv' s

theorem prints_power {e : String × TokenKind} (he : e ∈ signs) (hk : e.2 = .power)
    (ha : Prints ρ a) (hb : Prints ρ b) : Prints ρ (.binary s e.1 a b) := by
  obtain ⟨left, w, la, hleft, hla, hra⟩ := ha
  obtain ⟨right, v, lb, hright, hlb, hrb⟩ := hb
  obtain ⟨hlookup, hpower⟩ := power_level he hk
  have hcall : Level.unary.rank < callLevel := by decide
  have hunary : Level.unary.rank = Level.power.rank + 1 := rfl
  obtain ⟨w', hw'⟩ := hra.wrapped hρ (l := .unary) (precedence a < Level.power.rank ||
    (precedence a == Level.power.rank || (unaryOperator? a).isSome)) (by simp; omega)
  obtain ⟨v', hv'⟩ := hrb.wrapped hρ (l := .power) (precedence b < Level.power.rank) (by simp; omega)
  refine ⟨_, w' ++ ⟨e.2, e.1⟩ :: v', .power, bind_eq_ok hleft (bind_eq_ok hright rfl), ?_, ?_⟩
  · have hlevel : precedence (.binary s e.1 a b) = Level.power.rank := by simp [precedence, hlookup]
    exact Nat.le_trans (Nat.min_le_left _ _) (Nat.le_of_eq hlevel)
  · simpa [binaryText, hlookup, hpower, startsWithObject, Node.lowered_binary] using
      hw'.power hρ he hk hv' s

theorem prints_binary {op : String} (hop : (Node.binary s op a b).FormedOf (Faithful ρ) .expression)
    (ha : Prints ρ a) (hb : Prints ρ b) : Prints ρ (.binary s op a b) := by
  obtain ⟨kind, ⟨hlexical, -⟩, hkind⟩ := hop
  rcases hkind with rfl | ⟨l, hl⟩
  · have he : (op, TokenKind.power) ∈ signs := hlexical.sign (by decide : .power ∈ signs.map Prod.snd)
    exact prints_power hρ s (e := (op, .power)) he rfl ha hb
  · have hsign : ∀ kind ∈ l.operators, kind ∈ signs.map Prod.snd := by
      cases l <;> decide
    have he : (op, kind) ∈ signs := hlexical.sign (hsign kind hl)
    exact prints_leftAssociative hρ s (e := (op, kind)) he hl ha hb

theorem prints_assignment {op : String}
    (hop : (Node.assignment s op a b).FormedOf (Faithful ρ) .expression) (ha : Prints ρ a)
    (hb : Prints ρ b) : Prints ρ (.assignment s op a b) := by
  obtain ⟨kind, hkind, hlexical, -⟩ := hop
  obtain ⟨left, w, la, hleft, hla, hra⟩ := ha
  obtain ⟨right, v, lb, hright, hlb, hrb⟩ := hb
  have hsign : ∀ kind ∈ assignmentOperators, kind ∈ signs.map Prod.snd := by decide
  have he : (op, kind) ∈ signs := hlexical.sign (hsign kind hkind)
  have hloose : Level.logicalOr.rank = conditionalLevel + 1 := rfl
  have hcall : Level.logicalOr.rank < callLevel := by decide
  obtain ⟨w', hw'⟩ := hra.wrapped hρ (l := .logicalOr) (precedence a ≤ conditionalLevel)
    (by simp; omega)
  refine ⟨_, w' ++ ⟨kind, op⟩ :: v, .assignment, bind_eq_ok hleft (bind_eq_ok hright rfl),
    Nat.min_le_left _ _, ?_⟩
  exact hw'.assignment hρ he hkind (hrb.loosen lb.one_le_rank) s

theorem prints_conditional (ha : Prints ρ a) (hb : Prints ρ b) (hc : Prints ρ c) :
    Prints ρ (.conditional s a b c) := by
  obtain ⟨test, w, la, htest, hla, hra⟩ := ha
  obtain ⟨consequent, v, lb, hconsequent, -, hrb⟩ := hb
  obtain ⟨alternate, u, lc, halternate, -, hrc⟩ := hc
  have hloose : Level.logicalOr.rank = conditionalLevel + 1 := rfl
  have hcall : Level.logicalOr.rank < callLevel := by decide
  obtain ⟨w', hw'⟩ := hra.wrapped hρ (l := .logicalOr) (precedence a ≤ conditionalLevel)
    (by simp; omega)
  refine ⟨_, w' ++ ⟨.question, "?"⟩ :: v ++ ⟨.colon, ":"⟩ :: u, .conditional,
    bind_eq_ok htest (bind_eq_ok hconsequent (bind_eq_ok halternate rfl)), Nat.min_le_left _ _, ?_⟩
  exact hw'.conditional hρ (hrb.loosen lb.one_le_rank) (hrc.loosen lc.one_le_rank) s

theorem prints_unary {op : String} {before : Bool}
    (hop : (Node.unary s op a before).FormedOf (Faithful ρ) .expression) (ha : Prints ρ a) :
    Prints ρ (.unary s op a before) := by
  obtain ⟨rfl, kind, hkind, hlexical, -⟩ := hop
  obtain ⟨argument, w, la, hargument, hla, hra⟩ := ha
  have hsign : ∀ kind ∈ unaryOperators, kind ∈ signs.map Prod.snd := by decide
  have he : (op, kind) ∈ signs := hlexical.sign (hsign kind hkind)
  have hcall : Level.unary.rank < callLevel := by decide
  have hlevel : Level.unary.rank = unaryLevel := rfl
  obtain ⟨w', hw'⟩ := hra.wrapped hρ (l := .unary) (precedence a < unaryLevel ||
    (op == "-" || op == "+") && unaryOperator? a == some op) (by simp; omega)
  exact ⟨_, ⟨kind, op⟩ :: w', .unary, bind_eq_ok hargument rfl, Nat.min_le_left _ _,
    hw'.unary hρ he hkind s⟩

/-! ## Calls and members -/

/-- What is called, or what a member is taken of. -/
theorem Prints.operand (ha : Prints ρ a) :
    ∃ text w, Script.expression a = .ok text ∧
      Reading ρ .suffixed (startsWithObject a) a.lowered (operandText a text) w := by
  obtain ⟨text, w, l, htext, hl, hread⟩ := ha
  have hlevel : Level.suffixed.rank = callLevel := rfl
  obtain ⟨w', hw'⟩ := hread.wrapped hρ (l := .suffixed) (precedence a < callLevel) (by simp; omega)
  exact ⟨text, w', htext, hw'⟩

omit hρ in
/-- An expression where any expression may stand. -/
theorem Prints.written (ha : Prints ρ a) :
    Written ρ (Script.expression a) (Phrase (.expression .assignment) · a.lowered.bare) := by
  obtain ⟨text, w, l, htext, -, hread⟩ := ha
  exact hread.written htext

theorem prints_call {arguments : List Node} (ha : Prints ρ a) (hargs : ∀ n ∈ arguments, Prints ρ n) :
    Prints ρ (.call s a arguments) := by
  obtain ⟨text, w, htext, hread⟩ := ha.operand hρ
  obtain ⟨texts, htexts, hspelt⟩ := spelt_of_written fun n hn => (hargs n hn).written
  obtain ⟨v, hspells, hargs⟩ := spelt_separatedOrNone hρ hspelt
  rw [← expressions_eq_mapM] at htexts
  refine ⟨_, w ++ ⟨.leftParen, "("⟩ :: v ++ [⟨.rightParen, ")"⟩], .suffixed,
    bind_eq_ok htexts (bind_eq_ok htext rfl), Nat.min_le_left _ _, ?_⟩
  rw [← Node.bareList_lowered] at hargs
  exact hread.call hρ hspells hargs s

theorem prints_computed (ha : Prints ρ a) (hb : Prints ρ b) : Prints ρ (.member s a b true) := by
  obtain ⟨text, w, htext, hread⟩ := ha.operand hρ
  obtain ⟨index, v, l, hindex, -, hb⟩ := hb
  refine ⟨_, w ++ ⟨.leftBracket, "["⟩ :: v ++ [⟨.rightBracket, "]"⟩], .suffixed,
    bind_eq_ok htext (bind_eq_ok hindex rfl), Nat.min_le_left _ _, ?_⟩
  exact hread.computed hρ (hb.loosen l.one_le_rank) s

omit hρ in
theorem isBareInteger_of_expression {text : String} (h : Script.expression a = .ok text) :
    ∃ bare, isBareInteger a = .ok bare := by
  cases a with
  | literal s value raw isTemplate =>
    cases value with
    | number k =>
      cases isTemplate with
      | true => cases h
      | false => exact ⟨_, bind_eq_ok h rfl⟩
    | _ => exact ⟨_, rfl⟩
  | _ => exact ⟨_, rfl⟩

/-- A number that a point could go on with is put in parentheses. That changes nothing here. -/
theorem prints_member {t : Span} {x : String} (ha : Prints ρ a) (hx : Named ρ x) :
    Prints ρ (.member s a (.identifier t x) false) := by
  obtain ⟨text, w, htext, hread⟩ := ha.operand hρ
  obtain ⟨bare, hbare⟩ := isBareInteger_of_expression htext
  obtain ⟨w', hw'⟩ := hread.wrapped hρ (l := .suffixed) bare fun _ => Nat.le_refl _
  refine ⟨_, w' ++ [⟨.dot, "."⟩, ⟨.identifier, x⟩], .suffixed,
    bind_eq_ok htext (bind_eq_ok hbare rfl), Nat.min_le_left _ _, ?_⟩
  exact hw'.member hρ hx s t

/-! ## Lists -/

theorem prints_array {items : List Node} (h : ∀ n ∈ items, n = .absent ∨ Prints ρ n) :
    Prints ρ (.array s items) := by
  have hslots : ∀ n ∈ items, (slot n = .ok none ∧ n.lowered.bare = .absent) ∨
      ∃ text w, slot n = .ok (some text) ∧ Spells ρ text w ∧
        Phrase (.expression .assignment) w n.lowered.bare := by
    intro n hn
    rcases h n hn with rfl | hprints
    · exact .inl ⟨rfl, rfl⟩
    · obtain ⟨text, w, htext, hspells, hphrase⟩ := hprints.written
      refine .inr ⟨text, w, ?_, hspells, hphrase⟩
      cases n with
      | absent => cases htext
      | _ => exact bind_eq_ok htext rfl
  obtain ⟨texts, htexts, w, hspells, hw⟩ := written_slotted hρ hslots
  rw [← slots_eq_mapM] at htexts
  rw [← Node.bareList_lowered] at hw
  exact prints_atom (bind_eq_ok htexts rfl) (.array hspells hw s)

theorem prints_object {properties : List Node}
    (h : ∀ n ∈ properties, Written ρ (pair n) (Phrase .property · n.lowered.bare)) :
    Prints ρ (.object s properties) := by
  obtain ⟨texts, htexts, hspelt⟩ := spelt_of_written h
  have hbraced : ∃ w, Spells ρ (braced "\x7b\x7d" texts)
      (⟨.leftBrace, "\x7b"⟩ :: w ++ [⟨.rightBrace, "\x7d"⟩]) ∧
      Listed (Phrase .property) w (properties.map fun n => n.lowered.bare) := by
    cases properties with
    | nil =>
      cases htexts
      exact ⟨[], fun r _ => by simp (disch := decide) [braced, hρ.sign], .nil⟩
    | cons => exact spelt_braced hρ hspelt (by simp) _
  obtain ⟨w, hspells, hw⟩ := hbraced
  rw [← pairs_eq_mapM] at htexts
  rw [← Node.bareList_lowered] at hw
  exact prints_atom (bind_eq_ok htexts rfl) (.object hspells hw s)

/-! ## Names and literals -/

theorem prints_identifier {x : String}
    (hx : (Node.identifier s x).FormedOf (Faithful ρ) .expression) : Prints ρ (.identifier s x) := by
  rcases hx with hx | ⟨-, rfl⟩
  · exact prints_atom rfl (.name hx.named s)
  · exact prints_atom rfl (.undefined hρ s)

theorem prints_literal {value : Value} {raw : String} {isTemplate : Bool}
    (hn : Node.isSoundLiteral value raw isTemplate)
    (hl : (Node.literal s value raw isTemplate).FormedOf (Faithful ρ) .expression)
    (hq : (Node.literal s value raw isTemplate).Quotable) :
    Prints ρ (.literal s value raw isTemplate) := by
  cases value with
  | text x =>
    obtain ⟨rfl, -⟩ := hl
    cases isTemplate with
    | true => exact prints_atom rfl (.template hρ s hq)
    | false => exact prints_atom rfl (.string hρ s hq)
  | number k =>
    simp only [Node.isSoundLiteral, Bool.and_eq_true, Bool.not_eq_true'] at hn
    obtain ⟨rfl, hraw⟩ := hn
    have htext : Script.expression (.literal s (.number k) raw false) = .ok raw := by
      simp [Script.expression, literal, numberOr, hraw]
    exact prints_atom htext (.number hρ s (hl.1.1.number rfl) hl.2)
  | truth b =>
    simp only [Node.isSoundLiteral, Bool.not_eq_true'] at hn
    subst hn
    cases b with
    | true => exact prints_atom rfl (.truth hρ s)
    | false => exact prints_atom rfl (.falsity hρ s)
  | nothing =>
    simp only [Node.isSoundLiteral, Bool.not_eq_true'] at hn
    subst hn
    exact prints_atom rfl (.nothing hρ s)

end

end HanScript
