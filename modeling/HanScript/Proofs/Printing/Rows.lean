-- Rows of pieces that may stand side by side, and how they are put together. What
-- the text of an expression begins and ends with is known from how tightly the
-- expression binds.
import HanScript.Proofs.Printing.Reading
import HanScript.Proofs.Printing.Unquoted
import HanScript.Script.Expression

namespace HanScript

open Grammar Lexeme Script Vocabulary

/-! ## Rows of pieces -/

/-- The text is a row of pieces, each of which may stand before the next. -/
structure Laid (text : String) (ps : List Piece) : Prop where
  chars : text.toList = ps.flatMap Piece.chars
  meet : ps.IsChain Piece.Meets

/-- The row does not begin with a sign. -/
def Unsigned (ps : List Piece) : Prop := ∀ p ∈ ps.head?, p.isSign = false

/-- The row does not end with an integer, so that a point can come after it. -/
def Pointable (ps : List Piece) : Prop := ∀ p ∈ ps.getLast?, p.isInteger = false

section

variable {ps qs : List Piece}

theorem Unsigned.append (hps : Unsigned ps) (hqs : Unsigned qs) : Unsigned (ps ++ qs) := by
  cases ps with
  | nil => exact hqs
  | cons => exact hps

theorem unsigned_nil : Unsigned [] := by simp [Unsigned]

theorem unsigned_cons {p : Piece} (h : p.isSign = false) : Unsigned (p :: ps) := by
  simpa [Unsigned] using h

theorem pointable_concat {p : Piece} (h : p.isInteger = false) : Pointable (ps ++ [p]) := by
  intro q hq
  rw [List.getLast?_concat] at hq
  cases hq
  exact h

theorem not_sign_of_glue {p : Piece} (h : p.isGlue) : p.isSign = false := by
  cases p with
  | sign => cases h
  | _ => rfl

theorem not_integer_of_glue {p : Piece} (h : p.isGlue) : p.isInteger = false := by
  cases p with
  | number => cases h
  | _ => rfl

end

namespace Laid

variable {a b : String} {ps qs : List Piece}

theorem nothing : Laid "" [] := ⟨rfl, .nil⟩

theorem piece {p : Piece} (h : a.toList = p.chars) : Laid a [p] :=
  ⟨by simpa using h, .singleton p⟩

theorem append (ha : Laid a ps) (hb : Laid b qs)
    (h : ∀ p ∈ ps.getLast?, ∀ q ∈ qs.head?, p.Meets q) : Laid (a ++ b) (ps ++ qs) :=
  ⟨by rw [String.toList_append, ha.chars, hb.chars, List.flatMap_append], ha.meet.append hb.meet h⟩

/-- Glue can be put between any two texts. -/
theorem glued (ha : Laid a ps) {x : String} {g : Piece} (hx : x.toList = g.chars) (hg : g.isGlue)
    (hb : Laid b qs) : Laid (a ++ x ++ b) (ps ++ [g] ++ qs) := by
  have hleft : Laid (a ++ x) (ps ++ [g]) := by
    refine ha.append (.piece hx) fun p _ q hq => .before ?_
    obtain rfl : g = q := by simpa using hq
    exact hg
  refine hleft.append hb fun p hp q _ => .after ?_
  obtain rfl : g = p := by simpa using hp
  exact hg

theorem operator (ha : Laid a ps) {e : String × TokenKind} (he : e ∈ signs) (hk : e.2 ∉ pointKinds)
    (hb : Laid b qs) :
    Laid (a ++ " " ++ e.1 ++ " " ++ b) (ps ++ [.operator e he hk] ++ qs) := by
  have h := ha.glued (x := " " ++ e.1 ++ " ") (g := .operator e he hk) (by simp [Piece.chars]) rfl hb
  simpa [String.append_assoc] using h

/-- A text between two brackets begins and ends with glue. -/
theorem enclosed (ha : Laid a ps) {x y : String} (hx : x ∈ brackets) (hy : y ∈ brackets) :
    Laid (x ++ a ++ y) (.bracket x hx :: ps ++ [.bracket y hy]) := by
  have hleft := nothing.glued (x := x) (g := .bracket x hx) rfl rfl ha
  have h := hleft.glued (x := y) (g := .bracket y hy) rfl rfl nothing
  simpa using h

/-- A point can be put after anything but an integer. -/
theorem pointed (ha : Laid a ps) (hps : Pointable ps) {x : String} (hx : IsWord x) :
    Laid (a ++ "." ++ x) (ps ++ [.field x hx]) := by
  rw [String.append_assoc]
  refine ha.append (.piece (by simp [Piece.chars])) fun p hp q hq => ?_
  obtain rfl : Piece.field x hx = q := by simpa using hq
  exact .field (hps p hp)

/-- With parentheses the row begins and ends with glue, and without them as before. -/
theorem wrapped (ha : Laid a ps) (needed : Bool) :
    ∃ qs, Laid (parenthesizedIf needed a) qs ∧
      (∀ p ∈ qs.head?, p.isGlue ∨ needed = false ∧ p ∈ ps.head?) ∧
      (∀ p ∈ qs.getLast?, p.isGlue ∨ needed = false ∧ p ∈ ps.getLast?) := by
  cases needed with
  | false => exact ⟨ps, ha, fun p hp => .inr ⟨rfl, hp⟩, fun p hp => .inr ⟨rfl, hp⟩⟩
  | true =>
    refine ⟨_, ha.enclosed (x := "(") (y := ")") (by decide) (by decide), ?_, ?_⟩
    · intro p hp
      obtain rfl : Piece.bracket "(" (by decide) = p := by simpa using hp
      exact .inl rfl
    · intro p hp
      rw [List.getLast?_concat] at hp
      obtain rfl : Piece.bracket ")" (by decide) = p := by simpa using hp
      exact .inl rfl

end Laid

theorem laid_listed {texts : List String} (h : ∀ x ∈ texts, ∃ ps, Laid x ps) :
    ∃ ps, Laid (listed texts) ps := by
  induction texts with
  | nil => exact ⟨[], .nothing⟩
  | cons x rest ih =>
    rw [List.forall_mem_cons] at h
    obtain ⟨⟨ps, hps⟩, hrest⟩ := h
    obtain ⟨qs, hqs⟩ := ih hrest
    cases rest with
    | nil => exact ⟨ps, hps⟩
    | cons y rest =>
      exact ⟨_, hps.glued (x := ", ") (g := .bracket ", " (by decide)) rfl rfl hqs⟩

/-- There is a text, and it is a row of pieces. -/
def Rowed (x : Except RenderError String) : Prop := ∃ text, x = .ok text ∧ ∃ ps, Laid text ps

/-! ## How tightly expressions bind -/

theorem binary_level (op : String) : (operatorLevels.lookup op).getD looseLevel < unaryLevel := by
  have hlevels : ∀ e ∈ operatorLevels, e.2 < unaryLevel := by decide
  cases h : operatorLevels.lookup op with
  | none => decide
  | some level => exact hlevels _ (mem_of_lookup h)

theorem precedence_of_unaryOperator {n : Node} {x : String} (h : unaryOperator? n = some x) :
    precedence n = unaryLevel := by
  cases n with
  | unary => rfl
  | _ => cases h

/-- What binds more tightly than a power is a unary expression, or what can be called. -/
theorem callLevel_le {n : Node} (h : Level.power.rank < precedence n) (hu : unaryOperator? n = none) :
    callLevel ≤ precedence n := by
  cases n with
  | binary s op l r =>
    have hlevel := binary_level op
    have hsucc : unaryLevel = Level.power.rank + 1 := rfl
    simp only [precedence] at h
    omega
  | unary => cases hu
  | assignment => exact absurd h (by decide : ¬ Level.power.rank < assignmentLevel)
  | conditional => exact absurd h (by decide : ¬ Level.power.rank < conditionalLevel)
  | call | member => exact Nat.le_refl _
  | _ => exact (by decide : callLevel ≤ atomLevel)

/-! ## Expressions -/

/-- The text of the expression is a row of pieces. Only what binds loosely begins with a sign that
is not its own, and only what binds loosely or is a number ends with an integer. -/
structure LaidOut (n : Node) (text : String) (ps : List Piece) : Prop extends Laid text ps where
  text_eq : Script.expression n = .ok text
  begins : ∀ e he hu, ps.head? = some (.sign e he hu) →
    precedence n < unaryLevel ∨ unaryOperator? n = some e.1
  ends : ∀ p, ps.getLast? = some p → p.isInteger → precedence n < callLevel ∨ isBareInteger n = .ok true

namespace LaidOut

variable {n : Node} {text : String} {ps : List Piece}

theorem loose (h : Laid text ps) (htext : Script.expression n = .ok text)
    (hn : precedence n < unaryLevel) : LaidOut n text ps :=
  ⟨h, htext, fun _ _ _ _ => .inl hn, fun _ _ _ => .inl (Nat.lt_trans hn (by decide))⟩

theorem tight (h : Laid text ps) (htext : Script.expression n = .ok text) (hhead : Unsigned ps)
    (hlast : Pointable ps) : LaidOut n text ps := by
  refine ⟨h, htext, fun e he hu hp => ?_, fun p hp hinteger => ?_⟩
  · cases hhead _ hp
  · rw [hlast p hp] at hinteger
    cases hinteger

/-- A text that ends with a bracket, and does not begin with a sign. -/
theorem closed {a b x y : String} {qs : List Piece} (ha : Laid a ps) (hhead : Unsigned ps)
    (hb : Laid b qs) (hx : x ∈ brackets) (hy : y ∈ brackets)
    (htext : Script.expression n = .ok (a ++ (x ++ b ++ y))) :
    LaidOut n (a ++ (x ++ b ++ y)) (ps ++ (.bracket x hx :: qs ++ [.bracket y hy])) := by
  have hlaid : Laid (a ++ (x ++ b ++ y)) (ps ++ (.bracket x hx :: qs ++ [.bracket y hy])) := by
    refine ha.append (hb.enclosed hx hy) fun p _ q hq => .before ?_
    obtain rfl : Piece.bracket x hx = q := by simpa using hq
    rfl
  refine tight hlaid htext (hhead.append (unsigned_cons rfl)) ?_
  rw [← List.append_assoc]
  exact pointable_concat rfl

theorem atom {p : Piece} (hp : text.toList = p.chars) (htext : Script.expression n = .ok text)
    (hsign : p.isSign = false) (hinteger : p.isInteger = false) : LaidOut n text [p] :=
  tight (.piece hp) htext (unsigned_cons hsign) (@pointable_concat [] p hinteger)

/-- What can be called does not begin with a sign. -/
theorem unsigned (h : LaidOut n text ps) (hn : callLevel ≤ precedence n) : Unsigned ps := by
  intro p hp
  have hlevels : unaryLevel < callLevel := by decide
  cases p with
  | sign e he hu =>
    rcases h.begins e he hu hp with hloose | hunary
    · omega
    · have := precedence_of_unaryOperator hunary
      omega
  | _ => rfl

/-- What is called, or what a member is taken of. -/
theorem operand (h : LaidOut n text ps) :
    ∃ qs, Laid (operandText n text) qs ∧ Unsigned qs ∧
      ∀ p, qs.getLast? = some p → p.isInteger → isBareInteger n = .ok true := by
  obtain ⟨qs, hqs, hhead, hlast⟩ := h.toLaid.wrapped (precedence n < callLevel)
  refine ⟨qs, hqs, fun p hp => ?_, fun p hp hinteger => ?_⟩
  · rcases hhead p hp with hglue | ⟨hneeded, hp⟩
    · exact not_sign_of_glue hglue
    · exact h.unsigned (by simpa using hneeded) p hp
  · rcases hlast _ hp with hglue | ⟨hneeded, hp⟩
    · rw [not_integer_of_glue hglue] at hinteger
      cases hinteger
    · refine (h.ends p hp hinteger).resolve_left ?_
      simpa using hneeded

end LaidOut

/-- The expression has a text that is such a row. -/
def Arranged (n : Node) : Prop := ∃ text ps, LaidOut n text ps

theorem Arranged.rowed {n : Node} (h : Arranged n) : Rowed (Script.expression n) := by
  obtain ⟨text, ps, h⟩ := h
  exact ⟨text, h.text_eq, ps, h.toLaid⟩

end HanScript
