-- Texts of expressions, read at a level of the grammar. Each way of putting texts
-- together is a way of putting together the trees that they are read as.
import HanScript.Proofs.Grammar.Expression
import HanScript.Proofs.Printing.Lists
import HanScript.Script.Precedence

namespace HanScript

open Grammar Script Vocabulary

namespace Grammar

/-- The place of a level, counted from the loosest. -/
def Level.rank : Level → Nat
  | assignment => 1
  | conditional => 2
  | logicalOr => 3
  | logicalAnd => 4
  | equality => 5
  | relational => 6
  | additive => 7
  | multiplicative => 8
  | power => 9
  | unary => 10
  | suffixed => 11
  | primary => 12

theorem Level.rank_le (l : Level) : l.rank ≤ primary.rank := by
  cases l <;> decide

theorem Level.one_le_rank (l : Level) : assignment.rank ≤ l.rank := by
  cases l <;> decide

theorem Level.rank_tighter {l m : Level} (h : l.tighter? = some m) : m.rank = l.rank + 1 := by
  cases l <;> cases h <;> rfl

theorem Level.eq_of_rank {l m : Level} (h : l.rank = m.rank) : l = m := by
  cases l <;> cases m <;> simp [rank] at h ⊢

/-- What binds tightly enough for a level does so for every looser one. -/
theorem Phrase.loosen {l m : Level} {w : List Terminal} {n : Node} (h : Phrase (.expression m) w n)
    (hl : l.rank ≤ m.rank) : Phrase (.expression l) w n := by
  obtain ⟨d, hd⟩ := Nat.exists_eq_add_of_le hl
  induction d generalizing l with
  | zero =>
    rw [Level.eq_of_rank hd.symm]
    exact h
  | succ d ih =>
    cases ht : l.tighter? with
    | none =>
      have hl : l = .primary := by
        cases l <;> first | rfl | cases ht
      have := m.rank_le
      rw [hl] at hd
      omega
    | some k =>
      have hk := Level.rank_tighter ht
      exact .tighter ht (ih (by omega) (by omega))

end Grammar

/-- The text spells tokens that form the tree at the level. They begin with a brace only if it is
said that they may. -/
structure Reading (ρ : Terminal → Terminal) (l : Level) (braced : Bool) (m : Node) (text : String)
    (w : List Terminal) : Prop where
  spells : Spells ρ text w
  phrase : Phrase (.expression l) w m.bare
  opens : braced = false → follower w .eof ≠ .leftBrace

namespace Reading

variable {ρ : Terminal → Terminal} {l m : Level} {b c : Bool} {n k : Node} {text other : String}
  {w v : List Terminal}

theorem loosen (h : Reading ρ m b n text w) (hl : l.rank ≤ m.rank) : Reading ρ l b n text w :=
  ⟨h.spells, h.phrase.loosen hl, h.opens⟩

/-- What follows has no say in what the text begins with. -/
theorem opens_append (h : Reading ρ l b n text w) (v : List Terminal) :
    b = false → follower (w ++ v) .eof ≠ .leftBrace := by
  intro hb
  rw [follower_append, follower_of_ne_nil h.phrase.ne_nil _ .eof]
  exact h.opens hb

theorem spelt (h : Reading ρ l b n text w) : Spelt ρ (Phrase (.expression .assignment)) text n.bare :=
  ⟨w, h.spells, h.phrase.loosen l.one_le_rank⟩

theorem written (h : Reading ρ l b n text w) {x : Except RenderError String} (hx : x = .ok text) :
    Written ρ x (Phrase (.expression .assignment) · n.bare) :=
  ⟨text, w, hx, h.spells, h.phrase.loosen l.one_le_rank⟩

/-! ## Atoms -/

theorem name {x : String} (hx : Named ρ x) (s : Span) :
    Reading ρ .primary false (.identifier s x) x [⟨.identifier, x⟩] :=
  ⟨hx.spells, .name, nofun⟩

section

variable (hρ : KeepsSigns ρ) (s : Span)

include hρ

theorem number {x : String} {k : Number} (hx : IsNumeral x) (hk : Numeral.value? x = some k) :
    Reading ρ .primary false (.literal s (.number k) x false) x [⟨.number, x⟩] :=
  ⟨spells_numeral hρ hx, .number hk, nofun⟩

theorem string {x : String} (hx : '\\' ∉ x.toList) :
    Reading ρ .primary false (.literal s (.text x) x false) (quote x) [⟨.string, x⟩] :=
  ⟨spells_quote hρ hx, .string, nofun⟩

theorem template {x : String} (hx : '\\' ∉ x.toList) :
    Reading ρ .primary false (.literal s (.text x) x true) (Script.template x) [⟨.template, x⟩] :=
  ⟨spells_template hρ hx, .template, nofun⟩

/-- A word that is no name. -/
theorem word {x : String} (hx : IsWord x) (hk : wordKind x ≠ .identifier)
    (hb : wordKind x ≠ .leftBrace) (hp : Phrase (.expression .primary) [⟨wordKind x, x⟩] n.bare) :
    Reading ρ .primary false n x [⟨wordKind x, x⟩] := by
  have hspells : Spells ρ x _ := spells_word hx
  rw [hρ.sign _ _ hk] at hspells
  exact ⟨hspells, hp, fun _ => hb⟩

theorem undefined : Reading ρ .primary false (.identifier s "undefined") "undefined"
    [⟨.undefinedWord, "undefined"⟩] :=
  word hρ ⟨by decide, by decide⟩ (by decide) (by decide) .undefinedWord

theorem truth : Reading ρ .primary false (.literal s (.truth true) "true" false) "true"
    [⟨.trueWord, "true"⟩] :=
  word hρ ⟨by decide, by decide⟩ (by decide) (by decide) .trueWord

theorem falsity : Reading ρ .primary false (.literal s (.truth false) "false" false) "false"
    [⟨.falseWord, "false"⟩] :=
  word hρ ⟨by decide, by decide⟩ (by decide) (by decide) .falseWord

theorem nothing : Reading ρ .primary false (.literal s .nothing "null" false) "null"
    [⟨.nullWord, "null"⟩] :=
  word hρ ⟨by decide, by decide⟩ (by decide) (by decide) .nullWord

end

section

variable (hρ : KeepsSigns ρ)

include hρ

theorem parenthesized (h : Reading ρ l b n text w) :
    Reading ρ .primary false n (Script.parenthesized text)
      (⟨.leftParen, "("⟩ :: w ++ [⟨.rightParen, ")"⟩]) :=
  ⟨h.spells.parenthesized hρ, .parenthesized (h.phrase.loosen l.one_le_rank), nofun⟩

/-- A text in parentheses is read at every level, and without them at its own. -/
theorem wrapped (h : Reading ρ m b n text w) (needed : Bool) (hl : needed = false → l.rank ≤ m.rank) :
    ∃ v, Reading ρ l b n (parenthesizedIf needed text) v := by
  cases needed with
  | true =>
    have hp := h.parenthesized hρ
    exact ⟨_, hp.spells, hp.phrase.loosen l.rank_le, fun _ => hp.opens rfl⟩
  | false => exact ⟨w, h.loosen (hl rfl)⟩

/-! ## Operators -/

theorem binary {e : String × TokenKind} (he : e ∈ signs) (hl : l.tighter? = some m)
    (hk : e.2 ∈ l.operators) (ha : Reading ρ l b n text w) (hb : Reading ρ m c k other v) (s : Span) :
    Reading ρ l b (.binary s e.1 n k) (text ++ " " ++ e.1 ++ " " ++ other)
      (w ++ ⟨e.2, e.1⟩ :: v) :=
  ⟨ha.spells.operator hρ he hb.spells, .binary hl ha.phrase hk hb.phrase, ha.opens_append _⟩

theorem power {e : String × TokenKind} (he : e ∈ signs) (hk : e.2 = .power)
    (ha : Reading ρ .unary b n text w) (hb : Reading ρ .power c k other v) (s : Span) :
    Reading ρ .power b (.binary s e.1 n k) (text ++ " " ++ e.1 ++ " " ++ other)
      (w ++ ⟨e.2, e.1⟩ :: v) := by
  refine ⟨ha.spells.operator hρ he hb.spells, ?_, ha.opens_append _⟩
  rw [hk]
  exact .power ha.phrase hb.phrase

theorem assignment {e : String × TokenKind} (he : e ∈ signs) (hk : e.2 ∈ assignmentOperators)
    (ha : Reading ρ .logicalOr b n text w) (hb : Reading ρ .assignment c k other v) (s : Span) :
    Reading ρ .assignment b (.assignment s e.1 n k) (text ++ " " ++ e.1 ++ " " ++ other)
      (w ++ ⟨e.2, e.1⟩ :: v) :=
  ⟨ha.spells.operator hρ he hb.spells, .assignment ha.phrase hk hb.phrase, ha.opens_append _⟩

theorem conditional {d : Bool} {j : Node} {third : String} {u : List Terminal}
    (ha : Reading ρ .logicalOr b n text w) (hb : Reading ρ .assignment c k other v)
    (hd : Reading ρ .assignment d j third u) (s : Span) :
    Reading ρ .conditional b (.conditional s n k j)
      (text ++ " ? " ++ other ++ " : " ++ third)
      (w ++ ⟨.question, "?"⟩ :: v ++ ⟨.colon, ":"⟩ :: u) := by
  have hq : ("?", TokenKind.question) ∈ signs := by decide
  have hc : (":", TokenKind.colon) ∈ signs := by decide
  refine ⟨?_, .conditional ha.phrase hb.phrase hd.phrase, ?_⟩
  · have h := (ha.spells.operator hρ hq hb.spells).operator hρ hc hd.spells
    simpa [String.append_assoc] using h
  · rw [List.append_assoc]
    exact ha.opens_append _

/-- No expression begins with `=`. -/
theorem head_ne_equals (h : Reading ρ l b n text w) : ∃ d cs, text.toList = d :: cs ∧ d ≠ '=' := by
  obtain ⟨t, u, rfl, ht⟩ := (h.phrase.loosen l.one_le_rank).opens
  have hopeners : ∀ kind ∈ (Form.expression .assignment).openers, kind ∉ equalsKinds := by decide
  exact h.spells.head_ne_equals hρ (hopeners _ ht)

theorem unary {e : String × TokenKind} (he : e ∈ signs) (hk : e.2 ∈ unaryOperators)
    (ha : Reading ρ .unary b n text w) (s : Span) :
    Reading ρ .unary false (.unary s e.1 n true) (e.1 ++ text) (⟨e.2, e.1⟩ :: w) := by
  have hall : ∀ e ∈ signs, e.2 ∈ unaryOperators → e ∈ Vocabulary.oneSign ∧
      e.1.toList.length = 1 ∧ (e.1.toList.all fun c => c ∈ ['-', '+', '!']) ∧ e.2 ≠ .leftBrace := by
    decide
  obtain ⟨hone, hlength, hchars, hbrace⟩ := hall e he hk
  obtain ⟨c, hc⟩ := List.length_eq_one_iff.mp hlength
  have hmem : c ∈ ['-', '+', '!'] :=
    of_decide_eq_true (List.all_eq_true.mp hchars c (by simp [hc]))
  exact ⟨ha.spells.prefixed hρ hc hone hmem (ha.head_ne_equals hρ), .unary hk ha.phrase, fun _ => hbrace⟩

/-! ## Calls and members -/

theorem call {ns : List Node} (ha : Reading ρ .suffixed b n text w) (hb : Spells ρ other v)
    (hns : SeparatedOrNone (Phrase (.expression .assignment)) v (Node.bareList ns)) (s : Span) :
    Reading ρ .suffixed b (.call s n ns) (text ++ Script.parenthesized other)
      (w ++ ⟨.leftParen, "("⟩ :: v ++ [⟨.rightParen, ")"⟩]) := by
  refine ⟨ha.spells.applied hρ hb, .call ha.phrase hns, ?_⟩
  rw [List.append_assoc]
  exact ha.opens_append _

theorem member {x : String} (hx : Named ρ x) (ha : Reading ρ .suffixed b n text w) (s t : Span) :
    Reading ρ .suffixed b (.member s n (.identifier t x) false) (text ++ "." ++ x)
      (w ++ [⟨.dot, "."⟩, ⟨.identifier, x⟩]) :=
  ⟨ha.spells.pointed hρ hx, .member ha.phrase, ha.opens_append _⟩

theorem computed (ha : Reading ρ .suffixed b n text w) (hb : Reading ρ .assignment c k other v)
    (s : Span) :
    Reading ρ .suffixed b (.member s n k true) (text ++ "[" ++ other ++ "]")
      (w ++ ⟨.leftBracket, "["⟩ :: v ++ [⟨.rightBracket, "]"⟩]) := by
  refine ⟨ha.spells.indexed hρ hb.spells, .computed ha.phrase hb.phrase, ?_⟩
  rw [List.append_assoc]
  exact ha.opens_append _

omit hρ

/-! ## Lists -/

theorem array {ns : List Node}
    (hb : Spells ρ text (⟨.leftBracket, "["⟩ :: w ++ [⟨.rightBracket, "]"⟩]))
    (hns : Slotted (Phrase (.expression .assignment)) w (Node.bareList ns)) (s : Span) :
    Reading ρ .primary false (.array s ns) text
      (⟨.leftBracket, "["⟩ :: w ++ [⟨.rightBracket, "]"⟩]) :=
  ⟨hb, .array hns, nofun⟩

theorem object {ns : List Node}
    (hb : Spells ρ text (⟨.leftBrace, "\x7b"⟩ :: w ++ [⟨.rightBrace, "\x7d"⟩]))
    (hns : Listed (Phrase .property) w (Node.bareList ns)) (s : Span) :
    Reading ρ .primary true (.object s ns) text
      (⟨.leftBrace, "\x7b"⟩ :: w ++ [⟨.rightBrace, "\x7d"⟩]) :=
  ⟨hb, .object hns, nofun⟩

end

end Reading

end HanScript
