-- The keywords in JavaScript. The scanner takes them for names; read as keywords,
-- they make statements of the text again.
import HanScript.Proofs.Printing.Markup

namespace HanScript

open Grammar Script Vocabulary

/-! ## Names read as keywords -/

/-- The keywords that are spelled with one word in JavaScript. -/
def scriptWords : List (String × TokenKind) :=
  (keywords.filter fun k => ' ' ∉ k.script.toList).map fun k => (k.script, k.kind)

/-- What kind a token is read as, if names may be keywords. -/
def rekeyedKind (kind : TokenKind) (value : String) : TokenKind :=
  if kind = .identifier then (scriptWords.lookup value).getD .identifier else kind

/-- A name that is the spelling of a keyword becomes that keyword. -/
def Token.rekeyed (t : Token) : Token := { t with kind := rekeyedKind t.kind t.value }

def Terminal.rekeyed (t : Terminal) : Terminal := { t with kind := rekeyedKind t.kind t.value }

theorem keepsSigns_rekeyed : KeepsSigns Terminal.rekeyed := by
  intro t ht
  simp [Terminal.rekeyed, rekeyedKind, ht]

theorem rekeyed_name {x : String} (hx : x ∉ scriptWords.map Prod.fst) :
    Terminal.rekeyed ⟨.identifier, x⟩ = ⟨.identifier, x⟩ := by
  have hnone : scriptWords.lookup x = none := by
    refine List.lookup_eq_none_iff.mpr fun e he => ?_
    have hne : x ≠ e.1 := fun h => hx (h ▸ List.mem_map_of_mem he)
    simpa using hne
  simp [Terminal.rekeyed, rekeyedKind, hnone]

theorem transparent_rekeyed : Transparent Terminal.rekeyed :=
  ⟨keepsSigns_rekeyed, fun x hx => rekeyed_name (by revert x; decide)⟩

theorem rekeyed_ne_eof (t : Terminal) (h : t.kind ≠ .eof) : t.rekeyed.kind ≠ .eof := by
  unfold Terminal.rekeyed rekeyedKind
  split
  · cases hl : scriptWords.lookup t.value with
    | none => nofun
    | some kind =>
      have hall : ∀ e ∈ scriptWords, e.2 ≠ .eof := by decide
      exact hall _ (Lexeme.mem_of_lookup hl)
  · exact h

/-- A token that is no spelling of a keyword is read as it is. -/
theorem faithful_rekeyed {t : Terminal} (ht : Lexical t)
    (hname : t.kind = .identifier → t.value ∉ scriptWords.map Prod.fst) :
    Faithful Terminal.rekeyed t := by
  refine ⟨ht, ?_⟩
  by_cases hk : t.kind = .identifier
  · obtain ⟨kind, x⟩ := t
    cases hk
    exact rekeyed_name (hname rfl)
  · exact keepsSigns_rekeyed t hk

/-- The keywords that statements are written with. -/
def statementWords : List (String × TokenKind) :=
  [("let", .letWord), ("const", .constWord), ("function", .functionWord), ("if", .ifWord),
   ("else", .elseWord), ("while", .whileWord), ("for", .forWord), ("return", .returnWord),
   ("break", .breakWord), ("continue", .continueWord), ("import", .importWord), ("from", .fromWord),
   ("export", .exportWord), ("default", .defaultWord)]

theorem spells_keyword {x : String} {kind : TokenKind} (h : (x, kind) ∈ statementWords) :
    Spells Terminal.rekeyed x [⟨kind, x⟩] := by
  have hall : ∀ e ∈ statementWords,
      IsName e.1 ∧ Terminal.rekeyed ⟨.identifier, e.1⟩ = ⟨e.2, e.1⟩ := by
    unfold IsName IsWord
    decide
  obtain ⟨hname, hkey⟩ := hall _ h
  exact spells_name hname hkey

/-! ## Texts of statements -/

/-- Texts with the same characters spell the same. -/
theorem Spells.of_toList {ρ : Terminal → Terminal} {a b : String} {w : List Terminal}
    (h : Spells ρ a w) (hab : b.toList = a.toList) : Spells ρ b w := by
  unfold Spells
  rw [hab]
  exact h

section

variable {ρ : Terminal → Terminal} {a b : String} {v w : List Terminal}

theorem Spells.spaced (ha : Spells ρ a v) (hb : Spells ρ b w) : Spells ρ (a ++ " " ++ b) (v ++ w) := by
  intro r hr
  simp (disch := decide) [ha.before, hb r hr]

theorem Spells.nextLine (ha : Spells ρ a v) (hb : Spells ρ b w) :
    Spells ρ (a ++ "\n" ++ b) (v ++ w) := by
  intro r hr
  simp (disch := decide) [ha.before, hb r hr]

theorem terminals_indent (depth : Int) (r : List Char) :
    terminals ((indent depth).toList ++ r) = terminals r := by
  have hblanks : ∀ k : Nat, terminals ((List.replicate k "  ".toList).flatten ++ r) = terminals r := by
    intro k
    induction k with
    | zero => rfl
    | succ k ih => simpa [List.replicate_succ] using ih
  simpa [indent, Target.javaScript] using hblanks depth.toNat

theorem Spells.indented (ha : Spells ρ a v) (depth : Int) : Spells ρ (indent depth ++ a) v := by
  intro r hr
  simp [terminals_indent, ha r hr]

variable (hρ : KeepsSigns ρ)

include hρ

theorem Spells.ended (ha : Spells ρ a v) : Spells ρ (a ++ ";") (v ++ [⟨.semicolon, ";"⟩]) := by
  intro r _
  simp (disch := decide) [ha.before, hρ.sign]

theorem Spells.semicolon (ha : Spells ρ a v) (hb : Spells ρ b w) :
    Spells ρ (a ++ "; " ++ b) (v ++ ⟨.semicolon, ";"⟩ :: w) := by
  intro r hr
  simp (disch := decide) [ha.before, hb r hr, hρ.sign]

end

end HanScript
