-- Lists of texts with commas between them spell lists of the grammar.
import HanScript.Proofs.Printing.Each
import HanScript.Proofs.Printing.Spells
import Mathlib.Data.List.Forall2

namespace HanScript

open Grammar Script

/-- There is a text, and it spells tokens that form something. -/
def Written (ρ : Terminal → Terminal) (x : Except RenderError String)
    (Forms : List Terminal → Prop) : Prop :=
  ∃ text w, x = .ok text ∧ Spells ρ text w ∧ Forms w

/-- The text spells such an item. -/
def Spelt (ρ : Terminal → Terminal) (Item : List Terminal → Node → Prop) (text : String)
    (n : Node) : Prop :=
  ∃ w, Spells ρ text w ∧ Item w n

/-- Items and holes as they stand between brackets. -/
def inside (items : List (Option String)) : String :=
  listed (items.map (·.getD "")) ++ if items.getLast? = some none then "," else ""

theorem elements_eq (items : List (Option String)) : elements items = "[" ++ inside items ++ "]" := by
  simp [elements, inside, String.append_assoc]

theorem inside_cons_cons (o p : Option String) (rest : List (Option String)) :
    inside (o :: p :: rest) = o.getD "" ++ ", " ++ inside (p :: rest) := by
  simp [inside, listed, joined, String.append_assoc]

theorem Grammar.Separated.listed {Item : List Terminal → Node → Prop} {w : List Terminal}
    {ns : List Node} (h : Separated Item w ns) : Listed Item w ns := by
  induction h with
  | last hw => exact .last hw
  | more hw _ ih => exact .more hw ih

theorem Grammar.SeparatedOrNone.listed {Item : List Terminal → Node → Prop} {w : List Terminal}
    {ns : List Node} (h : SeparatedOrNone Item w ns) : Listed Item w ns := by
  cases h with
  | none => exact .nil
  | some hw => exact hw.listed

section

variable {ρ : Terminal → Terminal} (hρ : KeepsSigns ρ) {Item : List Terminal → Node → Prop}
  {g : Node → Node} {ns : List Node} {texts : List String}

/-- If each item has a text that spells it, so has the list of them. -/
theorem spelt_of_written {f : Node → Except RenderError String}
    (h : ∀ n ∈ ns, Written ρ (f n) (Item · (g n))) :
    ∃ texts, ns.mapM f = .ok texts ∧ List.Forall₂ (Spelt ρ Item) texts (ns.map g) := by
  induction ns with
  | nil => exact ⟨[], rfl, .nil⟩
  | cons n ns ih =>
    rw [List.forall_mem_cons] at h
    obtain ⟨⟨text, w, hf, hspells, hitem⟩, hrest⟩ := h
    obtain ⟨texts, htexts, hspelt⟩ := ih hrest
    exact ⟨text :: texts, by rw [List.mapM_cons, hf, htexts]; rfl, .cons ⟨w, hspells, hitem⟩ hspelt⟩

include hρ

/-- One item or more with commas between them. -/
theorem spelt_separated (h : List.Forall₂ (Spelt ρ Item) texts ns) (hne : ns ≠ []) :
    ∃ w, Spells ρ (listed texts) w ∧ Separated Item w ns := by
  induction h with
  | nil => exact absurd rfl hne
  | cons hn hrest ih =>
    obtain ⟨w, hspells, hitem⟩ := hn
    cases hrest with
    | nil => exact ⟨w, hspells, .last hitem⟩
    | cons =>
      obtain ⟨v, hlisted, hseparated⟩ := ih (by simp)
      refine ⟨w ++ ⟨.comma, ","⟩ :: v, fun r hr => ?_, ?_⟩
      · have hv := hlisted r hr
        simp only [listed, joined] at hv ⊢
        simp (disch := decide) [hspells.before, hv, hρ.sign]
      · exact .more hitem hseparated

theorem spelt_separatedOrNone (h : List.Forall₂ (Spelt ρ Item) texts ns) :
    ∃ w, Spells ρ (listed texts) w ∧ SeparatedOrNone Item w ns := by
  cases h with
  | nil => exact ⟨[], spells_nothing, .none⟩
  | cons hn hrest =>
    obtain ⟨w, hspells, hw⟩ := spelt_separated hρ (.cons hn hrest) (by simp)
    exact ⟨w, hspells, .some hw⟩

/-- One item or more in braces. -/
theorem spelt_braced (h : List.Forall₂ (Spelt ρ Item) texts ns) (hne : ns ≠ []) (none : String) :
    ∃ w, Spells ρ (braced none texts) (⟨.leftBrace, "\x7b"⟩ :: w ++ [⟨.rightBrace, "\x7d"⟩]) ∧
      Listed Item w ns := by
  obtain ⟨w, hspells, hw⟩ := spelt_separated hρ h hne
  refine ⟨w, fun r hr => ?_, hw.listed⟩
  cases h with
  | nil => exact absurd rfl hne
  | cons => simp (disch := decide) [braced, hspells.before, hρ.sign]

/-- Items and holes, before the closing bracket. -/
theorem written_inside {f : Node → Except RenderError (Option String)}
    (h : ∀ n ∈ ns, (f n = .ok none ∧ g n = .absent) ∨
      ∃ text w, f n = .ok (some text) ∧ Spells ρ text w ∧ Item w (g n)) (hne : ns ≠ []) :
    ∃ texts, ns.mapM f = .ok texts ∧ texts ≠ [] ∧
      ∃ w, (∀ r, (terminals ((inside texts).toList ++ ']' :: r)).map ρ =
        w ++ (terminals (']' :: r)).map ρ) ∧ Slotted Item w (ns.map g) := by
  induction ns with
  | nil => exact absurd rfl hne
  | cons n ns ih =>
    rw [List.forall_mem_cons] at h
    cases ns with
    | nil =>
      rcases h.1 with ⟨hf, hg⟩ | ⟨text, w, hf, hspells, hitem⟩
      · refine ⟨[none], by rw [List.mapM_cons, hf]; rfl, by simp, [⟨.comma, ","⟩], fun r => ?_, ?_⟩
        · simp (disch := decide) [inside, listed, joined, hρ.sign]
        · rw [List.map_singleton, hg]
          exact .hole .nil
      · refine ⟨[some text], by rw [List.mapM_cons, hf]; rfl, by simp, w, fun r => ?_, .last hitem⟩
        simp (disch := decide) [inside, listed, joined, hspells.before]
    | cons m ns =>
      obtain ⟨texts, htexts, hnil, v, hinside, hslotted⟩ := ih h.2 (by simp)
      obtain ⟨p, rest, rfl⟩ := List.exists_cons_of_ne_nil hnil
      rcases h.1 with ⟨hf, hg⟩ | ⟨text, w, hf, hspells, hitem⟩
      · refine ⟨none :: p :: rest, by rw [List.mapM_cons, hf, htexts]; rfl, by simp,
          ⟨.comma, ","⟩ :: v, fun r => ?_, ?_⟩
        · simp (disch := decide) [inside_cons_cons, hinside, hρ.sign]
        · rw [List.map_cons, hg]
          exact .hole hslotted
      · refine ⟨some text :: p :: rest, by rw [List.mapM_cons, hf, htexts]; rfl, by simp,
          w ++ ⟨.comma, ","⟩ :: v, fun r => ?_, .more hitem hslotted⟩
        simp (disch := decide) [inside_cons_cons, hspells.before, hinside, hρ.sign]

/-- Items and holes in brackets. -/
theorem written_slotted {f : Node → Except RenderError (Option String)}
    (h : ∀ n ∈ ns, (f n = .ok none ∧ g n = .absent) ∨
      ∃ text w, f n = .ok (some text) ∧ Spells ρ text w ∧ Item w (g n)) :
    ∃ texts, ns.mapM f = .ok texts ∧
      ∃ w, Spells ρ (elements texts) (⟨.leftBracket, "["⟩ :: w ++ [⟨.rightBracket, "]"⟩]) ∧
        Slotted Item w (ns.map g) := by
  cases ns with
  | nil =>
    refine ⟨[], rfl, [], fun r _ => ?_, .nil⟩
    simp (disch := decide) [elements, listed, joined, hρ.sign]
  | cons n ns =>
    obtain ⟨texts, htexts, -, w, hinside, hw⟩ := written_inside hρ h (by simp)
    refine ⟨texts, htexts, w, fun r _ => ?_, hw⟩
    simp (disch := decide) [elements_eq, hinside, hρ.sign]

end

end HanScript
