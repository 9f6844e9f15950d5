-- Lists are rendered one part after the other: each list of the renderer is its
-- one-part function, mapped over the parts up to the first that fails.
import HanScript.Script.Statement

namespace HanScript.Script

@[simp] theorem ok_bind {ε α β : Type} (a : α) (f : α → Except ε β) : Except.ok a >>= f = f a := rfl

@[simp] theorem error_bind {ε α β : Type} (e : ε) (f : α → Except ε β) :
    Except.error e >>= f = .error e := rfl

theorem bind_eq_ok_iff {ε α β : Type} {x : Except ε α} {f : α → Except ε β} {b : β} :
    x >>= f = .ok b ↔ ∃ a, x = .ok a ∧ f a = .ok b := by
  cases x <;> simp

/-- What succeeds in one pass over a list succeeds in two. -/
theorem mapM_of_bind {ε α β γ : Type} {f : α → Except ε β} {g : β → Except ε γ} {as : List α}
    {cs : List γ} (h : as.mapM (fun a => f a >>= g) = .ok cs) :
    ∃ bs, as.mapM f = .ok bs ∧ bs.mapM g = .ok cs := by
  induction as generalizing cs with
  | nil => exact ⟨[], rfl, h⟩
  | cons a as ih =>
    simp only [List.mapM_cons, bind_eq_ok_iff] at h
    obtain ⟨c, ⟨b, hb, hc⟩, rest, hrest, hcs⟩ := h
    cases hcs
    obtain ⟨bs, hbs, hcs⟩ := ih hrest
    exact ⟨b :: bs, by rw [List.mapM_cons, hb, hbs]; rfl, by rw [List.mapM_cons, hc, hcs]; rfl⟩

/-- An item of an array, which may be a hole. -/
def slot : Node → Except RenderError (Option String)
  | .absent => .ok none
  | n => do
    let text ← expression n
    return some text

/-- A property of an object. -/
def pair : Node → Except RenderError String
  | .property _ key value => do
    let name ← nameTextOf key
    let text ← expression value
    return name ++ ": " ++ text
  | _ => .error .incomplete

/-- An attribute of a tag. -/
def prop : Node → Except RenderError String
  | .tagAttribute _ key value => do
    let name ← nameTextOf key
    let text ← propValue value
    return name ++ ": " ++ text
  | .element _ key _ _ _ => do
    let _ ← nameTextOf key
    .error .incomplete
  | _ => .error .incomplete

theorem expressions_eq_mapM (ns : List Node) : expressions ns = ns.mapM expression := by
  induction ns with
  | nil => rfl
  | cons n ns ih => rw [List.mapM_cons, expressions, ih]

theorem children_eq_mapM (ns : List Node) : children ns = ns.mapM child := by
  induction ns with
  | nil => rfl
  | cons n ns ih => rw [List.mapM_cons, children, ih]

theorem slots_eq_mapM (ns : List Node) : slots ns = ns.mapM slot := by
  induction ns with
  | nil => rfl
  | cons n ns ih => cases n <;> simp [List.mapM_cons, slots, slot, ih]

theorem pairs_eq_mapM (ns : List Node) : pairs ns = ns.mapM pair := by
  induction ns with
  | nil => rfl
  | cons n ns ih => cases n <;> simp [List.mapM_cons, pairs, pair, ih]

theorem props_eq_mapM (ns : List Node) : props ns = ns.mapM prop := by
  induction ns with
  | nil => rfl
  | cons n ns ih => cases n <;> simp [List.mapM_cons, props, prop, ih]

theorem outlineEach_eq_mapM (ns : List Node) : outlineEach ns = ns.mapM outline := by
  induction ns with
  | nil => rfl
  | cons n ns ih => rw [List.mapM_cons, outlineEach, ih]

theorem lines_eq_mapM (ns : List Node) (depth : Int) : lines ns depth = ns.mapM (line · depth) := by
  induction ns with
  | nil => rfl
  | cons n ns ih => simp [List.mapM_cons, lines, line, ih]

end HanScript.Script
