-- What the rules of the grammar are built from: tokens without their spans,
-- and the ways in which items make up lists. An item is anything that a
-- relation between tokens and trees says it is.
import HanScript.Proofs.Bare
import HanScript.Token

namespace HanScript

/-- What the grammar sees of a token. -/
structure Terminal where
  kind : TokenKind
  value : String
deriving DecidableEq

def Token.terminal (t : Token) : Terminal := ⟨t.kind, t.value⟩

@[simp] theorem Token.terminal_kind (t : Token) : t.terminal.kind = t.kind := rfl

@[simp] theorem Token.terminal_value (t : Token) : t.terminal.value = t.value := rfl

theorem Token.terminal_of_kind {t : Token} {kind : TokenKind} (h : t.kind = kind) :
    t.terminal = ⟨kind, t.value⟩ := by
  rw [← h]
  rfl

namespace Grammar

/-- The kind of the token that comes next, if `next` comes after `w`. -/
def follower (w : List Terminal) (next : TokenKind) : TokenKind := (w.head?.map (·.kind)).getD next

@[simp] theorem follower_nil (next : TokenKind) : follower [] next = next := rfl

@[simp] theorem follower_cons (t : Terminal) (w : List Terminal) (next : TokenKind) :
    follower (t :: w) next = t.kind := rfl

theorem follower_append (w v : List Terminal) (next : TokenKind) :
    follower (w ++ v) next = follower w (follower v next) := by
  cases w <;> rfl

/-- What comes after some tokens has no say in how they begin. -/
theorem follower_of_ne_nil {w : List Terminal} (hw : w ≠ []) (next next' : TokenKind) :
    follower w next = follower w next' := by
  cases w with
  | nil => exact absurd rfl hw
  | cons t w => rfl

/-- The tokens begin with one that is of none of the kinds. -/
def Avoids (kinds : List TokenKind) (w : List Terminal) : Prop := ∃ t v, w = t :: v ∧ t.kind ∉ kinds

theorem Avoids.ne_nil {kinds : List TokenKind} {w : List Terminal} (h : Avoids kinds w) : w ≠ [] := by
  obtain ⟨t, v, rfl, -⟩ := h
  simp

theorem Avoids.append {kinds : List TokenKind} {w : List Terminal} (h : Avoids kinds w)
    (v : List Terminal) : Avoids kinds (w ++ v) := by
  obtain ⟨t, u, rfl, ht⟩ := h
  exact ⟨t, u ++ v, rfl, ht⟩

/-- One item or more, with commas between them. -/
inductive Separated (Item : List Terminal → Node → Prop) : List Terminal → List Node → Prop where
  | last {w n} : Item w n → Separated Item w [n]
  | more {w v n ns x} : Item w n → Separated Item v ns →
    Separated Item (w ++ ⟨.comma, x⟩ :: v) (n :: ns)

/-- Items with commas between them, or nothing. -/
inductive SeparatedOrNone (Item : List Terminal → Node → Prop) :
    List Terminal → List Node → Prop where
  | none : SeparatedOrNone Item [] []
  | some {w ns} : Separated Item w ns → SeparatedOrNone Item w ns

/-- Items with commas between them. A comma may stand after the last one too. -/
inductive Listed (Item : List Terminal → Node → Prop) : List Terminal → List Node → Prop where
  | nil : Listed Item [] []
  | last {w n} : Item w n → Listed Item w [n]
  | more {w v n ns x} : Item w n → Listed Item v ns → Listed Item (w ++ ⟨.comma, x⟩ :: v) (n :: ns)

/-- Items and holes. A comma without an item before it makes a hole, and the last item may
have a comma after it. -/
inductive Slotted (Item : List Terminal → Node → Prop) : List Terminal → List Node → Prop where
  | nil : Slotted Item [] []
  | hole {v ns x} : Slotted Item v ns → Slotted Item (⟨.comma, x⟩ :: v) (.absent :: ns)
  | last {w n} : Item w n → Slotted Item w [n]
  | more {w v n ns x} : Item w n → Slotted Item v ns →
    Slotted Item (w ++ ⟨.comma, x⟩ :: v) (n :: ns)

/-- Items one after the other. What an item is may depend on the kind of the token after
it, and `next` is the kind of the token after them all. -/
inductive Sequence {α : Type} (Item : TokenKind → List Terminal → α → Prop) (next : TokenKind) :
    List Terminal → List α → Prop where
  | nil : Sequence Item next [] []
  | cons {w v n ns} : Item (follower v next) w n → Sequence Item next v ns →
    Sequence Item next (w ++ v) (n :: ns)

/-- The tokens that mean something between tags, and the end. -/
def markupKinds : List TokenKind := [.identifier, .string, .leftBrace, .less, .closeTag, .eof]

/-- What stands between tags: items, and tokens that mean nothing there. -/
inductive Interspersed (Item : List Terminal → Node → Prop) : List Terminal → List Node → Prop where
  | nil : Interspersed Item [] []
  | item {w v n ns} : Item w n → Interspersed Item v ns → Interspersed Item (w ++ v) (n :: ns)
  | skipped {t v ns} : t.kind ∉ markupKinds → Interspersed Item v ns → Interspersed Item (t :: v) ns

/-! ## Items -/

section

variable {Item : List Terminal → Node → Prop} {w : List Terminal} {ns : List Node} {n : Node}

theorem Separated.of_mem (h : Separated Item w ns) (hn : n ∈ ns) : ∃ v, v ⊆ w ∧ Item v n := by
  induction h with
  | last hi =>
    rw [List.mem_singleton.mp hn]
    exact ⟨_, List.Subset.refl _, hi⟩
  | more hi _ ih =>
    rcases List.mem_cons.mp hn with rfl | hn
    · exact ⟨_, List.subset_append_left _ _, hi⟩
    · obtain ⟨v, hv, hi⟩ := ih hn
      exact ⟨v, List.subset_append_of_subset_right _ (List.subset_cons_of_subset _ hv), hi⟩

theorem SeparatedOrNone.of_mem (h : SeparatedOrNone Item w ns) (hn : n ∈ ns) :
    ∃ v, v ⊆ w ∧ Item v n := by
  cases h with
  | none => cases hn
  | some h => exact h.of_mem hn

theorem Listed.of_mem (h : Listed Item w ns) (hn : n ∈ ns) : ∃ v, v ⊆ w ∧ Item v n := by
  induction h with
  | nil => cases hn
  | last hi =>
    rw [List.mem_singleton.mp hn]
    exact ⟨_, List.Subset.refl _, hi⟩
  | more hi _ ih =>
    rcases List.mem_cons.mp hn with rfl | hn
    · exact ⟨_, List.subset_append_left _ _, hi⟩
    · obtain ⟨v, hv, hi⟩ := ih hn
      exact ⟨v, List.subset_append_of_subset_right _ (List.subset_cons_of_subset _ hv), hi⟩

theorem Slotted.of_mem (h : Slotted Item w ns) (hn : n ∈ ns) :
    n = .absent ∨ ∃ v, v ⊆ w ∧ Item v n := by
  induction h with
  | nil => cases hn
  | hole _ ih =>
    rcases List.mem_cons.mp hn with rfl | hn
    · exact .inl rfl
    · rcases ih hn with ha | ⟨v, hv, hi⟩
      · exact .inl ha
      · exact .inr ⟨v, List.subset_cons_of_subset _ hv, hi⟩
  | last hi =>
    rw [List.mem_singleton.mp hn]
    exact .inr ⟨_, List.Subset.refl _, hi⟩
  | more hi _ ih =>
    rcases List.mem_cons.mp hn with rfl | hn
    · exact .inr ⟨_, List.subset_append_left _ _, hi⟩
    · rcases ih hn with ha | ⟨v, hv, hi⟩
      · exact .inl ha
      · exact .inr ⟨v, List.subset_append_of_subset_right _ (List.subset_cons_of_subset _ hv), hi⟩

theorem Sequence.of_mem {Item : TokenKind → List Terminal → Node → Prop} {next : TokenKind}
    (h : Sequence Item next w ns) (hn : n ∈ ns) : ∃ k v, v ⊆ w ∧ Item k v n := by
  induction h with
  | nil => cases hn
  | cons hi _ ih =>
    rcases List.mem_cons.mp hn with rfl | hn
    · exact ⟨_, _, List.subset_append_left _ _, hi⟩
    · obtain ⟨k, v, hv, hi⟩ := ih hn
      exact ⟨k, v, List.subset_append_of_subset_right _ hv, hi⟩

theorem Interspersed.of_mem (h : Interspersed Item w ns) (hn : n ∈ ns) : ∃ v, v ⊆ w ∧ Item v n := by
  induction h with
  | nil => cases hn
  | item hi _ ih =>
    rcases List.mem_cons.mp hn with rfl | hn
    · exact ⟨_, List.subset_append_left _ _, hi⟩
    · obtain ⟨v, hv, hi⟩ := ih hn
      exact ⟨v, List.subset_append_of_subset_right _ hv, hi⟩
  | skipped _ _ ih =>
    obtain ⟨v, hv, hi⟩ := ih hn
    exact ⟨v, List.subset_cons_of_subset _ hv, hi⟩

end

/-! ## Lists as sequences -/

section

variable {Item : List Terminal → Node → Prop} {next : TokenKind}

/-- What is said of the items of a sequence may use what comes after them. -/
theorem Sequence.mono {α : Type} {A B : TokenKind → List Terminal → α → Prop}
    (hB : ∀ {w v n ns}, A (follower v next) w n → Sequence A next v ns → B (follower v next) w n)
    {w : List Terminal} {ns : List α} (h : Sequence A next w ns) : Sequence B next w ns := by
  induction h with
  | nil => exact .nil
  | cons hi hrest ih => exact .cons (hB hi hrest) ih

/-- A comma and an item. -/
def AfterComma (Item : List Terminal → Node → Prop) (_ : TokenKind) (w : List Terminal)
    (n : Node) : Prop := ∃ x u, w = ⟨.comma, x⟩ :: u ∧ Item u n

theorem separated_iff_sequence (next : TokenKind) {w : List Terminal} {ns : List Node} :
    Separated Item w ns ↔ ∃ u v m ms, w = u ++ v ∧ ns = m :: ms ∧ Item u m ∧
      Sequence (AfterComma Item) next v ms := by
  constructor
  · intro h
    induction h with
    | last hw => exact ⟨_, [], _, [], by simp, rfl, hw, .nil⟩
    | more hw _ ih =>
      obtain ⟨u, v, m, ms, rfl, rfl, hu, hv⟩ := ih
      exact ⟨_, _, _, _, rfl, rfl, hw, .cons ⟨_, u, rfl, hu⟩ hv⟩
  · rintro ⟨u, v, m, ms, rfl, rfl, hu, hv⟩
    induction hv generalizing u m with
    | nil => simpa using Separated.last hu
    | cons hi _ ih =>
      obtain ⟨x, t, rfl, ht⟩ := hi
      simpa using Separated.more (x := x) hu (ih t _ ht)

/-- After the items of such a list comes a comma or what comes after the list. -/
theorem follower_of_afterComma {w : List Terminal} {ns : List Node}
    (h : Sequence (AfterComma Item) next w ns) :
    follower w next = next ∨ follower w next = .comma := by
  cases h with
  | nil => exact .inl rfl
  | cons hi _ =>
    obtain ⟨x, u, rfl, -⟩ := hi
    exact .inr rfl

/-- A comma for a hole, an item with a comma, or an item before the closing bracket. -/
def Slot (Item : List Terminal → Node → Prop) (kind : TokenKind) (w : List Terminal) (n : Node) :
    Prop :=
  (∃ x, w = [⟨.comma, x⟩] ∧ n = .absent) ∨
    ∃ v, Item v n ∧ ((∃ x, w = v ++ [⟨.comma, x⟩]) ∨ (w = v ∧ kind = .rightBracket))

theorem sequence_of_slotted {w : List Terminal} {ns : List Node} (h : Slotted Item w ns) :
    Sequence (Slot Item) .rightBracket w ns := by
  induction h with
  | nil => exact .nil
  | hole _ ih => exact .cons (.inl ⟨_, rfl, rfl⟩) ih
  | last hw => simpa using Sequence.cons (.inr ⟨_, hw, .inr ⟨rfl, rfl⟩⟩) .nil
  | more hw _ ih => simpa using Sequence.cons (.inr ⟨_, hw, .inl ⟨_, rfl⟩⟩) ih

theorem slotted_of_sequence {w : List Terminal} {ns : List Node}
    (h : Sequence (fun k w n => Slot Item k w n ∧ follower w k ≠ .rightBracket) .rightBracket w ns) :
    Slotted Item w ns := by
  induction h with
  | nil => exact .nil
  | cons hs hrest ih =>
    rcases hs.1 with ⟨x, rfl, rfl⟩ | ⟨u, hu, ⟨x, rfl⟩ | ⟨rfl, hk⟩⟩
    · exact .hole ih
    · simpa using Slotted.more (x := x) hu ih
    · -- An item without a comma is the last one, since no item begins with a closing bracket.
      cases hrest with
      | nil => simpa using Slotted.last hu
      | cons hs' _ =>
        rw [follower_append] at hk
        exact absurd hk hs'.2

/-- An item, or a token that means nothing between tags. -/
def Skipping (Item : List Terminal → Node → Prop) (_ : TokenKind) (w : List Terminal) :
    Option Node → Prop
  | some n => Item w n
  | none => ∃ t, w = [t] ∧ t.kind ∉ markupKinds

theorem interspersed_iff_sequence (next : TokenKind) {w : List Terminal} {ns : List Node} :
    Interspersed Item w ns ↔ ∃ os, Sequence (Skipping Item) next w os ∧ os.filterMap id = ns := by
  constructor
  · intro h
    induction h with
    | nil => exact ⟨[], .nil, rfl⟩
    | item hw _ ih =>
      obtain ⟨os, ho, rfl⟩ := ih
      exact ⟨some _ :: os, .cons hw ho, rfl⟩
    | skipped ht _ ih =>
      obtain ⟨os, ho, rfl⟩ := ih
      exact ⟨none :: os, .cons (w := [_]) ⟨_, rfl, ht⟩ ho, rfl⟩
  · rintro ⟨os, ho, rfl⟩
    induction ho with
    | nil => exact .nil
    | @cons w v o os hi _ ih =>
      cases o with
      | none =>
        obtain ⟨t, rfl, ht⟩ := hi
        exact .skipped ht ih
      | some n => exact .item hi ih

end

end Grammar

end HanScript
