-- Words that mean the same to the grammar. An `else if` is one word or two,
-- and a component is a function; tokens that differ in nothing else form the
-- same trees.
import HanScript.Proofs.Joining

namespace HanScript.Grammar

/-! ## Words that mean the same -/

/-- The words that a function begins with. -/
def functionKinds : List TokenKind := [.functionWord, .componentWord]

/-- The words that can stand for others, at least where another word comes next. -/
def synonymKinds : List TokenKind := [.elseWord, .elseIfWord, .functionWord, .componentWord]

/-- The tokens are the same, but for words that mean the same. -/
inductive Synonymous : List Terminal → List Terminal → Prop where
  | nil : Synonymous [] []
  | same {t w v} : Synonymous w v → Synonymous (t :: w) (t :: v)
  | apart {w v x y z} : Synonymous w v →
    Synonymous (⟨.elseIfWord, x⟩ :: w) (⟨.elseWord, y⟩ :: ⟨.ifWord, z⟩ :: v)
  | fused {w v x y z} : Synonymous w v →
    Synonymous (⟨.elseWord, y⟩ :: ⟨.ifWord, z⟩ :: w) (⟨.elseIfWord, x⟩ :: v)
  | function {w v k l x y} : k ∈ functionKinds → l ∈ functionKinds → Synonymous w v →
    Synonymous (⟨k, x⟩ :: w) (⟨l, y⟩ :: v)

variable {w v u : List Terminal} {n : Node}

theorem Synonymous.symm (h : Synonymous w v) : Synonymous v w := by
  induction h with
  | nil => exact .nil
  | same _ ih => exact .same ih
  | apart _ ih => exact .fused ih
  | fused _ ih => exact .apart ih
  | function hk hl _ ih => exact .function hl hk ih

/-! ## Tokens and what stands for them -/

theorem synonymous_nil : Synonymous [] u ↔ u = [] := by
  constructor
  · intro h
    cases h
    rfl
  · rintro rfl
    exact .nil

/-- Nothing but the word itself stands for most words. -/
theorem Synonymous.of_cons {t : Terminal} (h : Synonymous (t :: w) u) (ht : t.kind ∉ synonymKinds) :
    ∃ v, u = t :: v ∧ Synonymous w v := by
  cases h with
  | same h => exact ⟨_, rfl, h⟩
  | apart => simp [synonymKinds] at ht
  | fused => simp [synonymKinds] at ht
  | function hk _ _ =>
    have hall : ∀ k ∈ functionKinds, k ∈ synonymKinds := by decide
    exact absurd (hall _ hk) ht

theorem synonymous_cons {kind : TokenKind} {x : String} (hk : kind ∉ synonymKinds) :
    Synonymous (⟨kind, x⟩ :: w) u ↔ ∃ v, u = ⟨kind, x⟩ :: v ∧ Synonymous w v := by
  constructor
  · exact fun h => h.of_cons hk
  · rintro ⟨v, rfl, h⟩
    exact .same h

/-- The word that a function begins with may be the other one. -/
theorem Synonymous.of_function {k : TokenKind} {x : String} (h : Synonymous (⟨k, x⟩ :: w) u)
    (hk : k = .functionWord ∨ k = .componentWord) :
    ∃ l y v, u = ⟨l, y⟩ :: v ∧ (l = .functionWord ∨ l = .componentWord) ∧ Synonymous w v := by
  cases h with
  | same h => exact ⟨_, _, _, rfl, hk, h⟩
  | apart => simp at hk
  | fused => simp at hk
  | function _ hl h => exact ⟨_, _, _, rfl, by simpa [functionKinds] using hl, h⟩

/-- What stands for some tokens can be cut where they can, unless the cut is between an `else` and
an `if`. -/
theorem Synonymous.of_append (h : Synonymous (w ++ v) u)
    (hcut : follower v .eof ≠ .ifWord ∨ ¬ EndsWith [.elseWord] w) :
    ∃ w' v', u = w' ++ v' ∧ Synonymous w w' ∧ Synonymous v v' := by
  generalize hs : w ++ v = s at h
  induction h generalizing w with
  | nil =>
    obtain ⟨rfl, rfl⟩ := List.append_eq_nil_iff.mp hs
    exact ⟨[], [], rfl, .nil, .nil⟩
  | @same t s s' h ih =>
    rcases List.append_eq_cons_iff.mp hs with ⟨rfl, rfl⟩ | ⟨w, rfl, rfl⟩
    · exact ⟨[], _, rfl, .nil, .same h⟩
    · obtain ⟨w', v', rfl, hw, hv⟩ := ih (hcut.imp_right fun h h' => h (h'.cons t)) rfl
      exact ⟨t :: w', v', rfl, .same hw, hv⟩
  | apart h ih =>
    rcases List.append_eq_cons_iff.mp hs with ⟨rfl, rfl⟩ | ⟨w, rfl, rfl⟩
    · exact ⟨[], _, rfl, .nil, .apart h⟩
    · obtain ⟨w', v', rfl, hw, hv⟩ := ih (hcut.imp_right fun h h' => h (h'.cons _)) rfl
      exact ⟨_, v', rfl, .apart hw, hv⟩
  | @fused s s' x y z h ih =>
    rcases List.append_eq_cons_iff.mp hs with ⟨rfl, rfl⟩ | ⟨w, rfl, hrest⟩
    · exact ⟨[], _, rfl, .nil, .fused h⟩
    · rcases List.append_eq_cons_iff.mp hrest.symm with ⟨rfl, rfl⟩ | ⟨w, rfl, rfl⟩
      · rcases hcut with hcut | hcut
        · exact absurd rfl hcut
        · exact absurd (endsWith_last (by decide) y []) hcut
      · obtain ⟨w', v', rfl, hw, hv⟩ :=
          ih (hcut.imp_right fun h h' => h ((h'.cons _).cons _)) rfl
        exact ⟨_, v', rfl, .fused hw, hv⟩
  | function hk hl h ih =>
    rcases List.append_eq_cons_iff.mp hs with ⟨rfl, rfl⟩ | ⟨w, rfl, rfl⟩
    · exact ⟨[], _, rfl, .nil, .function hk hl h⟩
    · obtain ⟨w', v', rfl, hw, hv⟩ := ih (hcut.imp_right fun h h' => h (h'.cons _)) rfl
      exact ⟨_, v', rfl, .function hk hl hw, hv⟩

/-- Where a word that stands for no other can be found, it stays. -/
theorem synonymous_around {kind : TokenKind} {x : String} (hk : kind ∉ .ifWord :: synonymKinds) :
    Synonymous (w ++ ⟨kind, x⟩ :: v) u ↔
      ∃ w' v', u = w' ++ ⟨kind, x⟩ :: v' ∧ Synonymous w w' ∧ Synonymous v v' := by
  rw [List.mem_cons, not_or] at hk
  constructor
  · intro h
    obtain ⟨w', _, rfl, hw, hv⟩ := h.of_append (.inl hk.1)
    obtain ⟨v', rfl, hv'⟩ := hv.of_cons hk.2
    exact ⟨w', v', rfl, hw, hv'⟩
  · rintro ⟨w', v', rfl, hw, hv⟩
    induction hw with
    | nil => exact .same hv
    | same _ ih => exact .same ih
    | apart _ ih => exact .apart ih
    | fused _ ih => exact .fused ih
    | function hk hl _ ih => exact .function hk hl ih

theorem EndsWith.not_else {kinds : List TokenKind} (h : EndsWith kinds w)
    (hk : .elseWord ∉ kinds) : ¬ EndsWith [.elseWord] w := by
  rintro ⟨v, t, rfl, ht⟩
  obtain ⟨v', t', hw, ht'⟩ := h
  obtain ⟨-, rfl⟩ := List.append_inj' hw rfl |>.imp_right List.singleton_inj.mp
  rw [List.mem_singleton.mp ht] at ht'
  exact hk ht'

/-! ## Lists -/

section Lists

variable {Item Item' : List Terminal → Node → Prop} {ns : List Node}
  (hi : ∀ {w u n}, Item w n → Synonymous w u → Item' u n)

include hi

theorem Separated.synonymous (h : Separated Item w ns) (hs : Synonymous w u) :
    Separated Item' u ns := by
  induction h generalizing u with
  | last hw => exact .last (hi hw hs)
  | more hw _ ih =>
    obtain ⟨w', v', rfl, hw', hv'⟩ := (synonymous_around (by decide)).mp hs
    exact .more (hi hw hw') (ih hv')

theorem SeparatedOrNone.synonymous (h : SeparatedOrNone Item w ns) (hs : Synonymous w u) :
    SeparatedOrNone Item' u ns := by
  cases h with
  | none =>
    obtain rfl := synonymous_nil.mp hs
    exact .none
  | some h => exact .some (h.synonymous hi hs)

theorem Listed.synonymous (h : Listed Item w ns) (hs : Synonymous w u) : Listed Item' u ns := by
  induction h generalizing u with
  | nil =>
    obtain rfl := synonymous_nil.mp hs
    exact .nil
  | last hw => exact .last (hi hw hs)
  | more hw _ ih =>
    obtain ⟨w', v', rfl, hw', hv'⟩ := (synonymous_around (by decide)).mp hs
    exact .more (hi hw hw') (ih hv')

theorem Slotted.synonymous (h : Slotted Item w ns) (hs : Synonymous w u) : Slotted Item' u ns := by
  induction h generalizing u with
  | nil =>
    obtain rfl := synonymous_nil.mp hs
    exact .nil
  | hole _ ih =>
    obtain ⟨v', rfl, hv'⟩ := (synonymous_cons (by decide)).mp hs
    exact .hole (ih hv')
  | last hw => exact .last (hi hw hs)
  | more hw _ ih =>
    obtain ⟨w', v', rfl, hw', hv'⟩ := (synonymous_around (by decide)).mp hs
    exact .more (hi hw hw') (ih hv')

omit hi in
/-- An `if` between tags means nothing. -/
theorem Interspersed.of_if {z : String} (hopens : ∀ {w n}, Item w n → Avoids [.ifWord] w)
    (h : Interspersed Item (⟨.ifWord, z⟩ :: w) ns) : Interspersed Item w ns := by
  generalize hs : ⟨.ifWord, z⟩ :: w = s at h
  cases h with
  | nil => cases hs
  | item hw _ =>
    obtain ⟨t, v, rfl, ht⟩ := hopens hw
    obtain ⟨rfl, -⟩ := List.cons.inj hs
    simp at ht
  | skipped _ h =>
    obtain ⟨-, rfl⟩ := List.cons.inj hs
    exact h

/-- Between tags all these words mean nothing, so it does not matter how many there are. -/
theorem Interspersed.synonymous (hends : ∀ {w n}, Item w n → ¬ EndsWith [.elseWord] w)
    (hopens : ∀ {w n}, Item' w n → Avoids [.ifWord] w) (h : Interspersed Item w ns)
    (hs : Synonymous w u) : Interspersed Item' u ns := by
  have hskipped : ∀ kind ∈ .ifWord :: synonymKinds, kind ∉ markupKinds := by decide
  induction h generalizing u with
  | nil =>
    obtain rfl := synonymous_nil.mp hs
    exact .nil
  | item hw _ ih =>
    obtain ⟨w', v', rfl, hw', hv'⟩ := hs.of_append (.inr (hends hw))
    exact .item (hi hw hw') (ih hv')
  | skipped ht _ ih =>
    cases hs with
    | same hs => exact .skipped ht (ih hs)
    | apart hs =>
      exact .skipped (hskipped .elseWord (by decide)) (.skipped (hskipped .ifWord (by decide)) (ih hs))
    | fused hs => exact .skipped (hskipped .elseIfWord (by decide)) ((ih (.same hs)).of_if hopens)
    | function _ hl hs =>
      have hall : ∀ kind ∈ functionKinds, kind ∉ markupKinds := by decide
      exact .skipped (hall _ hl) (ih hs)

end Lists

/-! ## What comes next -/

/-- What comes next ends a statement in both cases or in neither, and goes on with an `if` in both
or in neither. -/
structure AlikeNext (k l : TokenKind) : Prop where
  ends : (k = .rightBrace ∨ k = .eof) ↔ (l = .rightBrace ∨ l = .eof)
  goesOn : (k = .elseWord ∨ k = .elseIfWord) ↔ (l = .elseWord ∨ l = .elseIfWord)

theorem AlikeNext.refl (k : TokenKind) : AlikeNext k k := ⟨Iff.rfl, Iff.rfl⟩

theorem Synonymous.follower {k l : TokenKind} (hs : Synonymous w u) (hnext : AlikeNext k l) :
    AlikeNext (follower w k) (follower u l) := by
  have hfunctions : ∀ a ∈ functionKinds, ¬ (a = .rightBrace ∨ a = .eof) ∧
      ¬ (a = .elseWord ∨ a = .elseIfWord) := by decide
  cases hs with
  | nil => exact hnext
  | same => exact .refl _
  | apart => exact ⟨by simp, by simp⟩
  | fused => exact ⟨by simp, by simp⟩
  | function hk hl =>
    obtain ⟨hends, hgoesOn⟩ := hfunctions _ hk
    obtain ⟨hends', hgoesOn'⟩ := hfunctions _ hl
    exact ⟨iff_of_false hends hends', iff_of_false hgoesOn hgoesOn'⟩

theorem Sequence.synonymous {Item Item' : TokenKind → List Terminal → Node → Prop}
    {ns : List Node} {k l : TokenKind}
    (hends : ∀ {k w n}, Item k w n → ¬ EndsWith [.elseWord] w)
    (hi : ∀ {k l w u n}, Item k w n → AlikeNext k l → Synonymous w u → Item' l u n)
    (h : Sequence Item k w ns) (hnext : AlikeNext k l) (hs : Synonymous w u) :
    Sequence Item' l u ns := by
  induction h generalizing u with
  | nil =>
    obtain rfl := synonymous_nil.mp hs
    exact .nil
  | cons hw _ ih =>
    obtain ⟨w', v', rfl, hw', hv'⟩ := hs.of_append (.inr (hends hw))
    exact .cons (hi hw (hv'.follower hnext) hw') (ih hv')

/-! ## Expressions -/

theorem TagName.closes (h : TagName w n) : EndsWith [.identifier] w := by
  cases h with
  | word => exact endsWith_last (by decide) _ []
  | member => exact (endsWith_last (by decide) _ [_]).append _

theorem TagName.synonymous (h : TagName w n) (hs : Synonymous w u) : TagName u n := by
  induction h generalizing u with
  | word =>
    simp (disch := decide) only [synonymous_cons, synonymous_nil] at hs
    obtain ⟨_, rfl, rfl⟩ := hs
    exact .word
  | member _ ih =>
    simp (disch := decide) only [synonymous_around, synonymous_cons, synonymous_nil] at hs
    obtain ⟨w', _, rfl, hw, _, rfl, rfl⟩ := hs
    exact .member (ih hw)

/-- An operator stands for itself only. -/
theorem Synonymous.around_operator {kinds : List TokenKind} {op : Terminal}
    (hs : Synonymous (w ++ op :: v) u) (ho : op.kind ∈ kinds)
    (hk : ∀ kind ∈ kinds, kind ∉ .ifWord :: synonymKinds) :
    ∃ w' v', u = w' ++ op :: v' ∧ Synonymous w w' ∧ Synonymous v v' :=
  (synonymous_around (hk _ ho)).mp hs

/-- Before the attributes of a tag comes its name. -/
theorem Synonymous.of_tag {x : String} (hs : Synonymous (⟨.less, x⟩ :: w ++ v) u)
    (hn : TagName w n) :
    ∃ w' v', u = ⟨.less, x⟩ :: w' ++ v' ∧ Synonymous w w' ∧ Synonymous v v' := by
  obtain ⟨_, v', rfl, hw, hv⟩ := hs.of_append (.inr ((hn.closes.cons _).not_else (by decide)))
  obtain ⟨w', rfl, hw'⟩ := (synonymous_cons (by decide)).mp hw
  exact ⟨w', v', rfl, hw', hv⟩

section Markup

/-- A phrase that stays the same phrase with other words. -/
def Steady (f : Form) (w : List Terminal) (n : Node) : Prop :=
  ∃ _ : Phrase f w n, ∀ {u}, Synonymous w u → Phrase f u n

variable {ns : List Node}

theorem Interspersed.synonymous_children (h : Interspersed (Steady .child) w ns)
    (hs : Synonymous w u) : Interspersed (Phrase .child) u ns :=
  h.synonymous (fun ⟨_, ih⟩ hs => ih hs) (fun ⟨h, _⟩ => h.closes.not_else (by decide))
    (fun h => h.avoids (by decide)) hs

theorem Sequence.synonymous_attributes {next : TokenKind}
    (h : Sequence (fun _ => Steady .tagAttribute) next w ns) (hs : Synonymous w u) :
    Sequence (fun _ => Phrase .tagAttribute) next u ns :=
  h.synonymous (fun ⟨h, _⟩ => h.closes.not_else (by decide)) (fun ⟨_, ih⟩ _ hs => ih hs)
    (.refl next) hs

end Markup

/-- Most words are as they are. -/
theorem Synonymous.eq_of_plain (hs : Synonymous w u) (hw : ∀ t ∈ w, t.kind ∉ synonymKinds) :
    u = w := by
  induction w generalizing u with
  | nil => exact synonymous_nil.mp hs
  | cons t w ih =>
    rw [List.forall_mem_cons] at hw
    obtain ⟨v, rfl, hv⟩ := hs.of_cons hw.1
    rw [ih hv hw.2]

theorem Phrase.synonymous_self {f : Form} (h : Phrase f w n) (hw : ∀ t ∈ w, t.kind ∉ synonymKinds)
    {u : List Terminal} (hs : Synonymous w u) : Phrase f u n := by
  rw [hs.eq_of_plain hw]
  exact h

/-- A phrase stays what it is if words in it are put for others that mean the same. -/
theorem Phrase.synonymous {f : Form} (h : Phrase f w n) : ∀ {u}, Synonymous w u → Phrase f u n := by
  induction h using Phrase.induction with
  | tighter hl _ ih => exact fun hs => .tighter hl (ih hs)
  | assignment _ ho _ iha ihb =>
    intro u hs
    obtain ⟨w', v', rfl, hw, hv⟩ := hs.around_operator ho (by decide)
    exact .assignment (iha hw) ho (ihb hv)
  | conditional _ _ _ iha ihb ihc =>
    intro u hs
    simp (disch := decide) only [synonymous_around] at hs
    obtain ⟨_, u', rfl, ⟨w', v', rfl, hw, hv⟩, hu⟩ := hs
    exact .conditional (iha hw) (ihb hv) (ihc hu)
  | @binary l _ _ _ _ _ _ hl _ ho _ iha ihb =>
    intro u hs
    have hplain : ∀ kind ∈ l.operators, kind ∉ .ifWord :: synonymKinds := by cases l <;> decide
    obtain ⟨w', v', rfl, hw, hv⟩ := hs.around_operator ho hplain
    exact .binary hl (iha hw) ho (ihb hv)
  | power _ _ iha ihb =>
    intro u hs
    simp (disch := decide) only [synonymous_around] at hs
    obtain ⟨w', v', rfl, hw, hv⟩ := hs
    exact .power (iha hw) (ihb hv)
  | unary ho _ iha =>
    intro u hs
    obtain ⟨w', v', rfl, hw, hv⟩ := hs.around_operator (w := []) ho (by decide)
    obtain rfl := synonymous_nil.mp hw
    exact .unary ho (iha hv)
  | call _ _ ihf ihas =>
    intro u hs
    simp (disch := decide) only [synonymous_around, synonymous_nil] at hs
    obtain ⟨_, _, rfl, ⟨w', v', rfl, hw, hv⟩, rfl⟩ := hs
    exact .call (ihf hw) (ihas.synonymous (fun ⟨_, ih⟩ hs => ih hs) hv)
  | member _ iho =>
    intro u hs
    simp (disch := decide) only [synonymous_around, synonymous_cons, synonymous_nil] at hs
    obtain ⟨w', _, rfl, hw, _, rfl, rfl⟩ := hs
    exact .member (iho hw)
  | computed _ _ iho ihf =>
    intro u hs
    simp (disch := decide) only [synonymous_around, synonymous_nil] at hs
    obtain ⟨_, _, rfl, ⟨w', v', rfl, hw, hv⟩, rfl⟩ := hs
    exact .computed (iho hw) (ihf hv)
  | array _ ihs =>
    intro u hs
    simp (disch := decide) only [synonymous_around, synonymous_cons, synonymous_nil] at hs
    obtain ⟨_, _, rfl, ⟨w', rfl, hw⟩, rfl⟩ := hs
    exact .array (ihs.synonymous (fun ⟨_, ih⟩ hs => ih hs) hw)
  | object _ ihs =>
    intro u hs
    simp (disch := decide) only [synonymous_around, synonymous_cons, synonymous_nil] at hs
    obtain ⟨_, _, rfl, ⟨w', rfl, hw⟩, rfl⟩ := hs
    exact .object (ihs.synonymous (fun ⟨_, ih⟩ hs => ih hs) hw)
  | parenthesized _ ih =>
    intro u hs
    simp (disch := decide) only [synonymous_around, synonymous_cons, synonymous_nil] at hs
    obtain ⟨_, _, rfl, ⟨w', rfl, hw⟩, rfl⟩ := hs
    exact .parenthesized (ih hw)
  | element _ ih => exact fun hs => .element (ih hs)
  | property _ ih =>
    intro u hs
    simp (disch := decide) only [synonymous_cons] at hs
    obtain ⟨_, rfl, w', rfl, hw⟩ := hs
    exact .property (ih hw)
  | container _ ih =>
    intro u hs
    simp (disch := decide) only [synonymous_around, synonymous_cons, synonymous_nil] at hs
    obtain ⟨_, _, rfl, ⟨w', rfl, hw⟩, rfl⟩ := hs
    exact .container (ih hw)
  | givenAttribute _ ih =>
    intro u hs
    simp (disch := decide) only [synonymous_cons] at hs
    obtain ⟨_, rfl, w', rfl, hw⟩ := hs
    exact .givenAttribute (ih hw)
  | givenChild _ ih => exact fun hs => .givenChild (ih hs)
  | nestedChild _ ih => exact fun hs => .nestedChild (ih hs)
  | fragment _ ihs =>
    intro u hs
    simp (disch := decide) only [synonymous_around, synonymous_cons, synonymous_nil] at hs
    obtain ⟨_, _, rfl, ⟨_, rfl, w', rfl, hw⟩, _, rfl, rfl⟩ := hs
    exact .fragment (ihs.synonymous_children hw)
  | taggedFragment _ ihs =>
    intro u hs
    simp (disch := decide) only [synonymous_around, synonymous_cons, synonymous_nil] at hs
    obtain ⟨_, _, rfl, ⟨_, rfl, w', rfl, hw⟩, _, rfl, rfl⟩ := hs
    exact .taggedFragment (ihs.synonymous_children hw)
  | closedElement hn _ ihas =>
    intro u hs
    simp (disch := decide) only [synonymous_around, synonymous_nil] at hs
    obtain ⟨_, _, rfl, hs, rfl⟩ := hs
    obtain ⟨w', v', rfl, hw, hv⟩ := hs.of_tag hn
    exact .closedElement (hn.synonymous hw) (ihas.synonymous_attributes hv)
  | openElement hn _ _ ht ihas ihs =>
    intro u hs
    simp (disch := decide) only [synonymous_around, synonymous_nil] at hs
    obtain ⟨_, _, rfl, ⟨_, t', rfl, ⟨_, u', rfl, hs, hu⟩, ht'⟩, rfl⟩ := hs
    obtain ⟨w', v', rfl, hw, hv⟩ := hs.of_tag hn
    exact .openElement (hn.synonymous hw) (ihas.synonymous_attributes hv)
      (ihs.synonymous_children hu) (ht.synonymous ht')
  | number hk => exact (Phrase.number hk).synonymous_self (by simp [synonymKinds])
  | string => exact Phrase.string.synonymous_self (by simp [synonymKinds])
  | template => exact Phrase.template.synonymous_self (by simp [synonymKinds])
  | trueWord => exact Phrase.trueWord.synonymous_self (by simp [synonymKinds])
  | falseWord => exact Phrase.falseWord.synonymous_self (by simp [synonymKinds])
  | nullWord => exact Phrase.nullWord.synonymous_self (by simp [synonymKinds])
  | undefinedWord => exact Phrase.undefinedWord.synonymous_self (by simp [synonymKinds])
  | name => exact Phrase.name.synonymous_self (by simp [synonymKinds])
  | bareAttribute => exact Phrase.bareAttribute.synonymous_self (by simp [synonymKinds])
  | textAttribute => exact Phrase.textAttribute.synonymous_self (by simp [synonymKinds])
  | wordChild => exact Phrase.wordChild.synonymous_self (by simp [synonymKinds])
  | textChild => exact Phrase.textChild.synonymous_self (by simp [synonymKinds])

/-! ## Statements -/

/-- The kinds of tokens that a statement ends with. -/
def statementCloserKinds : List TokenKind :=
  [.semicolon, .returnWord, .breakWord, .continueWord] ++ closerKinds

theorem EndsWith.mono {kinds kinds' : List TokenKind} (h : EndsWith kinds w)
    (hk : ∀ kind ∈ kinds, kind ∈ kinds') : EndsWith kinds' w := by
  obtain ⟨v, t, rfl, ht⟩ := h
  exact ⟨v, t, rfl, hk _ ht⟩

theorem Terminator.closes {next : TokenKind} (hv : Terminator next v)
    (hw : EndsWith statementCloserKinds w) : EndsWith statementCloserKinds (w ++ v) := by
  cases hv with
  | semicolon => exact endsWith_last (by decide) _ _
  | leftOut =>
    rw [List.append_nil]
    exact hw

theorem Optional.closes {x : String} (h : Optional w n) :
    EndsWith statementCloserKinds (⟨.returnWord, x⟩ :: w) := by
  cases h with
  | leftOut => exact endsWith_last (by decide) _ []
  | given h => exact (h.closes.mono (by decide)).cons _

theorem Statement.closes {part : Part} {next : TokenKind} (h : Statement part next w n) :
    EndsWith statementCloserKinds w := by
  have hmono : ∀ kind ∈ closerKinds, kind ∈ statementCloserKinds := by decide
  induction h using Statement.induction with
  | declaration hw hv => exact hv.closes (hw.closes.mono hmono)
  | function => exact endsWith_last (by decide) _ _
  | block => exact endsWith_last (by decide) _ _
  | ifElse _ ih => exact ih.cons _
  | whileLoop _ _ ih => exact ih.append _
  | forLoop _ _ _ _ ih => exact (ih.cons _).append _
  | returning hw hv => exact hv.closes hw.closes
  | breaking hv => exact hv.closes (endsWith_last (by decide) _ [])
  | continuing hv => exact hv.closes (endsWith_last (by decide) _ [])
  | importing _ hv => exact (hv.closes (endsWith_last (by decide) _ [_, _])).append _
  | exporting _ ih => exact ih.cons _
  | exportingDefault _ ih => exact (ih.cons _).cons _
  | expression hw _ hv => exact hv.closes (hw.closes.mono hmono)
  | alone _ _ _ _ ih => exact ih.append _
  | orElse _ _ _ _ ih => exact (ih.cons _).append _
  | orElseIf _ _ _ _ ih => exact (ih.cons _).append _

theorem Word.synonymous (h : Word w n) (hs : Synonymous w u) : Word u n := by
  cases h with
  | mk =>
    rw [hs.eq_of_plain (by simp [synonymKinds])]
    exact .mk

theorem Target.synonymous (h : Target w n) (hs : Synonymous w u) : Target u n := by
  cases h with
  | name h => exact .name (h.synonymous hs)
  | pattern h =>
    simp (disch := decide) only [synonymous_around, synonymous_cons, synonymous_nil] at hs
    obtain ⟨_, _, rfl, ⟨w', rfl, hw⟩, rfl⟩ := hs
    exact .pattern (h.synonymous Word.synonymous hw)

theorem Declarator.synonymous (h : Declarator w n) (hs : Synonymous w u) : Declarator u n := by
  cases h with
  | plain h => exact .plain (h.synonymous hs)
  | given h he =>
    simp (disch := decide) only [synonymous_around] at hs
    obtain ⟨w', v', rfl, hw, hv⟩ := hs
    exact .given (h.synonymous hw) (he.synonymous hv)

theorem Declaration.synonymous (h : Declaration w n) (hs : Synonymous w u) : Declaration u n := by
  cases h with
  | changing h =>
    obtain ⟨w', rfl, hw⟩ := (synonymous_cons (by decide)).mp hs
    exact .changing (h.synonymous Declarator.synonymous hw)
  | constant h =>
    obtain ⟨w', rfl, hw⟩ := (synonymous_cons (by decide)).mp hs
    exact .constant (h.synonymous Declarator.synonymous hw)

theorem Optional.synonymous (h : Optional w n) (hs : Synonymous w u) : Optional u n := by
  cases h with
  | leftOut =>
    obtain rfl := synonymous_nil.mp hs
    exact .leftOut
  | given h => exact .given (h.synonymous hs)

theorem Initial.synonymous (h : Initial w n) (hs : Synonymous w u) : Initial u n := by
  cases h with
  | declaration h => exact .declaration (h.synonymous hs)
  | expression h => exact .expression (h.synonymous hs)

theorem Specifier.synonymous (h : Specifier w n) (hs : Synonymous w u) : Specifier u n := by
  cases h with
  | mk =>
    rw [hs.eq_of_plain (by simp [synonymKinds])]
    exact .mk

theorem Condition.synonymous (h : Condition w n) (hs : Synonymous w u) : Condition u n := by
  cases h with
  | mk h =>
    simp (disch := decide) only [synonymous_around, synonymous_cons, synonymous_nil] at hs
    obtain ⟨_, _, rfl, ⟨w', rfl, hw⟩, rfl⟩ := hs
    exact .mk (h.synonymous hw)

theorem Condition.closes (h : Condition w n) : EndsWith [.rightParen] w := by
  cases h with
  | mk => exact endsWith_last (by decide) _ _

theorem Terminator.synonymous {k l : TokenKind} (h : Terminator k w) (hnext : AlikeNext k l)
    (hs : Synonymous w u) : Terminator l u := by
  cases h with
  | semicolon =>
    rw [hs.eq_of_plain (by simp [synonymKinds])]
    exact .semicolon
  | leftOut hk =>
    obtain rfl := synonymous_nil.mp hs
    exact .leftOut (hnext.ends.mp hk)

/-- A statement that begins with `if` is a branch after it. -/
theorem Statement.of_if {next : TokenKind} {x : String}
    (h : Statement .statement next (⟨.ifWord, x⟩ :: w) n) : Statement .branch next w n := by
  generalize hs : ⟨.ifWord, x⟩ :: w = s at h
  cases h with
  | ifElse h =>
    obtain ⟨-, rfl⟩ := List.cons.inj hs
    exact h
  | declaration hw => cases hw <;> cases hs
  | function hk => rcases hk with rfl | rfl <;> cases hs
  | expression hw =>
    have havoids : Avoids [.ifWord] _ := hw.avoids (by decide)
    obtain ⟨t, v, rfl, ht⟩ := havoids
    obtain ⟨rfl, -⟩ := List.cons.inj hs
    simp at ht
  | _ => cases hs

/-- The statements of a block. -/
theorem synonymous_body {ns : List Node} {next : TokenKind}
    (h : Sequence (fun k w n => ∃ _ : Statement .statement k w n,
      ∀ {l u}, AlikeNext k l → Synonymous w u → Statement .statement l u n) next w ns)
    (hs : Synonymous w u) : Sequence (Statement .statement) next u ns :=
  h.synonymous (fun ⟨h, _⟩ => h.closes.not_else (by decide)) (fun ⟨_, ih⟩ hnext hs => ih hnext hs)
    (.refl next) hs

/-- A condition, a statement, and how the branch goes on after them. -/
theorem Synonymous.of_branches {part : Part} {next : TokenKind} {s : List Terminal} {e m : Node}
    (hs : Synonymous (w ++ v ++ s) u) (hw : Condition w e) (hv : Statement part next v m) :
    ∃ w' v' s', u = w' ++ v' ++ s' ∧ Synonymous w w' ∧ Synonymous v v' ∧ Synonymous s s' := by
  obtain ⟨_, s', rfl, hwv, hs'⟩ := hs.of_append (.inr ((hv.closes.append w).not_else (by decide)))
  obtain ⟨w', v', rfl, hw', hv'⟩ := hwv.of_append (.inr (hw.closes.not_else (by decide)))
  exact ⟨w', v', s', rfl, hw', hv', hs'⟩

/-- A statement stays what it is if words in it are put for others that mean the same, and also
before such a word. -/
theorem Statement.synonymous {part : Part} {k : TokenKind} (h : Statement part k w n) :
    ∀ {l u}, AlikeNext k l → Synonymous w u → Statement part l u n := by
  induction h using Statement.induction with
  | declaration hw hv =>
    intro l u hnext hs
    obtain ⟨w', v', rfl, hw', hv'⟩ := hs.of_append (.inr (hw.closes.not_else (by decide)))
    exact .declaration (hw.synonymous hw') (hv.synonymous hnext hv')
  | function hk hv _ ih =>
    intro l u hnext hs
    simp (disch := decide) only [synonymous_around, synonymous_cons, synonymous_nil] at hs
    obtain ⟨_, _, rfl, ⟨_, _, rfl, hs, w', rfl, hw⟩, rfl⟩ := hs
    obtain ⟨k', y, _, rfl, hk', hs⟩ := hs.of_function hk
    simp (disch := decide) only [synonymous_cons] at hs
    obtain ⟨_, rfl, v', rfl, hv'⟩ := hs
    exact .function hk' (hv.synonymous Word.synonymous hv') (synonymous_body ih hw)
  | block _ ih =>
    intro l u hnext hs
    simp (disch := decide) only [synonymous_around, synonymous_cons, synonymous_nil] at hs
    obtain ⟨_, _, rfl, ⟨w', rfl, hw⟩, rfl⟩ := hs
    exact .block (synonymous_body ih hw)
  | ifElse _ ih =>
    intro l u hnext hs
    obtain ⟨w', rfl, hw⟩ := (synonymous_cons (by decide)).mp hs
    exact .ifElse (ih hnext hw)
  | whileLoop hw _ ih =>
    intro l u hnext hs
    obtain ⟨_, v', rfl, hhead, hv⟩ := hs.of_append (.inr ((hw.closes.cons _).not_else (by decide)))
    obtain ⟨w', rfl, hw'⟩ := (synonymous_cons (by decide)).mp hhead
    exact .whileLoop (hw.synonymous hw') (ih hnext hv)
  | forLoop hi ht hu _ ih =>
    intro l u hnext hs
    simp (disch := decide) only [synonymous_around, synonymous_cons] at hs
    obtain ⟨_, w', rfl, ⟨_, u', rfl, ⟨_, t', rfl, ⟨_, rfl, i', rfl, hi'⟩, ht'⟩, hu'⟩, hw'⟩ := hs
    exact .forLoop (hi.synonymous hi') (ht.synonymous ht') (hu.synonymous hu') (ih hnext hw')
  | returning hw hv =>
    intro l u hnext hs
    obtain ⟨_, v', rfl, hhead, hv'⟩ := hs.of_append (.inr (hw.closes.not_else (by decide)))
    obtain ⟨w', rfl, hw'⟩ := (synonymous_cons (by decide)).mp hhead
    exact .returning (hw.synonymous hw') (hv.synonymous hnext hv')
  | breaking hv =>
    intro l u hnext hs
    obtain ⟨v', rfl, hv'⟩ := (synonymous_cons (by decide)).mp hs
    exact .breaking (hv.synonymous hnext hv')
  | continuing hv =>
    intro l u hnext hs
    obtain ⟨v', rfl, hv'⟩ := (synonymous_cons (by decide)).mp hs
    exact .continuing (hv.synonymous hnext hv')
  | importing hw hv =>
    intro l u hnext hs
    simp (disch := decide) only [synonymous_around, synonymous_cons] at hs
    obtain ⟨_, _, rfl, ⟨_, rfl, w', rfl, hw'⟩, _, rfl, v', rfl, hv'⟩ := hs
    exact .importing (hw.synonymous Specifier.synonymous hw') (hv.synonymous hnext hv')
  | exporting _ ih =>
    intro l u hnext hs
    obtain ⟨w', rfl, hw⟩ := (synonymous_cons (by decide)).mp hs
    exact .exporting (ih hnext hw)
  | exportingDefault _ ih =>
    intro l u hnext hs
    simp (disch := decide) only [synonymous_cons] at hs
    obtain ⟨_, rfl, w', rfl, hw⟩ := hs
    exact .exportingDefault (ih hnext hw)
  | expression hw hstart hv =>
    intro l u hnext hs
    obtain ⟨w', v', rfl, hw', hv'⟩ := hs.of_append (.inr (hw.closes.not_else (by decide)))
    refine .expression (hw.synonymous hw') ?_ (hv.synonymous hnext hv')
    -- A phrase begins with no word that others stand for.
    have havoids : Avoids synonymKinds _ := hw.avoids (by decide)
    obtain ⟨t, rest, rfl, ht⟩ := havoids
    obtain ⟨_, rfl, -⟩ := hw'.of_cons ht
    exact hstart
  | alone hw _ he hi ih =>
    intro l u hnext hs
    obtain ⟨w', v', rfl, hw', hv'⟩ := hs.of_append (.inr (hw.closes.not_else (by decide)))
    have hend := hnext.goesOn.not.mp (not_or.mpr ⟨he, hi⟩)
    exact .alone (hw.synonymous hw') (ih hnext hv') (not_or.mp hend).1 (not_or.mp hend).2
  | orElse hw hv hu ihv ihu =>
    intro l u hnext hs
    obtain ⟨w', v', s, rfl, hw', hv', hrest⟩ := hs.of_branches hw hv
    cases hrest with
    | same hu' => exact .orElse (hw.synonymous hw') (ihv (.refl _) hv') (ihu hnext hu')
    | fused hu' =>
      exact .orElseIf (hw.synonymous hw') (ihv ⟨by decide, by decide⟩ hv')
        (ihu hnext (.same hu')).of_if
    | function hk => exact absurd hk (by decide)
  | orElseIf hw hv hu ihv ihu =>
    intro l u hnext hs
    obtain ⟨w', v', s, rfl, hw', hv', hrest⟩ := hs.of_branches hw hv
    cases hrest with
    | same hu' => exact .orElseIf (hw.synonymous hw') (ihv (.refl _) hv') (ihu hnext hu')
    | apart hu' =>
      exact .orElse (hw.synonymous hw') (ihv ⟨by decide, by decide⟩ hv') (.ifElse (ihu hnext hu'))
    | function hk => exact absurd hk (by decide)

/-- So does a program. -/
theorem Program.synonymous (h : Program w n) (hs : Synonymous w u) : Program u n := by
  cases h with
  | mk h =>
    exact .mk (h.synonymous (fun h => h.closes.not_else (by decide))
      (fun h hnext hs => h.synonymous hnext hs) (.refl .eof) hs)

end HanScript.Grammar
