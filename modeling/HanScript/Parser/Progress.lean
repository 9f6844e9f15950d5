-- Parsing always moves on: every rule that succeeds has taken a token, no rule
-- ever gives a token back, and so the steps and the levels that are counted off
-- on the tokens ahead never run out.
import HanScript.Parser.Statement

namespace HanScript

/-- How many tokens are ahead, without the last one of all. -/
def Cursor.left (c : Cursor) : Nat := c.ahead.length

namespace Parser

variable {α β σ : Type}

/-! ## What holds after a parser -/

/-- If the parser succeeds, `Q` holds of its result and of the cursor after it, and if it
fails, that is not because it has run out of steps or levels. -/
def Ends (p : Parser α) (c : Cursor) (Q : α → Cursor → Prop) : Prop :=
  match p c with
  | (.ok a, d) => Q a d
  | (.error e, _) => e.misfit ≠ .overrun

theorem Ends.mono {p : Parser α} {c : Cursor} {Q R : α → Cursor → Prop} (h : Ends p c Q)
    (hqr : ∀ a d, Q a d → R a d) : Ends p c R := by
  unfold Ends at *
  split
  · rename_i a d hp
    rw [hp] at h
    exact hqr a d h
  · rename_i e d hp
    rw [hp] at h
    exact h

/-- Only what the parser does at the cursor counts. -/
theorem Ends.congr {p q : Parser α} {c : Cursor} {Q : α → Cursor → Prop} (h : p c = q c)
    (hp : Ends p c Q) : Ends q c Q := by
  unfold Ends at *
  rw [← h]
  exact hp

theorem bind_of_ok {p : Parser α} {f : α → Parser β} {c d : Cursor} {a : α}
    (h : p c = (.ok a, d)) : (p >>= f) c = f a d := by
  change Parser.bind p f c = f a d
  unfold Parser.bind
  rw [h]

theorem bind_of_error {p : Parser α} {f : α → Parser β} {c d : Cursor} {e : ParseError}
    (h : p c = (.error e, d)) : (p >>= f) c = (.error e, d) := by
  change Parser.bind p f c = (.error e, d)
  unfold Parser.bind
  rw [h]

theorem Ends.bind {p : Parser α} {f : α → Parser β} {c : Cursor} {Q : α → Cursor → Prop}
    {R : β → Cursor → Prop} (h : Ends p c Q) (hf : ∀ a d, Q a d → Ends (f a) d R) :
    Ends (p >>= f) c R := by
  unfold Ends at h
  split at h
  · rename_i a d hp
    have := hf a d h
    unfold Ends at this ⊢
    rw [bind_of_ok hp]
    exact this
  · rename_i e d hp
    unfold Ends
    rw [bind_of_error hp]
    exact h

theorem ends_misfit {m : Misfit} (h : m ≠ .overrun) (c : Cursor) (Q : α → Cursor → Prop) :
    Ends (misfit m) c Q := h

/-! ## Single steps -/

theorem left_advance_le (c : Cursor) : c.advance.left ≤ c.left := by
  unfold Cursor.advance Cursor.left
  split
  · exact Nat.le_refl _
  · rename_i t ts h
    split
    · exact Nat.le_refl _
    · simp [h]

theorem left_advance_lt {c : Cursor} (h : c.current.kind ≠ .eof) : c.advance.left < c.left := by
  unfold Cursor.left
  rw [(Cursor.advance_of_ne_eof h).2.1]
  exact Nat.lt_succ_self _

/-- The parser takes a token if it succeeds. -/
def Takes (n : Nat) (p : Parser α) : Prop :=
  ∀ c : Cursor, c.left ≤ n → Ends p c fun _ d => d.left < c.left

/-- The parser gives no token back. -/
def Keeps (n : Nat) (p : Parser α) : Prop :=
  ∀ c : Cursor, c.left ≤ n → Ends p c fun _ d => d.left ≤ c.left

theorem Takes.keeps {n : Nat} {p : Parser α} (h : Takes n p) : Keeps n p :=
  fun c hc => (h c hc).mono fun _ _ hd => Nat.le_of_lt hd

theorem Takes.less {m n : Nat} {p : Parser α} (h : Takes n p) (hm : m ≤ n) : Takes m p :=
  fun c hc => h c (Nat.le_trans hc hm)

/-- What follows a parser that takes a token starts with fewer tokens ahead. -/
theorem Takes.bind {n : Nat} {p : Parser α} {f : α → Parser β} (h : Takes n p)
    (hf : ∀ a m, m < n → Keeps m (f a)) : Takes n (p >>= f) := by
  intro c hc
  refine (h c hc).bind fun a d hd => ?_
  exact (hf a d.left (by omega) d (Nat.le_refl _)).mono fun _ _ he => by omega

theorem Keeps.bind {n : Nat} {p : Parser α} {f : α → Parser β} (h : Keeps n p)
    (hf : ∀ a, Keeps n (f a)) : Keeps n (p >>= f) := by
  intro c hc
  refine (h c hc).bind fun a d hd => ?_
  exact (hf a d (by omega)).mono fun _ _ he => by omega

/-- A parser that may take nothing, before one that takes a token. -/
theorem Keeps.takes {n : Nat} {p : Parser α} {f : α → Parser β} (h : Keeps n p)
    (hf : ∀ a, Takes n (f a)) : Takes n (p >>= f) := by
  intro c hc
  refine (h c hc).bind fun a d hd => ?_
  exact (hf a d (by omega)).mono fun _ _ he => by omega

theorem keeps_pure (n : Nat) (a : α) : Keeps n (pure a : Parser α) := fun _ _ => Nat.le_refl _

theorem keeps_look (n : Nat) (f : Cursor → α) : Keeps n (look f) := fun _ _ => Nat.le_refl _

theorem keeps_advance (n : Nat) : Keeps n advance := fun c _ => left_advance_le c

theorem takes_misfit {m : Misfit} (h : m ≠ .overrun) (n : Nat) : Takes n (misfit m : Parser α) :=
  fun c _ => ends_misfit h c _

theorem takes_expect {kind : TokenKind} (h : kind ≠ .eof) (n : Nat) : Takes n (expect kind) := by
  intro c _
  unfold expect
  change Ends (if c.current.kind = kind then advance else
    misfit (.expected kind c.current.kind)) c _
  split
  · rename_i hk
    exact left_advance_lt (by rw [hk]; exact h)
  · exact ends_misfit (by simp) c _

/-- A test of the current token, and what follows on each side of it. -/
theorem ends_isAt (kind : TokenKind) {p q : Parser α} {c : Cursor} {Q : α → Cursor → Prop}
    (hp : c.current.kind = kind → Ends p c Q) (hq : Ends q c Q) :
    Ends (do if ← isAt kind then p else q) c Q := by
  change Ends (if decide (c.current.kind = kind) = true then p else q) c Q
  split
  · rename_i h
    exact hp (of_decide_eq_true h)
  · exact hq

theorem ends_isAtAny (kinds : List TokenKind) {p q : Parser α} {c : Cursor}
    {Q : α → Cursor → Prop} (hp : c.current.kind ∈ kinds → Ends p c Q) (hq : Ends q c Q) :
    Ends (do if ← isAtAny kinds then p else q) c Q := by
  change Ends (if decide (c.current.kind ∈ kinds) = true then p else q) c Q
  split
  · rename_i h
    exact hp (of_decide_eq_true h)
  · exact hq

/-- A token that may be taken, and what follows on each side of it. -/
theorem ends_accept {kind : TokenKind} (hk : kind ≠ .eof) {p q : Parser α} {c : Cursor}
    {Q : α → Cursor → Prop} (hp : ∀ d : Cursor, d.left < c.left → Ends p d Q)
    (hq : Ends q c Q) : Ends (do if ← accept kind then p else q) c Q := by
  refine Ends.bind (Q := fun b d => if b = true then d.left < c.left else d = c) ?_ ?_
  · unfold accept
    refine ends_isAt kind (fun h => ?_) ?_
    · exact left_advance_lt (by rw [h]; exact hk)
    · exact rfl
  · intro b d hd
    cases b with
    | true => exact hp d hd
    | false =>
      have : d = c := hd
      subst this
      exact hq

theorem keeps_accept (kind : TokenKind) (n : Nat) : Keeps n (accept kind) := by
  intro c _
  unfold accept
  exact ends_isAt kind (fun _ => left_advance_le c) (Nat.le_refl _)

/-- The current token is taken where its kind is known. -/
theorem ends_advance {c : Cursor} (h : c.current.kind ≠ .eof) :
    Ends advance c fun _ d => d.left < c.left := left_advance_lt h

theorem ends_advance_bind {c : Cursor} {f : Token → Parser α} (h : c.current.kind ≠ .eof)
    (hf : ∀ t m, m < c.left → Keeps m (f t)) :
    Ends (advance >>= f) c fun _ d => d.left < c.left := by
  refine (ends_advance h).bind fun t d hd => ?_
  exact (hf t d.left hd d (Nat.le_refl _)).mono fun _ _ he => by omega

/-- The current token, looked at before anything is taken. -/
theorem ends_peek {f : Token → Parser α} {c : Cursor} {Q : α → Cursor → Prop}
    (h : Ends (f c.current) c Q) : Ends (peek >>= f) c Q := h

/-- The end of most rules: the span of the whole, and a node made with it. -/
theorem keeps_spanned (n : Nat) (first : Span) (make : Span → α) :
    Keeps n (do let span ← spanFrom first; return make span) :=
  (keeps_look n _).bind fun _ => keeps_pure n _

/-! ## Repetition -/

/-- A step that stops, or takes a token. -/
def Steps (n : Nat) (step : σ → Parser (Option σ)) : Prop :=
  ∀ s, ∀ c : Cursor, c.left ≤ n → Ends (step s) c fun r d =>
    match r with
    | none => d.left ≤ c.left
    | some _ => d.left < c.left

theorem ends_stepsWithin {n : Nat} {step : σ → Parser (Option σ)} (h : Steps n step)
    (budget : List Token) (s : σ) (c : Cursor) (hc : c.left ≤ n) (hb : c.left < budget.length) :
    Ends (stepsWithin budget step s) c fun _ d => d.left ≤ c.left := by
  induction budget generalizing s c with
  | nil => simp at hb
  | cons t budget ih =>
    unfold stepsWithin
    refine (h s c hc).bind fun r d hd => ?_
    cases r with
    | none => exact hd
    | some s' =>
      have hd' : d.left < c.left := hd
      simp only [List.length_cons] at hb
      exact (ih s' d (by omega) (by omega)).mono fun _ _ he => by omega

theorem keeps_steps {n : Nat} {step : σ → Parser (Option σ)} (h : Steps n step) (s : σ) :
    Keeps n (steps step s) :=
  fun c hc => ends_stepsWithin h c.budget s c hc (Nat.lt_succ_self _)

theorem keeps_manyWhile {n : Nat} (more : Cursor → Bool) {item : Parser α}
    (h : ∀ c : Cursor, c.left ≤ n → more c = true → Ends item c fun _ d => d.left < c.left) :
    Keeps n (manyWhile (look more) item) := by
  unfold manyWhile
  refine Keeps.bind (keeps_steps ?_ _) fun items => keeps_pure n _
  intro items c hc
  change Ends (if more c = true then _ else _) c _
  split
  · rename_i hm
    exact (h c hc hm).bind fun a d hd => hd
  · exact Nat.le_refl _

theorem takes_separated {n : Nat} {item : Parser α} (h : Takes n item) :
    Takes n (separated item) := by
  unfold separated
  refine h.bind fun a m hm => Keeps.bind ?_ fun rest => keeps_pure m _
  refine keeps_manyWhile _ fun c hc hk => ?_
  have hcomma : c.current.kind = .comma := of_decide_eq_true hk
  refine (ends_advance (by rw [hcomma]; decide)).bind fun t d hd => ?_
  exact (h d (by omega)).mono fun _ _ he => by omega

theorem keeps_separatedUntil {n : Nat} {item : Parser α} (h : Takes n item)
    (close : TokenKind) : Keeps n (separatedUntil close item) := by
  intro c hc
  unfold separatedUntil
  exact ends_isAt close (fun _ => Nat.le_refl _) ((takes_separated h).keeps c hc)

theorem keeps_listUntil {n : Nat} {item : Parser α} (h : Takes n item) (close : TokenKind) :
    Keeps n (listUntil close item) := by
  unfold listUntil
  refine Keeps.bind (keeps_steps ?_ _) fun items => keeps_pure n _
  rintro ⟨items, more⟩ c hc
  cases more with
  | false => exact Nat.le_refl _
  | true =>
    refine ends_isAt close (fun _ => Nat.le_refl _) ?_
    refine (h c hc).bind fun a d hd => ?_
    refine (keeps_accept .comma n d (by omega)).bind fun b e he => ?_
    exact (by omega : e.left < c.left)

/-! ## Names and literals -/

theorem takes_identifier (n : Nat) : Takes n identifier :=
  (takes_expect (by decide) n).bind fun _ m _ => (keeps_look m _).bind fun _ => keeps_pure m _

theorem takes_tagWord (n : Nat) : Takes n tagWord :=
  (takes_expect (by decide) n).bind fun _ m _ => (keeps_look m _).bind fun _ => keeps_pure m _

theorem takes_tagName (n : Nat) : Takes n tagName := by
  refine (takes_tagWord n).bind fun first m _ => keeps_steps ?_ _
  intro name c hc
  refine ends_accept (by decide) (fun d hd => ?_) (Nat.le_refl _)
  exact (takes_tagWord d.left d (Nat.le_refl _)).bind fun a e he => (by omega : e.left < c.left)

theorem keeps_numberOf (n : Nat) (t : Token) : Keeps n (numberOf t) := by
  intro c _
  unfold numberOf
  split
  · exact Nat.le_refl _
  · exact (nofun : Misfit.badNumeral t.value ≠ .overrun)

theorem ends_literal (value : Value) (template : Bool) {c : Cursor} (h : c.current.kind ≠ .eof) :
    Ends (literal value template) c fun _ d => d.left < c.left := left_advance_lt h

theorem ends_numeral {c : Cursor} (h : c.current.kind ≠ .eof) :
    Ends numeral c fun _ d => d.left < c.left := by
  unfold numeral
  refine (ends_advance h).bind fun t d hd => ?_
  exact (keeps_numberOf d.left t d (Nat.le_refl _)).bind fun n e he => (by omega : e.left < c.left)

/-! ## Expressions and markup -/

/-- The rules one level further in take a token, as long as fewer than `n` are ahead. -/
structure Below (n : Nat) (inner : Inner) : Prop where
  assignment : ∀ m, m < n → Takes m inner.assignment
  power : ∀ m, m < n → Takes m inner.power
  unary : ∀ m, m < n → Takes m inner.unary
  markup : ∀ m, m < n → Takes m inner.markup

theorem Below.less {m n : Nat} {inner : Inner} (h : Below n inner) (hm : m ≤ n) :
    Below m inner :=
  ⟨fun k hk => h.assignment k (by omega), fun k hk => h.power k (by omega),
    fun k hk => h.unary k (by omega), fun k hk => h.markup k (by omega)⟩

theorem takes_slot {n : Nat} {item : Parser Node} (h : Takes n item) :
    Takes n (Rule.slot item) := by
  intro c hc
  unfold Rule.slot
  refine ends_accept (by decide) (fun d hd => hd) ?_
  refine (h c hc).bind fun a d hd => ends_isAt _ (fun _ => hd) ?_
  refine (takes_expect (by decide) d.left d (Nat.le_refl _)).bind fun t e he => ?_
  exact (by omega : e.left < c.left)

theorem takes_bracketed {n : Nat} {item : Parser Node} (h : ∀ m, m < n → Takes m item) :
    Takes n (Rule.bracketed item) := by
  refine (takes_expect (by decide) n).bind fun first m hm => ?_
  refine Keeps.bind (keeps_manyWhile _ fun c hc _ => takes_slot (h m hm) c hc) fun elements => ?_
  exact (takes_expect (by decide) m).keeps.bind fun _ => keeps_spanned m _ _

theorem takes_array {n : Nat} {inner : Inner} (h : Below n inner) : Takes n (Rule.array inner) :=
  (takes_bracketed h.assignment).bind fun _ m _ => keeps_pure m _

theorem takes_property {n : Nat} {inner : Inner} (h : Below n inner) :
    Takes n (Rule.property inner) := by
  refine (takes_identifier n).bind fun key m hm => ?_
  refine (takes_expect (by decide) m).keeps.bind fun _ => ?_
  exact (h.assignment m hm).keeps.bind fun _ => keeps_spanned m _ _

theorem takes_object {n : Nat} {inner : Inner} (h : Below n inner) :
    Takes n (Rule.object inner) := by
  refine (takes_expect (by decide) n).bind fun first m hm => ?_
  refine (keeps_listUntil (takes_property (h.less (Nat.le_of_lt hm))) _).bind fun properties => ?_
  exact (takes_expect (by decide) m).keeps.bind fun _ => keeps_spanned m _ _

theorem takes_arguments {n m : Nat} {inner : Inner} (h : Below n inner) (hm : m < n) :
    Takes m (Rule.arguments inner) := by
  refine (keeps_separatedUntil (h.assignment m hm) _).takes fun items => ?_
  exact (takes_expect (by decide) m).bind fun _ k _ => keeps_pure k _

theorem takes_container {n : Nat} {inner : Inner} (h : Below n inner) :
    Takes n (Rule.container inner) := by
  refine (takes_expect (by decide) n).bind fun first m hm => ?_
  refine (h.assignment m hm).keeps.bind fun _ => ?_
  exact (takes_expect (by decide) m).keeps.bind fun _ => keeps_spanned m _ _

theorem takes_givenValue {n : Nat} {inner : Inner} (h : Below n inner) (name : String) :
    Takes n (Rule.givenValue inner name) := by
  intro c hc
  unfold Rule.givenValue
  refine ends_peek ?_
  split
  · rename_i hk
    exact ends_literal _ _ (by rw [hk]; decide)
  · exact takes_container h c hc
  · exact ends_misfit (by simp) c _

theorem keeps_attributeValue {n : Nat} {inner : Inner} (h : Below n inner) (name : String) :
    Keeps n (Rule.attributeValue inner name) := by
  intro c hc
  unfold Rule.attributeValue
  refine ends_accept (by decide) (fun d hd => ?_) (Nat.le_refl _)
  exact (takes_givenValue h name d (by omega)).mono fun _ _ he => by omega

theorem takes_tagAttribute {n : Nat} {inner : Inner} (h : Below n inner) :
    Takes n (Rule.tagAttribute inner) := by
  refine (takes_expect (by decide) n).bind fun token m hm => ?_
  refine (keeps_look m _).bind fun nameSpan => ?_
  refine (keeps_attributeValue (h.less (Nat.le_of_lt hm)) _).bind fun value => ?_
  exact keeps_spanned m _ _

theorem takes_child {n m : Nat} {inner : Inner} (h : Below n inner) (hm : m < n) :
    Takes m (Rule.child inner) := by
  intro c hc
  unfold Rule.child
  refine ends_peek ?_
  split
  · exact ends_misfit (by simp) c _
  · rename_i hk
    exact ends_advance_bind (by rw [hk]; decide) fun _ k _ => keeps_spanned k _ _
  · rename_i hk
    exact ends_advance_bind (by rw [hk]; decide) fun _ k _ => keeps_spanned k _ _
  · exact (takes_container (h.less (Nat.le_of_lt hm)) c hc).bind fun _ _ hd => hd
  · exact (h.markup m hm c hc).bind fun _ _ hd => hd
  · rename_i hk _ _ _ _
    exact ends_advance_bind hk fun _ k _ => keeps_pure k _

theorem keeps_children {n m : Nat} {inner : Inner} (h : Below n inner) (hm : m < n) :
    Keeps m (Rule.children inner) :=
  (keeps_manyWhile _ fun c hc _ => takes_child h hm c hc).bind fun _ => keeps_pure m _

theorem keeps_fragmentEnd (n : Nat) : Keeps n Rule.fragmentEnd := by
  refine (keeps_look n _).bind fun closes => ?_
  cases closes with
  | true => exact (keeps_advance n).bind fun _ => (keeps_advance n).bind fun _ => keeps_pure n _
  | false =>
    refine (takes_expect (by decide) n).keeps.bind fun _ => ?_
    exact (takes_expect (by decide) n).keeps.bind fun _ => keeps_pure n _

theorem takes_markup {n : Nat} {inner : Inner} (h : Below n inner) :
    Takes n (Rule.markup inner) := by
  refine (takes_expect (by decide) n).bind fun opening m hm => ?_
  refine (keeps_accept _ m).bind fun isFragment => ?_
  cases isFragment with
  | true =>
    refine (keeps_children h hm).bind fun items => ?_
    exact (keeps_fragmentEnd m).bind fun _ => keeps_spanned m _ _
  | false =>
    refine (takes_tagName m).keeps.bind fun name => ?_
    refine Keeps.bind (keeps_manyWhile _ fun c hc _ =>
      takes_tagAttribute (h.less (Nat.le_of_lt hm)) c hc) fun attributes => ?_
    refine (keeps_accept _ m).bind fun isClosed => ?_
    cases isClosed with
    | true => exact keeps_spanned m _ _
    | false =>
      refine (takes_expect (by decide) m).keeps.bind fun _ => ?_
      refine (keeps_children h hm).bind fun items => ?_
      refine (takes_expect (by decide) m).keeps.bind fun _ => ?_
      refine (takes_tagName m).keeps.bind fun _ => ?_
      exact (takes_expect (by decide) m).keeps.bind fun _ => keeps_spanned m _ _

theorem takes_primary {n : Nat} {inner : Inner} (h : Below n inner) :
    Takes n (Rule.primary inner) := by
  intro c hc
  unfold Rule.primary
  refine ends_peek ?_
  split
  · rename_i hk
    exact ends_numeral (by rw [hk]; decide)
  · rename_i hk
    exact ends_literal _ _ (by rw [hk]; decide)
  · rename_i hk
    exact ends_literal _ _ (by rw [hk]; decide)
  · rename_i hk
    exact ends_literal _ _ (by rw [hk]; decide)
  · rename_i hk
    exact ends_literal _ _ (by rw [hk]; decide)
  · rename_i hk
    exact ends_literal _ _ (by rw [hk]; decide)
  · rename_i hk
    exact ends_advance_bind (by rw [hk]; decide) fun _ m _ => keeps_spanned m _ _
  · exact takes_identifier n c hc
  · exact takes_array h c hc
  · exact takes_object h c hc
  · rename_i hk
    refine ends_advance_bind (by rw [hk]; decide) fun _ m hm => ?_
    refine (h.assignment m (by omega)).keeps.bind fun _ => ?_
    exact (takes_expect (by decide) m).keeps.bind fun _ => keeps_pure m _
  · refine ((keeps_look n _).takes fun opens => ?_) c hc
    cases opens with
    | true => exact takes_markup h
    | false => exact takes_misfit (m := .unexpected c.current.text) nofun n

theorem steps_suffix {n : Nat} {inner : Inner} (h : Below n inner) :
    Steps n (Rule.suffix inner) := by
  intro owner c hc
  unfold Rule.suffix
  refine ends_peek ?_
  split
  · rename_i hk
    refine (ends_advance (by rw [hk]; decide)).bind fun _ d hd => ?_
    refine (takes_arguments h (by omega) d (Nat.le_refl _)).bind fun items e he => ?_
    exact (by omega : e.left < c.left)
  · rename_i hk
    refine (ends_advance (by rw [hk]; decide)).bind fun _ d hd => ?_
    refine (takes_identifier n d (by omega)).bind fun field e he => ?_
    exact (by omega : e.left < c.left)
  · rename_i hk
    refine (ends_advance (by rw [hk]; decide)).bind fun _ d hd => ?_
    refine (h.assignment d.left (by omega) d (Nat.le_refl _)).bind fun field e he => ?_
    refine (takes_expect (by decide) n e (by omega)).bind fun _ f hf => ?_
    exact (by omega : f.left < c.left)
  · exact Nat.le_refl _

theorem takes_callMember {n : Nat} {inner : Inner} (h : Below n inner) :
    Takes n (Rule.callMember inner) :=
  (takes_primary h).bind fun _ _ hm => keeps_steps (steps_suffix (h.less (Nat.le_of_lt hm))) _

theorem takes_unary {n : Nat} {inner : Inner} (h : Below n inner) :
    Takes n (Rule.unary inner) := by
  intro c hc
  unfold Rule.unary
  refine ends_isAtAny _ (fun hk => ?_) (takes_callMember h c hc)
  refine ends_advance_bind (fun he => ?_) fun token m hm => ?_
  · rw [he] at hk
    exact absurd hk (by decide)
  · exact (h.unary m (by omega)).keeps.bind fun _ => keeps_spanned m _ _

theorem takes_power {n : Nat} {inner : Inner} (h : Below n inner) :
    Takes n (Rule.power inner) := by
  refine (takes_unary h).bind fun left m hm => (keeps_look m _).bind fun goesOn => ?_
  cases goesOn with
  | true =>
    refine (keeps_advance m).bind fun token => ?_
    exact (h.power m hm).keeps.bind fun _ => keeps_spanned m _ _
  | false => exact keeps_pure m _

theorem takes_leftChain {n : Nat} {operators : List TokenKind} {operand : Parser Node}
    (hops : .eof ∉ operators) (h : Takes n operand) :
    Takes n (Rule.leftChain operators operand) := by
  refine h.bind fun first m hm => keeps_steps ?_ _
  intro left c hc
  refine ends_isAtAny _ (fun hk => ?_) (Nat.le_refl _)
  refine (ends_advance fun he => hops (he ▸ hk)).bind fun token d hd => ?_
  refine (h d (by omega)).bind fun right e he => ?_
  exact (by omega : e.left < c.left)

theorem takes_multiplicative {n : Nat} {inner : Inner} (h : Below n inner) :
    Takes n (Rule.multiplicative inner) := takes_leftChain (by decide) (takes_power h)

theorem takes_additive {n : Nat} {inner : Inner} (h : Below n inner) :
    Takes n (Rule.additive inner) := takes_leftChain (by decide) (takes_multiplicative h)

theorem takes_relational {n : Nat} {inner : Inner} (h : Below n inner) :
    Takes n (Rule.relational inner) := takes_leftChain (by decide) (takes_additive h)

theorem takes_equality {n : Nat} {inner : Inner} (h : Below n inner) :
    Takes n (Rule.equality inner) := takes_leftChain (by decide) (takes_relational h)

theorem takes_logicalAnd {n : Nat} {inner : Inner} (h : Below n inner) :
    Takes n (Rule.logicalAnd inner) := takes_leftChain (by decide) (takes_equality h)

theorem takes_logicalOr {n : Nat} {inner : Inner} (h : Below n inner) :
    Takes n (Rule.logicalOr inner) := takes_leftChain (by decide) (takes_logicalAnd h)

theorem takes_conditional {n : Nat} {inner : Inner} (h : Below n inner) :
    Takes n (Rule.conditional inner) := by
  refine (takes_logicalOr h).bind fun test m hm => (keeps_accept _ m).bind fun goesOn => ?_
  cases goesOn with
  | true =>
    refine (h.assignment m hm).keeps.bind fun _ => ?_
    refine (takes_expect (by decide) m).keeps.bind fun _ => ?_
    exact (h.assignment m hm).keeps.bind fun _ => keeps_spanned m _ _
  | false => exact keeps_pure m _

theorem takes_assignment {n : Nat} {inner : Inner} (h : Below n inner) :
    Takes n (Rule.assignment inner) := by
  refine (takes_conditional h).bind fun left m hm => (keeps_look m _).bind fun goesOn => ?_
  cases goesOn with
  | true =>
    refine (keeps_advance m).bind fun token => ?_
    exact (h.assignment m hm).keeps.bind fun _ => keeps_spanned m _ _
  | false => exact keeps_pure m _

/-- There are enough levels for every cursor with fewer tokens ahead than the budget has. -/
theorem below_inner (budget : List Token) : Below budget.length (inner budget) := by
  induction budget with
  | nil => exact ⟨nofun, nofun, nofun, nofun⟩
  | cons t budget ih =>
    have hle : ∀ {m}, m < (t :: budget).length → m ≤ budget.length := Nat.le_of_lt_succ
    exact ⟨fun m hm => (takes_assignment ih).less (hle hm),
      fun m hm => (takes_power ih).less (hle hm), fun m hm => (takes_unary ih).less (hle hm),
      fun m hm => (takes_markup ih).less (hle hm)⟩

/-- A rule that takes a token with enough levels does so with those it is given. -/
theorem takes_nested {rule : Inner → Parser α}
    (h : ∀ {n : Nat} {i : Inner}, Below n i → Takes n (rule i)) (n : Nat) :
    Takes n (nested rule) := by
  intro c _
  refine Ends.congr ?_ (h (below_inner c.budget) c (Nat.le_succ c.left))
  rfl

/-- An expression takes a token. -/
theorem takes_expression (n : Nat) : Takes n expression := takes_nested takes_assignment n

/-! ## Statements -/

theorem keeps_terminator (n : Nat) : Keeps n terminator := by
  refine (keeps_accept _ n).bind fun taken => ?_
  cases taken with
  | true => exact keeps_pure n _
  | false =>
    refine (keeps_look n _).bind fun ends => ?_
    cases ends with
    | true => exact keeps_pure n _
    | false => exact (takes_expect (by decide) n).keeps.bind fun _ => keeps_pure n _

theorem takes_arrayPattern (n : Nat) : Takes n arrayPattern :=
  (takes_bracketed fun m _ => takes_identifier m).bind fun _ m _ => keeps_pure m _

theorem takes_declared (n : Nat) : Takes n declared := by
  refine (keeps_look n _).takes fun isPattern => ?_
  cases isPattern with
  | true => exact takes_arrayPattern n
  | false => exact takes_identifier n

theorem keeps_initializer (n : Nat) : Keeps n initializer := by
  refine (keeps_accept _ n).bind fun given => ?_
  cases given with
  | true => exact (takes_expression n).keeps
  | false => exact keeps_pure n _

theorem takes_declarator (n : Nat) : Takes n declarator := by
  refine (keeps_look n _).takes fun first => (takes_declared n).bind fun target m _ => ?_
  exact (keeps_initializer m).bind fun _ => keeps_spanned m _ _

theorem takes_declaration (n : Nat) : Takes n declaration := by
  refine (keeps_advance n).takes fun token => ?_
  exact (takes_separated (takes_declarator n)).bind fun _ m _ => keeps_spanned m _ _

theorem keeps_returned (n : Nat) : Keeps n returned := by
  refine (keeps_look n _).bind fun leftOut => ?_
  cases leftOut with
  | true => exact keeps_pure n _
  | false => exact (takes_expression n).keeps

theorem ends_returning {c : Cursor} (h : c.current.kind ≠ .eof) :
    Ends returning c fun _ d => d.left < c.left := by
  refine ends_advance_bind h fun token m _ => (keeps_returned m).bind fun argument => ?_
  exact (keeps_terminator m).bind fun _ => keeps_spanned m _ _

theorem ends_single (node : Span → Node) {c : Cursor} (h : c.current.kind ≠ .eof) :
    Ends (single node) c fun _ d => d.left < c.left :=
  ends_advance_bind h fun _ m _ => (keeps_terminator m).bind fun _ => keeps_spanned m _ _

theorem takes_importing (n : Nat) : Takes n importing := by
  refine (keeps_advance n).takes fun token => (takes_expect (by decide) n).bind fun _ m _ => ?_
  have hspec : Takes m importSpecifier :=
    (takes_identifier m).bind fun name k _ => keeps_spanned k _ _
  refine (keeps_listUntil hspec _).bind fun specifiers => ?_
  refine (takes_expect (by decide) m).keeps.bind fun _ => ?_
  refine (takes_expect (by decide) m).keeps.bind fun _ => ?_
  refine (takes_expect (by decide) m).keeps.bind fun source => ?_
  refine (keeps_look m _).bind fun sourceSpan => ?_
  exact (keeps_terminator m).bind fun _ => keeps_spanned m _ _

theorem takes_expressionStatement (n : Nat) : Takes n expressionStatement := by
  refine (takes_expression n).bind fun e m _ => ?_
  exact (keeps_terminator m).bind fun _ => keeps_spanned m _ _

/-- The rules of statements one level further in take a token, as long as fewer than `n`
are ahead. -/
structure BelowStatement (n : Nat) (inner : InnerStatement) : Prop where
  statement : ∀ m, m < n → Takes m inner.statement
  ifElse : ∀ m, m < n → Takes m inner.ifElse

theorem BelowStatement.less {m n : Nat} {inner : InnerStatement} (h : BelowStatement n inner)
    (hm : m ≤ n) : BelowStatement m inner :=
  ⟨fun k hk => h.statement k (by omega), fun k hk => h.ifElse k (by omega)⟩

theorem takes_block {n : Nat} {inner : InnerStatement} (h : BelowStatement n inner) :
    Takes n (Rule.block inner) := by
  refine (takes_expect (by decide) n).bind fun first m hm => ?_
  refine Keeps.bind (keeps_manyWhile _ fun c hc _ => h.statement m hm c hc) fun body => ?_
  exact (takes_expect (by decide) m).keeps.bind fun _ => keeps_spanned m _ _

theorem takes_function {n : Nat} {inner : InnerStatement} (h : BelowStatement n inner) :
    Takes n (Rule.function inner) := by
  refine (keeps_advance n).takes fun token => (takes_identifier n).bind fun name m hm => ?_
  refine (takes_expect (by decide) m).keeps.bind fun _ => ?_
  refine (keeps_separatedUntil (takes_identifier m) _).bind fun params => ?_
  refine (takes_expect (by decide) m).keeps.bind fun _ => ?_
  exact (takes_block (h.less (Nat.le_of_lt hm))).keeps.bind fun _ => keeps_spanned m _ _

theorem takes_condition (n : Nat) : Takes n Rule.condition := by
  refine (takes_expect (by decide) n).bind fun _ m _ => ?_
  refine (takes_expression m).keeps.bind fun test => ?_
  exact (takes_expect (by decide) m).keeps.bind fun _ => keeps_pure m _

theorem keeps_alternate {n m : Nat} {inner : InnerStatement} (h : BelowStatement n inner)
    (hm : m < n) : Keeps m (Rule.alternate inner) := by
  intro c hc
  unfold Rule.alternate
  refine ends_isAt _ (fun _ => ?_) (ends_accept (by decide) (fun d hd => ?_) (Nat.le_refl _))
  · exact (h.ifElse m hm c hc).mono fun _ _ hd => Nat.le_of_lt hd
  · exact (h.statement m hm d (by omega)).mono fun _ _ he => by omega

theorem takes_ifElse {n : Nat} {inner : InnerStatement} (h : BelowStatement n inner) :
    Takes n (Rule.ifElse inner) := by
  refine (keeps_advance n).takes fun token => (takes_condition n).bind fun test m hm => ?_
  refine (h.statement m hm).keeps.bind fun consequent => ?_
  exact (keeps_alternate h hm).bind fun _ => keeps_spanned m _ _

theorem takes_whileLoop {n : Nat} {inner : InnerStatement} (h : BelowStatement n inner) :
    Takes n (Rule.whileLoop inner) := by
  refine (keeps_advance n).takes fun token => (takes_condition n).bind fun test m hm => ?_
  exact (h.statement m hm).keeps.bind fun _ => keeps_spanned m _ _

theorem keeps_optional (n : Nat) (close : TokenKind) : Keeps n (Rule.optional close) := by
  refine (keeps_look n _).bind fun leftOut => ?_
  cases leftOut with
  | true => exact keeps_pure n _
  | false => exact (takes_expression n).keeps

theorem keeps_initialPart (n : Nat) : Keeps n Rule.initialPart := by
  refine (keeps_look n _).bind fun declares => ?_
  cases declares with
  | true => exact (takes_declaration n).keeps
  | false => exact keeps_optional n _

theorem takes_forLoop {n : Nat} {inner : InnerStatement} (h : BelowStatement n inner) :
    Takes n (Rule.forLoop inner) := by
  refine (keeps_advance n).takes fun token => (takes_expect (by decide) n).bind fun _ m hm => ?_
  refine (keeps_initialPart m).bind fun initial => ?_
  refine (takes_expect (by decide) m).keeps.bind fun _ => ?_
  refine (keeps_optional m _).bind fun test => ?_
  refine (takes_expect (by decide) m).keeps.bind fun _ => ?_
  refine (keeps_optional m _).bind fun update => ?_
  refine (takes_expect (by decide) m).keeps.bind fun _ => ?_
  exact (h.statement m hm).keeps.bind fun _ => keeps_spanned m _ _

theorem ends_exporting {n : Nat} {inner : InnerStatement} (h : BelowStatement n inner)
    {c : Cursor} (hc : c.left ≤ n) (hk : c.current.kind ≠ .eof) :
    Ends (Rule.exporting inner) c fun _ d => d.left < c.left := by
  refine ends_advance_bind hk fun token m hm => (keeps_accept _ m).bind fun isDefault => ?_
  exact (h.statement m (by omega)).keeps.bind fun _ => keeps_spanned m _ _

theorem takes_ruleStatement {n : Nat} {inner : InnerStatement} (h : BelowStatement n inner) :
    Takes n (Rule.statement inner) := by
  have hdecl : Takes n (do let node ← declaration; terminator; return node) :=
    (takes_declaration n).bind fun _ m _ => (keeps_terminator m).bind fun _ => keeps_pure m _
  intro c hc
  unfold Rule.statement
  refine ends_peek ?_
  split
  · exact hdecl c hc
  · exact hdecl c hc
  · exact takes_function h c hc
  · exact takes_function h c hc
  · exact takes_block h c hc
  · exact takes_ifElse h c hc
  · exact takes_whileLoop h c hc
  · exact takes_forLoop h c hc
  · rename_i hk
    exact ends_returning (by rw [hk]; decide)
  · rename_i hk
    exact ends_single _ (by rw [hk]; decide)
  · rename_i hk
    exact ends_single _ (by rw [hk]; decide)
  · exact takes_importing n c hc
  · rename_i hk
    exact ends_exporting h hc (by rw [hk]; decide)
  · exact takes_expressionStatement n c hc

theorem below_innerStatement (budget : List Token) :
    BelowStatement budget.length (innerStatement budget) := by
  induction budget with
  | nil => exact ⟨nofun, nofun⟩
  | cons t budget ih =>
    have hle : ∀ {m}, m < (t :: budget).length → m ≤ budget.length := Nat.le_of_lt_succ
    exact ⟨fun m hm => (takes_ruleStatement ih).less (hle hm),
      fun m hm => (takes_ifElse ih).less (hle hm)⟩

theorem takes_nestedStatement {rule : InnerStatement → Parser Node}
    (h : ∀ {n : Nat} {i : InnerStatement}, BelowStatement n i → Takes n (rule i)) (n : Nat) :
    Takes n (nestedStatement rule) := by
  intro c _
  refine Ends.congr ?_ (h (below_innerStatement c.budget) c (Nat.le_succ c.left))
  rfl

/-- A statement takes a token. -/
theorem takes_statement (n : Nat) : Takes n statement :=
  takes_nestedStatement takes_ruleStatement n

theorem keeps_program (n : Nat) : Keeps n program := by
  refine (keeps_look n _).bind fun first => ?_
  exact Keeps.bind (keeps_manyWhile _ fun c hc _ => takes_statement n c hc) fun _ =>
    keeps_spanned n _ _

end Parser

/-- Parsing never runs out of steps or levels. -/
theorem parse_ne_overrun (tokens : List Token) (e : ParseError) (h : parse tokens = .error e) :
    e.misfit ≠ .overrun := by
  have hp := Parser.keeps_program _ (Cursor.ofTokens tokens) (Nat.le_refl _)
  unfold Parser.Ends at hp
  unfold parse at h
  split at hp
  · rename_i a d hr
    rw [hr] at h
    cases h
  · rename_i e' d hr
    rw [hr] at h
    cases h
    exact hp

end HanScript
