-- What the grammar calls a list the parser takes as one, if it takes the
-- items. A loop is followed step by step, and there are always steps to spare.
import HanScript.Proofs.Parsing.Steps

namespace HanScript.Parser

open Grammar

variable {α β σ : Type}

/-! ## Loops -/

/-- The loop that `p` runs from `c` has come to `s` at `d`, with enough steps left to go on. -/
def Reaches (p : Parser σ) (step : σ → Parser (Option σ)) (c : Cursor) (s : σ) (d : Cursor) : Prop :=
  ∃ budget : List Token, d.left < budget.length ∧
    ∀ {r e}, (stepsWithin budget step s).Gives d r e → p.Gives c r e

theorem reaches_steps {step : σ → Parser (Option σ)} {s : σ} {c : Cursor} :
    Reaches (steps step s) step c s c :=
  ⟨c.budget, Nat.lt_succ_self c.left, fun h => h⟩

theorem Reaches.after {p : Parser α} {f : α → Parser σ} {step : σ → Parser (Option σ)} {a : α} {s : σ}
    {c d e : Cursor} (hp : p.Gives c a d) (h : Reaches (f a) step d s e) :
    Reaches (p >>= f) step c s e := by
  obtain ⟨budget, hb, hrun⟩ := h
  exact ⟨budget, hb, fun hs => bind_gives.mpr ⟨a, d, hp, hrun hs⟩⟩

theorem Reaches.step {p : Parser σ} {step : σ → Parser (Option σ)} {s s' : σ} {c d e : Cursor}
    (h : Reaches p step c s d) (hs : (step s).Gives d (some s') e) (hlt : e.left < d.left) :
    Reaches p step c s' e := by
  obtain ⟨budget, hb, hrun⟩ := h
  cases budget with
  | nil => simp at hb
  | cons t budget =>
    rw [List.length_cons] at hb
    exact ⟨budget, by omega, fun hr => hrun (stepsWithin_cons_gives.mpr (.inr ⟨s', e, hs, hr⟩))⟩

theorem Reaches.stop {p : Parser σ} {step : σ → Parser (Option σ)} {s : σ} {c d e : Cursor}
    (h : Reaches p step c s d) (hs : (step s).Gives d none e) : p.Gives c s e := by
  obtain ⟨budget, hb, hrun⟩ := h
  cases budget with
  | nil => simp at hb
  | cons t budget => exact hrun (stepsWithin_cons_gives.mpr (.inl ⟨hs, rfl⟩))

/-! ## Items -/

/-- Wherever the tokens stand, with no more than `k` tokens from there on, and before one of a
kind that `stop` allows, the parser takes them and gives what `f` takes to `b`. -/
def Finds (p : Parser α) (f : α → β) (k : Nat) (stop : TokenKind → Prop) (w : List Terminal) (b : β) :
    Prop :=
  ∀ ⦃c d⦄, c.left ≤ k → c.Passes w d → stop d.current.kind → ∃ a, p.Gives c a d ∧ f a = b

theorem Finds.mono {p : Parser α} {f : α → β} {k : Nat} {stop stop' : TokenKind → Prop}
    {w : List Terminal} {b : β} (h : Finds p f k stop w b) (hs : ∀ kind, stop' kind → stop kind) :
    Finds p f k stop' w b :=
  fun _ _ hk hp hd => h hk hp (hs _ hd)

/-! ## Lists -/

/-- Where the items of a sequence stand, `manyWhile` takes them all, if there are more before
each of them and none after the last. -/
theorem manyWhile_finds (more : Cursor → Bool) {item : Parser α} {f : α → β} {k : Nat}
    {Item : TokenKind → List Terminal → β → Prop} {next : TokenKind}
    (hi : ∀ ⦃kind w b⦄, Item kind w b → w ≠ [] ∧ Finds item f k (· = kind) w b)
    (hm : ∀ ⦃kind w b c d⦄, Item kind w b → c.Passes w d → d.current.kind = kind → more c = true)
    {w : List Terminal} {bs : List β} (h : Sequence Item next w bs) {c d : Cursor} (hk : c.left ≤ k)
    (hp : c.Passes w d) (hn : d.current.kind = next) (hd : more d = false) :
    ∃ as, (manyWhile (look more) item).Gives c as d ∧ as.map f = bs := by
  -- The loop stands before the items that remain, with those before them gathered in reverse.
  have run : ∀ {acc c'}, Reaches (steps (manyStep (look more) item) []) (manyStep (look more) item)
      c acc c' → c'.left ≤ k → c'.Passes w d →
      ∃ as : List α, Reaches (steps (manyStep (look more) item) []) (manyStep (look more) item)
        c (as.reverse ++ acc) d ∧ as.map f = bs := by
    clear hp
    induction h with
    | nil =>
      intro acc c' hr _ hp
      obtain rfl := Cursor.passes_nil.mp hp
      exact ⟨[], by simpa using hr, rfl⟩
    | @cons w v b bs hw _ ih =>
      intro acc c' hr hk hp
      obtain ⟨e, hpw, hpv⟩ := Cursor.passes_append.mp hp
      have he : e.current.kind = follower v next := by rw [hpv.current, hn]
      obtain ⟨hne, hfind⟩ := hi hw
      obtain ⟨a, ha, rfl⟩ := hfind hk hpw he
      have hlt := hpw.left_lt hne
      have hstep : (manyStep (look more) item acc).Gives c' (some (a :: acc)) e :=
        manyStep_some.mpr ⟨hm hw hpw he, a, ha, rfl⟩
      obtain ⟨as, has, rfl⟩ := ih (hr.step hstep hlt) (by omega) hpv
      exact ⟨a :: as, by simpa using has, rfl⟩
  obtain ⟨as, has, rfl⟩ := run reaches_steps hk hp
  have hend := has.stop (manyStep_none.mpr ⟨hd, rfl⟩)
  exact ⟨as, manyWhile_gives.mpr ⟨_, hend, by simp⟩, rfl⟩

section Commas

variable {Item : List Terminal → Node → Prop} {item : Parser Node} {k : Nat} {stop : TokenKind → Prop}

/-- Items with commas between them are taken up to a token that is no comma. -/
theorem separated_finds (hi : ∀ ⦃w n⦄, Item w n → Finds item Node.bare k stop w n) (hc : stop .comma)
    {w : List Terminal} {ns : List Node} (h : Separated Item w ns) :
    Finds (separated item) (List.map Node.bare) k (fun kind => stop kind ∧ kind ≠ .comma) w ns := by
  intro c d hk hp hd
  obtain ⟨u, v, m, ms, rfl, rfl, hu, hv⟩ := (separated_iff_sequence d.current.kind).mp h
  obtain ⟨e, hpu, hpv⟩ := Cursor.passes_append.mp hp
  have hstop : ∀ {w ns}, Sequence (AfterComma Item) d.current.kind w ns →
      stop (follower w d.current.kind) := by
    intro w ns h
    rcases follower_of_afterComma h with h | h
    · rw [h]
      exact hd.1
    · rw [h]
      exact hc
  obtain ⟨q, hq, rfl⟩ := hi hu hk hpu (by rw [hpv.current]; exact hstop hv)
  replace hv : Sequence (fun kind w n => AfterComma Item kind w n ∧ stop kind) _ v ms :=
    hv.mono fun h hrest => ⟨h, hstop hrest⟩
  have comma : ∀ ⦃kind w n⦄, AfterComma Item kind w n ∧ stop kind → w ≠ [] ∧
      Finds (do let _ ← advance
                item : Parser Node) Node.bare k (· = kind) w n := by
    rintro kind _ n ⟨⟨x, w, rfl, hw⟩, hs⟩
    refine ⟨by simp, ?_⟩
    rintro c d hk hp rfl
    obtain ⟨e, hpc, hpw⟩ := Cursor.passes_head.mp hp
    obtain ⟨q, hq, rfl⟩ := hi hw (Nat.le_trans hpc.left_le hk) hpw hs
    exact ⟨q, bind_gives.mpr ⟨_, e, advance_gives.mpr ⟨rfl, hpc.2.2.symm⟩, hq⟩, rfl⟩
  obtain ⟨qs, hqs, rfl⟩ := manyWhile_finds (fun c => c.current.kind = .comma) comma
    (by
      rintro kind _ n c d ⟨⟨x, w, rfl, -⟩, -⟩ hp -
      simpa using hp.kind) hv (Nat.le_trans hpu.left_le hk) hpv rfl (by simpa using hd.2)
  refine ⟨q :: qs, ?_, rfl⟩
  simp only [separated, bind_gives, pure_gives]
  exact ⟨q, e, hq, qs, d, hqs, rfl, rfl⟩

theorem separatedUntil_finds {close : TokenKind}
    (hi : ∀ ⦃w n⦄, Item w n → Finds item Node.bare k stop w n) (hc : stop .comma)
    (hopen : ∀ ⦃w n⦄, Item w n → Avoids [close] w) (hclose : close ≠ .comma)
    (hs : stop close) {w : List Terminal} {ns : List Node} (h : SeparatedOrNone Item w ns) :
    Finds (separatedUntil close item) (List.map Node.bare) k (· = close) w ns := by
  intro c d hk hp hd
  simp only [separatedUntil, bind_gives, isAt_gives]
  cases h with
  | none =>
    obtain rfl := Cursor.passes_nil.mp hp
    exact ⟨[], ⟨true, d, ⟨decide_eq_true hd, rfl⟩, pure_gives.mpr ⟨rfl, rfl⟩⟩, rfl⟩
  | some h =>
    obtain ⟨qs, hq, rfl⟩ := separated_finds hi hc h hk hp (by rw [hd]; exact ⟨hs, hclose⟩)
    refine ⟨qs, ⟨false, c, ⟨decide_eq_false ?_, rfl⟩, hq⟩, rfl⟩
    obtain ⟨u, v, m, ms, rfl, -, hu, -⟩ := (separated_iff_sequence close).mp h
    simpa using hp.avoids ((hopen hu).append v)

/-- A list is taken up to the token that closes it, whether or not a comma stands before that. -/
theorem listUntil_finds {close : TokenKind}
    (hi : ∀ ⦃w n⦄, Item w n → Finds item Node.bare k stop w n) (hc : stop .comma)
    (hopen : ∀ ⦃w n⦄, Item w n → Avoids [close] w) (hclose : close ≠ .comma)
    (hs : stop close) {w : List Terminal} {ns : List Node} (h : Listed Item w ns) :
    Finds (listUntil close item) (List.map Node.bare) k (· = close) w ns := by
  intro c d hk hp hd
  have run : ∀ {acc c'}, Reaches (steps (listStep close item) ([], true)) (listStep close item)
      c (acc, true) c' → c'.left ≤ k → c'.Passes w d →
      ∃ (qs : List Node) (more : Bool), Reaches (steps (listStep close item) ([], true)) (listStep close item)
        c (qs.reverse ++ acc, more) d ∧ qs.map Node.bare = ns := by
    clear hp
    induction h with
    | nil =>
      intro acc c' hr _ hp
      obtain rfl := Cursor.passes_nil.mp hp
      exact ⟨[], true, by simpa using hr, rfl⟩
    | last hw =>
      intro acc c' hr hk hp
      obtain ⟨q, hq, rfl⟩ := hi hw hk hp (by rw [hd]; exact hs)
      have hcomma : (accept .comma).Gives d false d := accept_of_ne (by rw [hd]; exact hclose)
      have hfirst : c'.current.kind ≠ close := by simpa using hp.avoids (hopen hw)
      have hstep : (listStep close item (acc, true)).Gives c' (some (q :: acc, false)) d :=
        listStep_some.mpr ⟨rfl, hfirst, q, d, false, hq, hcomma, rfl⟩
      exact ⟨[q], false, by simpa using hr.step hstep (hp.left_lt (hopen hw).ne_nil), rfl⟩
    | more hw _ ih =>
      intro acc c' hr hk hp
      obtain ⟨e, hpw, hpv⟩ := Cursor.passes_append.mp hp
      obtain ⟨e', hpc, hpv⟩ := Cursor.passes_head.mp hpv
      obtain ⟨q, hq, rfl⟩ := hi hw hk hpw (by rw [hpc.kind]; exact hc)
      have hfirst : c'.current.kind ≠ close := by simpa using hpw.avoids (hopen hw)
      have hstep : (listStep close item (acc, true)).Gives c' (some (q :: acc, true)) e' :=
        listStep_some.mpr ⟨rfl, hfirst, q, e, true, hq, accept_of_passes hpc, rfl⟩
      have hlt := hpw.left_lt (hopen hw).ne_nil
      have hle := hpc.left_le
      obtain ⟨qs, more, hqs, rfl⟩ := ih (hr.step hstep (by omega)) (by omega) hpv
      exact ⟨q :: qs, more, by simpa using hqs, rfl⟩
  obtain ⟨qs, more, hr, rfl⟩ := run reaches_steps hk hp
  have hend := hr.stop (listStep_none.mpr ⟨fun _ => hd, rfl⟩)
  exact ⟨qs, listUntil_gives.mpr ⟨_, hend, by simp⟩, rfl⟩

section Brackets

variable (hi : ∀ ⦃w n⦄, Item w n → Finds item Node.bare k stop w n) (hc : stop .comma)
  (hb : stop .rightBracket) (hopen : ∀ ⦃w n⦄, Item w n → Avoids [.comma, .rightBracket] w)

include hopen

theorem avoids_of_slot {kind : TokenKind} {w : List Terminal} {n : Node} (h : Slot Item kind w n) :
    Avoids [.rightBracket] w := by
  have hitem : ∀ {v}, Item v n → Avoids [.rightBracket] v := by
    intro v hv
    obtain ⟨t, u, rfl, ht⟩ := hopen hv
    exact ⟨t, u, rfl, fun hm => ht (List.mem_cons_of_mem _ hm)⟩
  rcases h with ⟨x, rfl, -⟩ | ⟨v, hv, ⟨x, rfl⟩ | ⟨rfl, -⟩⟩
  · exact ⟨_, [], rfl, by simp⟩
  · exact (hitem hv).append _
  · exact hitem hv

include hi hc hb

theorem slot_finds {kind : TokenKind} {w : List Terminal} {n : Node} (h : Slot Item kind w n) :
    Finds (Rule.slot item) Node.bare k (· = kind) w n := by
  intro c d hk hp hd
  simp only [Rule.slot, bind_gives]
  rcases h with ⟨x, rfl, rfl⟩ | ⟨v, hv, hw⟩
  · exact ⟨.absent, ⟨true, d, accept_of_passes hp, pure_gives.mpr ⟨rfl, rfl⟩⟩, rfl⟩
  · have hcomma : (accept .comma).Gives c false c := by
      refine accept_of_ne fun he => ?_
      have hfirst : c.current.kind ∉ [.comma, .rightBracket] := by
        rcases hw with ⟨x, rfl⟩ | ⟨rfl, -⟩
        · exact hp.avoids ((hopen hv).append _)
        · exact hp.avoids (hopen hv)
      simp [he] at hfirst
    rcases hw with ⟨x, rfl⟩ | ⟨rfl, rfl⟩
    · obtain ⟨e, hpv, hpc⟩ := Cursor.passes_append.mp hp
      obtain ⟨q, hq, rfl⟩ := hi hv hk hpv (by rw [hpc.kind]; exact hc)
      refine ⟨q, ⟨false, c, hcomma, ?_⟩, rfl⟩
      simp only [Bool.false_eq_true, if_false, bind_gives, isAt_gives]
      refine ⟨q, e, hq, false, e, ⟨by simp [hpc.kind], rfl⟩, ?_⟩
      simp only [Bool.false_eq_true, if_false, bind_gives, pure_gives]
      exact ⟨_, d, expect_of_passes hpc, trivial, rfl⟩
    · obtain ⟨q, hq, rfl⟩ := hi hv hk hp (by rw [hd]; exact hb)
      refine ⟨q, ⟨false, c, hcomma, ?_⟩, rfl⟩
      simp only [Bool.false_eq_true, if_false, bind_gives, isAt_gives]
      exact ⟨q, d, hq, true, d, ⟨decide_eq_true hd, rfl⟩, pure_gives.mpr ⟨rfl, rfl⟩⟩

/-- Items in brackets are taken, with a hole for every comma without an item before it. -/
theorem bracketed_finds {w : List Terminal} {ns : List Node} (h : Slotted Item w ns) {x y : String} :
    Finds (Rule.bracketed item) (fun r => r.2.map Node.bare) (k + 1) (fun _ => True)
      (⟨.leftBracket, x⟩ :: w ++ [⟨.rightBracket, y⟩]) ns := by
  intro c d hk hp _
  obtain ⟨c₁, hl, hp⟩ := Cursor.passes_head.mp hp
  obtain ⟨c₂, hpw, hr⟩ := Cursor.passes_append.mp hp
  have hlt := hl.left_lt (by simp)
  obtain ⟨qs, hqs, rfl⟩ := manyWhile_finds (fun c => c.current.kind ≠ .rightBracket)
    (fun _ _ _ hw => ⟨(avoids_of_slot hopen hw).ne_nil, slot_finds hi hc hb hopen hw⟩)
    (fun _ _ _ _ _ hw hp _ => by simpa using hp.avoids (avoids_of_slot hopen hw))
    (sequence_of_slotted h) (by omega) hpw hr.kind (by simp [hr.kind])
  refine ⟨(d.spanFrom c.current.span, qs), ?_, rfl⟩
  simp only [Rule.bracketed, bind_gives, spanFrom_gives, pure_gives]
  exact ⟨_, c₁, expect_of_passes hl, qs, c₂, hqs, _, d, expect_of_passes hr, _, d, ⟨rfl, rfl⟩, rfl, rfl⟩

end Brackets

end Commas

end HanScript.Parser
