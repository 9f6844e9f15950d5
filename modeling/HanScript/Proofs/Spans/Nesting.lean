-- The spans of a parsed program: each goes from one token through a later one,
-- those of the parts of a node lie in that of the node, and they do not overlap.
import HanScript.Compile
import HanScript.Proofs.Lexing.Tiling
import HanScript.Proofs.Spans.Statement

namespace HanScript

/-! ## Tokens in order -/

/-- The tokens stand one after the other in a text of the given length. -/
structure InOrder (length : Int) (tokens : List Token) : Prop where
  nonneg : ∀ t ∈ tokens, 0 ≤ t.span.start
  start_le_stop : ∀ t ∈ tokens, t.span.start ≤ t.span.stop
  start_lt_stop : ∀ t ∈ tokens, t.kind ≠ .eof → t.span.start < t.span.stop
  stop_le_start : tokens.Pairwise fun t u => t.span.stop ≤ u.span.start
  stop_le_length : ∀ t ∈ tokens, t.span.stop ≤ length

theorem inOrder_tokenize (source : String) : InOrder source.length (tokenize source) := by
  have htiles := tiles_tokenize source
  obtain ⟨init, last, hts, hinit, hlast, hstart, hstop⟩ := htiles.end_token
  have hlength : last.span.stop = source.length := by
    simpa [String.length_toList] using hstop
  have hle : ∀ t ∈ tokenize source, t.span.start ≤ t.span.stop := by
    intro t ht
    by_cases hk : t.kind = .eof
    · rw [hts, List.mem_append, List.mem_singleton] at ht
      rcases ht with ht | rfl
      · exact absurd hk (hinit t ht)
      · omega
    · exact Int.le_of_lt (htiles.start_lt_stop t ht hk)
  refine ⟨htiles.le_start, hle, htiles.start_lt_stop, htiles.stop_le_starts, fun t ht => ?_⟩
  have hpairs := htiles.stop_le_starts
  rw [hts] at ht hpairs
  rcases List.mem_append.mp ht with ht | ht
  · have hbefore := (List.pairwise_append.mp hpairs).2.2 t ht last (List.mem_singleton.mpr rfl)
    omega
  · rw [List.mem_singleton.mp ht]
    omega

namespace InOrder

variable {length : Int} {tokens : List Token} {i j : Nat} {t u : Token}

/-- A token ends before a later one begins. -/
theorem apart (h : InOrder length tokens) (ht : tokens[i]? = some t) (hu : tokens[j]? = some u)
    (hij : i < j) : t.span.stop ≤ u.span.start := by
  obtain ⟨hi, rfl⟩ := List.getElem?_eq_some_iff.mp ht
  obtain ⟨hj, rfl⟩ := List.getElem?_eq_some_iff.mp hu
  exact List.pairwise_iff_getElem.mp h.stop_le_start i j hi hj hij

theorem start_mono (h : InOrder length tokens) (ht : tokens[i]? = some t) (hu : tokens[j]? = some u)
    (hij : i ≤ j) : t.span.start ≤ u.span.start := by
  rcases Nat.eq_or_lt_of_le hij with rfl | hlt
  · obtain rfl : t = u := Option.some.inj (ht.symm.trans hu)
    exact Int.le_refl _
  · have hapart := h.apart ht hu hlt
    have hle := h.start_le_stop t (List.mem_of_getElem? ht)
    omega

theorem stop_mono (h : InOrder length tokens) (ht : tokens[i]? = some t) (hu : tokens[j]? = some u)
    (hij : i ≤ j) : t.span.stop ≤ u.span.stop := by
  rcases Nat.eq_or_lt_of_le hij with rfl | hlt
  · obtain rfl : t = u := Option.some.inj (ht.symm.trans hu)
    exact Int.le_refl _
  · have hapart := h.apart ht hu hlt
    have hle := h.start_le_stop u (List.mem_of_getElem? hu)
    omega

end InOrder

/-! ## Spans between cursors -/

namespace Cursor

variable {length : Int} {a b c d : Cursor} {s : Span}

/-- At the start the token before the current one is the current one, and its place is the same. -/
theorem getElem?_previous (c : Cursor) : c.tokens[c.position - 1]? = some c.previous := by
  cases hb : c.behind with
  | nil =>
    have hposition : c.position = 0 := by simp [position, hb]
    have hprevious : c.previous = c.current := by simp [previous, hb]
    have hcurrent := c.getElem?_position
    rw [hposition] at hcurrent ⊢
    rw [hprevious]
    exact hcurrent
  | cons t ts => simp [tokens, position, previous, hb]

/-- What has been taken is no end token. -/
theorem Precedes.previous_ne_eof (h : c.Precedes d) (hlt : c.position < d.position) :
    d.previous.kind ≠ .eof := by
  obtain ⟨w, hw⟩ := h
  obtain ⟨-, ts, hb, -, hne⟩ := hw.tokens
  obtain ⟨init, t, rfl⟩ : ∃ init t, ts = init ++ [t] := by
    refine List.eq_nil_or_concat' ts |>.resolve_left fun hnil => ?_
    rw [hnil, List.append_nil, List.reverse_inj] at hb
    unfold position at hlt
    rw [hb] at hlt
    omega
  have hbehind : d.behind = t :: (init.reverse ++ c.behind) := by
    have hreverse := congrArg List.reverse hb
    simpa using hreverse
  have hprevious : d.previous = t := by
    unfold previous
    rw [hbehind, List.headD_cons]
  rw [hprevious]
  exact hne t (by simp)

theorem previous_stop_le (ho : InOrder length c.tokens) (h : c.Precedes d) :
    c.previous.span.stop ≤ d.previous.span.stop := by
  have hd := d.getElem?_previous
  rw [h.tokens] at hd
  have hle := h.position_le
  exact ho.stop_mono c.getElem?_previous hd (by omega)

/-- Drawn on up to a cursor, a span ends no later than the token before that cursor. -/
theorem Spans.stop_le (ho : InOrder length a.tokens) (h : a.Spans s b) (hb : b.tokens = a.tokens)
    (hbd : b.Precedes d) (hlt : a.position < d.position) : s.stop ≤ d.previous.span.stop := by
  induction h with
  | @token b =>
    have hd := d.getElem?_previous
    rw [hbd.tokens, hb] at hd
    have hfirst := ho.stop_mono a.getElem?_position hd (by omega)
    have hlast := previous_stop_le (hb ▸ ho) hbd
    exact Int.max_le.mpr ⟨hfirst, hlast⟩
  | @onward s b e _ hbe ih =>
    have hbefore := hbe.tokens.symm.trans hb
    exact Int.max_le.mpr ⟨ih hbefore (hbe.trans hbd), previous_stop_le (hb ▸ ho) hbd⟩

/-- A span keeps the place at which it begins. -/
theorem Spans.begins (h : a.Spans s b) : s = { a.current.span with stop := s.stop } := by
  induction h with
  | token => rfl
  | onward _ _ ih =>
    rw [ih]
    rfl

theorem spanFrom_eq (h : s.stop ≤ d.previous.span.stop) :
    d.spanFrom s = { s with stop := d.previous.span.stop } := by
  unfold spanFrom
  rw [Int.max_eq_right h]

/-- The span goes from the one token through the other. -/
theorem Spans.eq (ho : InOrder length a.tokens) (h : a.Spans s b) (hab : a.Precedes b)
    (hlt : a.position < b.position) : s = { a.current.span with stop := b.previous.span.stop } := by
  have hstop : s.stop = b.previous.span.stop := by
    have hle := h.stop_le ho hab.tokens (.refl b) hlt
    cases h with
    | token => exact Int.le_antisymm hle (Int.le_max_right _ _)
    | onward => exact Int.le_antisymm hle (Int.le_max_right _ _)
  rw [h.begins, hstop]

end Cursor

/-! ## The parts of a node -/

/-- Every node in a row is spread between the ends of the row. -/
theorem Row.spread_of_mem {c d : Cursor} {ns : List Node} (h : Row c ns d) {m : Node} (hm : m ∈ ns)
    (hk : m.isAbsent = false) : ∃ a b, c.Precedes a ∧ Spread a m b ∧ b.Precedes d := by
  induction h using Row.induction with
  | done => cases hm
  | skip hskip _ ih =>
    obtain ⟨a, b, hbefore, hspread, hafter⟩ := ih hm
    exact ⟨a, b, hskip.trans hbefore, hspread, hafter⟩
  | hole _ ih =>
    rcases List.mem_cons.mp hm with rfl | hm
    · cases hk
    · exact ih hm
  | node hn hrow ih =>
    rcases List.mem_cons.mp hm with rfl | hm
    · exact ⟨_, _, .refl _, hn, hrow.precedes⟩
    · obtain ⟨a, b, hbefore, hspread, hafter⟩ := ih hm
      exact ⟨a, b, hn.precedes.trans hbefore, hspread, hafter⟩

section Spreads

variable {length : Int} {a b c d : Cursor} {n : Node} {ns : List Node}

theorem Spread.span_eq (ho : InOrder length a.tokens) (h : Spread a n b) :
    n.span = { a.current.span with stop := b.previous.span.stop } := by
  have hprecedes := h.precedes
  cases h with
  | mk _ hlt _ hspan => exact hspan.eq ho hprecedes hlt

/-- What lies between two cursors ends with the token before the second one, or before that. -/
theorem Spread.within (ho : InOrder length c.tokens) (hca : c.Precedes a) (h : Spread a n b)
    (hbd : b.Precedes d) :
    c.current.span.start ≤ n.span.start ∧ n.span.start < n.span.stop ∧
      n.span.stop ≤ d.previous.span.stop := by
  have hab := h.precedes
  have hafter := Cursor.previous_stop_le (by rw [hab.tokens, hca.tokens]; exact ho) hbd
  rw [h.span_eq (by rw [hca.tokens]; exact ho)]
  obtain ⟨-, hlt, -, -, -, -⟩ := h
  have ha := a.getElem?_position
  have hb := b.getElem?_previous
  rw [hca.tokens] at ha
  rw [hab.tokens, hca.tokens] at hb
  have hbefore := ho.start_mono c.getElem?_position ha hca.position_le
  have hinside := ho.start_mono ha hb (by omega)
  have hlast := ho.start_lt_stop b.previous (List.mem_of_getElem? hb) (hab.previous_ne_eof hlt)
  refine ⟨hbefore, ?_, hafter⟩
  exact Int.lt_of_le_of_lt hinside hlast

theorem Spread.stop_le_start {m : Node} {a' b' : Cursor} (ho : InOrder length a.tokens)
    (h : Spread a n b) (hba : b.Precedes a') (h' : Spread a' m b') :
    n.span.stop ≤ m.span.start := by
  have hab := h.precedes
  have htokens : a'.tokens = a.tokens := hba.tokens.trans hab.tokens
  rw [h.span_eq ho, h'.span_eq (by rw [htokens]; exact ho)]
  obtain ⟨-, hlt, -, -, -, -⟩ := h
  have hb := b.getElem?_previous
  have ha' := a'.getElem?_position
  rw [hab.tokens] at hb
  rw [htokens] at ha'
  have hle := hba.position_le
  exact ho.apart hb ha' (by omega)

end Spreads

/-- The nodes in a row do not overlap, and each ends before the next one begins. -/
theorem Row.apart {length : Int} {c d : Cursor} {ns : List Node} (ho : InOrder length c.tokens)
    (h : Row c ns d) :
    (ns.filter (!·.isAbsent)).Pairwise fun l m => l.span.stop ≤ m.span.start := by
  induction h using Row.induction with
  | done => exact .nil
  | skip hskip _ ih => exact ih (hskip.tokens ▸ ho)
  | hole _ ih =>
    rw [List.filter_cons_of_neg (by simp [Node.isAbsent])]
    exact ih ho
  | node hn hrow ih =>
    have hrest := ih (hn.precedes.tokens ▸ ho)
    rw [List.filter_cons]
    split
    · refine List.pairwise_cons.mpr ⟨fun m hm => ?_, hrest⟩
      obtain ⟨hm, hk⟩ := List.mem_filter.mp hm
      obtain ⟨a, b, hbefore, hspread, -⟩ := hrow.spread_of_mem hm (by simpa using hk)
      exact hn.stop_le_start ho hbefore hspread
    · exact hrest

/-! ## Programs -/

/-- Where a node stands in a source text. -/
structure Node.Placed (source : String) (n : Node) : Prop where
  bounds : 0 ≤ n.span.start ∧ n.span.start ≤ n.span.stop ∧ n.span.stop ≤ source.length
  /-- It begins with one token, and ends with that or a later one. -/
  tokens : ∃ (i j : Nat) (t u : Token), i ≤ j ∧ (tokenize source)[i]? = some t ∧
    (tokenize source)[j]? = some u ∧ n.span = { t.span with stop := u.span.stop }
  within : ∀ part ∈ n.parts, part.2.isAbsent = false →
    n.span.start ≤ part.2.span.start ∧ part.2.span.start < part.2.span.stop ∧
      part.2.span.stop ≤ n.span.stop
  apart : (n.row.filter (!·.isAbsent)).Pairwise fun l m => l.span.stop ≤ m.span.start
  names : n.SharesName

section Sources

variable {source : String} {a b c d : Cursor} {n : Node} {ns : List Node}

theorem placed_of_row (ha : a.tokens = tokenize source) (hrow : Row a n.row b)
    (hle : a.position ≤ b.position - 1)
    (hspan : n.span = { a.current.span with stop := b.previous.span.stop }) (hname : n.SharesName) :
    n.Placed source := by
  have ho := inOrder_tokenize source
  have hfirst := a.getElem?_position
  have hlast := b.getElem?_previous
  rw [ha] at hfirst
  rw [hrow.precedes.tokens, ha] at hlast
  have hstart := ho.nonneg _ (List.mem_of_getElem? hfirst)
  have hstop := ho.stop_le_length _ (List.mem_of_getElem? hlast)
  have hbetween := ho.start_mono hfirst hlast hle
  have hsome := ho.start_le_stop _ (List.mem_of_getElem? hlast)
  refine ⟨?_, ⟨a.position, b.position - 1, _, _, hle, hfirst, hlast, hspan⟩, fun part hpart hk => ?_,
    hrow.apart (ha ▸ ho), hname⟩
  · rw [hspan]
    exact ⟨hstart, Int.le_trans hbetween hsome, hstop⟩
  · obtain ⟨a', b', hbefore, hspread, hafter⟩ :=
      hrow.spread_of_mem (Node.mem_row_of_part hname hpart) hk
    rw [hspan]
    exact hspread.within (ha ▸ ho) hbefore hafter

theorem Spread.placed (ha : a.tokens = tokenize source) (h : Spread a n b) : n.Placed source := by
  have ho := inOrder_tokenize source
  have hspan := h.span_eq (ha ▸ ho)
  obtain ⟨hrow, hlt, -, -, -, hname⟩ := h
  exact placed_of_row ha hrow (by omega) hspan hname

end Sources

theorem tokens_ofTokens_tokenize (source : String) :
    (Cursor.ofTokens (tokenize source)).tokens = tokenize source := by
  obtain ⟨init, last, hts, -, hlast, -, -⟩ := (tiles_tokenize source).end_token
  rw [Cursor.tokens_ofTokens]
  unfold withEnd
  rw [hts, List.getLast?_concat]
  exact if_pos hlast

/-- The spans of a parsed program are nested and in order. Every node of it has a span in the source,
which begins with one token and ends with that or a later one. The spans of its parts lie in it, and
those of the parts in the order of the source do not overlap. Only the two names of an import
specifier are the same node. -/
theorem spans_nest_in_order {source : String} {p : Node} (h : parseSource source = .ok p) :
    Node.Everywhere (fun _ n => n.isAbsent ∨ n.Placed source) .program p := by
  have ho := inOrder_tokenize source
  have htokens := tokens_ofTokens_tokenize source
  obtain ⟨d, body, rfl, hrow⟩ := row_of_parse h
  have hstart : (Cursor.ofTokens (tokenize source)).position = 0 := by
    unfold Cursor.position
    rw [Cursor.behind_ofTokens, List.length_nil]
  refine .mk (.inr (placed_of_row htokens hrow (by omega) ?_ trivial)) fun part hpart => ?_
  · have hlast := d.getElem?_previous
    rw [hrow.precedes.tokens] at hlast
    have hfirst := (Cursor.ofTokens (tokenize source)).getElem?_position
    exact Cursor.spanFrom_eq (InOrder.stop_mono (htokens ▸ ho) hfirst hlast (by omega))
  · have hmem : part.2 ∈ body := Node.mem_row_of_part (n := .program _ body) trivial hpart
    exact hrow.everywhere (fun hk => .inl hk) (fun ha hn => .inr (hn.placed ha)) htokens part.2 hmem _

/-- A loop with a hole, parentheses and markup in it. -/
def busyLoop : String := "对于 (令 [, 甲] = (乙); ; ) <p.q r=\x7b甲(2)\x7d>好</p>"

theorem busyLoop_nests :
    ∃ p, parseSource busyLoop = .ok p ∧
      Node.Everywhere (fun _ n => n.isAbsent ∨ n.Placed busyLoop) .program p := by
  have hok : (parseSource busyLoop).isOk := by decide +kernel
  cases hp : parseSource busyLoop with
  | ok p => exact ⟨p, rfl, spans_nest_in_order hp⟩
  | error e => simp [hp, Except.isOk, Except.toBool] at hok

end HanScript
