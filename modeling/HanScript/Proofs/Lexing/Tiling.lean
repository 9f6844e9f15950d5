-- The tokens of a source text cover it: each begins where the one before it
-- ends or later, and there is nothing between the two but blanks and comments.
import HanScript.Proofs.Lexing.Lexical
import Mathlib.Data.List.Chain

namespace HanScript

open Lexeme Text

/-! ## What is passed over -/

/-- The text is a blank or a whole comment, before the rest. A line comment goes on to the end of
the line. A block comment goes on to the first end mark after its opening, or to the end of all. -/
inductive Skipped : List Char → List Char → Prop where
  | blank {c rest} : isBlank c → Skipped [c] rest
  | line {body rest} : '\n' ∉ body → (∀ c ∈ rest.head?, c = '\n') →
    Skipped ('/' :: '/' :: body) rest
  | block {body rest} : ¬ ['*', '/'] <:+: body ++ ['*'] →
    Skipped ('/' :: '*' :: body ++ ['*', '/']) rest
  | openBlock {body} : ¬ ['*', '/'] <:+: body → Skipped ('/' :: '*' :: body) []

/-- The text is made of blanks and comments, before the rest. -/
inductive Gap : List Char → List Char → Prop where
  | nil {rest} : Gap [] rest
  | cons {piece gap rest} : Skipped piece (gap ++ rest) → Gap gap rest → Gap (piece ++ gap) rest

/-- A block comment ends with the first end mark, if there is one. -/
theorem blockRest_cases (cs : List Char) :
    (∃ body rest, cs = body ++ ['*', '/'] ++ rest ∧ ¬ ['*', '/'] <:+: body ++ ['*'] ∧
      blockRest cs = body.length + 2) ∨
    (¬ ['*', '/'] <:+: cs ∧ blockRest cs = cs.length) := by
  fun_induction blockRest cs with
  | case1 => exact .inr ⟨by simp, rfl⟩
  | case2 rest => exact .inl ⟨[], rest, rfl, fun h => by simpa using h.length_le, rfl⟩
  | case3 c cs hc ih =>
    rcases ih with ⟨body, rest, rfl, hbody, hlength⟩ | ⟨hnone, hlength⟩
    · refine .inl ⟨c :: body, rest, rfl, ?_, by rw [hlength]; rfl⟩
      rw [List.cons_append, List.infix_cons_iff, not_or]
      refine ⟨?_, hbody⟩
      intro hfirst
      obtain ⟨hstar, hslash⟩ := List.cons_prefix_cons.mp hfirst
      cases body with
      | nil => simp at hslash
      | cons d body =>
        obtain ⟨rfl, -⟩ := List.cons_prefix_cons.mp hslash
        exact hc _ hstar.symm rfl
    · refine .inr ⟨?_, by rw [hlength]; rfl⟩
      rw [List.infix_cons_iff, not_or]
      refine ⟨?_, hnone⟩
      intro hfirst
      obtain ⟨hstar, hslash⟩ := List.cons_prefix_cons.mp hfirst
      cases cs with
      | nil => simp at hslash
      | cons d cs =>
        obtain ⟨rfl, -⟩ := List.cons_prefix_cons.mp hslash
        exact hc _ hstar.symm rfl

theorem skipped_line (cs : List Char) :
    Skipped ('/' :: '/' :: cs.takeWhile (· != '\n')) (cs.dropWhile (· != '\n')) := by
  refine .line ?_ ?_
  · intro hmem
    simpa using List.all_eq_true.mp (List.all_takeWhile (p := (· != '\n'))) _ hmem
  · intro c hc
    have hhead := List.head?_dropWhile_not (· != '\n') cs
    rw [Option.mem_def.mp hc] at hhead
    simpa using hhead

/-- What the scanner takes for a gap is one. -/
theorem gap?_skipped {cs : List Char} {n : Nat} (h : gap? cs = some n) :
    Skipped (cs.take n) (cs.drop n) := by
  unfold gap? at h
  split at h
  · cases h
  · rename_i cs
    cases h
    have hsplit : '/' :: '/' :: cs =
        ('/' :: '/' :: cs.takeWhile (· != '\n')) ++ cs.dropWhile (· != '\n') := by simp
    rw [hsplit, List.take_left' (by simp; omega), List.drop_left' (by simp; omega)]
    exact skipped_line cs
  · rename_i cs
    cases h
    rcases blockRest_cases cs with ⟨body, rest, rfl, hbody, hlength⟩ | ⟨hnone, hlength⟩
    · have hsplit : '/' :: '*' :: (body ++ ['*', '/'] ++ rest) =
          ('/' :: '*' :: body ++ ['*', '/']) ++ rest := by simp
      rw [hlength, hsplit, List.take_left' (by simp; omega), List.drop_left' (by simp; omega)]
      exact .block hbody
    · rw [hlength, List.take_of_length_le (by simp; omega), List.drop_of_length_le (by simp; omega)]
      exact .openBlock hnone
  · split at h
    · cases h
      exact .blank ‹_›
    · cases h

theorem blockRest_closed {body : List Char} (h : ¬ ['*', '/'] <:+: body ++ ['*'])
    (rest : List Char) : blockRest (body ++ ['*', '/'] ++ rest) = body.length + 2 := by
  induction body with
  | nil => rfl
  | cons c body ih =>
    rw [List.cons_append, List.infix_cons_iff, not_or] at h
    simp only [List.cons_append, List.length_cons]
    rw [blockRest, ih h.2]
    -- The first character does not begin an end mark, since what follows it is no slash.
    rintro r rfl hr
    refine h.1 (List.cons_prefix_cons.mpr ⟨rfl, ?_⟩)
    cases body with
    | nil => simp at hr
    | cons d body =>
      obtain rfl : d = '/' := by simpa using congrArg List.head? hr
      simp

/-- Blanks and comments are taken for gaps. -/
theorem gap?_of_skipped {piece rest : List Char} (h : Skipped piece rest) :
    gap? (piece ++ rest) = some piece.length := by
  cases h with
  | blank hb => exact gap?_blank hb rest
  | @line body _ hbody hrest =>
    have hnone : rest.takeWhile (· != '\n') = [] :=
      takeWhile_append_of_head (fun c hc => by simp [hrest c hc]) []
    have hall : ∀ c ∈ body, (c != '\n') = true := by
      intro c hc
      rw [bne_iff_ne]
      exact fun h => hbody (h ▸ hc)
    simp only [List.cons_append, gap?, List.takeWhile_append_of_pos hall, hnone, List.append_nil,
      List.length_cons]
    exact congrArg some (Nat.add_comm 2 _)
  | @block body _ hbody =>
    have hrest := blockRest_closed hbody rest
    simp only [List.cons_append, gap?, hrest, List.length_cons, List.length_append]
    exact congrArg some (Nat.add_comm 2 _)
  | @openBlock body hbody =>
    have hrest : blockRest body = body.length := by
      rcases blockRest_cases body with ⟨front, rest, rfl, -, -⟩ | ⟨-, hlength⟩
      · exact absurd ⟨front, rest, rfl⟩ hbody
      · exact hlength
    simp only [List.append_nil, gap?, hrest, List.length_cons]
    exact congrArg some (Nat.add_comm 2 _)

/-! ## Tokens and gaps in turn -/

/-- From the given offset on, the text is a gap, a token, a gap, a token, and so on up to the end
token. -/
inductive Tiles : Nat → List Char → List Token → Prop where
  | last {i gap} {t : Token} : Gap gap [] → t.kind = .eof → t.span.start = (i + gap.length : Nat) →
    t.span.stop = (i + gap.length : Nat) → Tiles i gap [t]
  | cons {i gap piece rest ts} {t : Token} : Gap gap (piece ++ rest) → piece ≠ [] → t.kind ≠ .eof →
    t.span.start = (i + gap.length : Nat) → t.span.stop = (i + gap.length + piece.length : Nat) →
    Tiles (i + gap.length + piece.length) rest ts → Tiles i (gap ++ piece ++ rest) (t :: ts)

theorem Tiles.skip {i : Nat} {piece rest : List Char} {ts : List Token}
    (h : Tiles (i + piece.length) rest ts) (hp : Skipped piece rest) : Tiles i (piece ++ rest) ts := by
  cases h with
  | last hgap hkind hstart hstop =>
    refine .last (.cons (by simpa using hp) hgap) hkind ?_ ?_
    · rw [hstart, List.length_append, Nat.add_assoc]
    · rw [hstop, List.length_append, Nat.add_assoc]
  | @cons _ gap text rest ts t hgap hne hkind hstart hstop hrest =>
    have hsum : i + (piece ++ gap).length = i + piece.length + gap.length := by
      rw [List.length_append, Nat.add_assoc]
    rw [← List.append_assoc, ← List.append_assoc]
    refine .cons (.cons (by simpa using hp) hgap) hne hkind ?_ ?_ ?_
    · rw [hsum, hstart]
    · rw [hsum, hstop]
    · rw [hsum]
      exact hrest

namespace Scanner

theorem offset_after (p : Place) (cs : List Char) : (p.after cs).offset = p.offset + cs.length := by
  unfold Place.after
  induction cs generalizing p with
  | nil => rfl
  | cons c cs ih =>
    rw [List.foldl_cons, ih, List.length_cons]
    unfold Place.step
    split <;> simp only <;> omega

theorem offset_advance {s : Scanner} {n : Nat} (h : n ≤ s.ahead.length) :
    (s.advance n).place.offset = s.place.offset + n := by
  rw [advance, offset_after, List.length_take, Nat.min_eq_left h]

/-- What a scan does: it passes over a piece of what is ahead, which is a gap or the token that it
collects. -/
theorem scan_cases {s : Scanner} (h : s.ahead ≠ []) :
    ∃ piece rest, s.ahead = piece ++ rest ∧ s.scan.ahead = rest ∧
      s.scan.place.offset = s.place.offset + piece.length ∧
      ((Skipped piece rest ∧ s.scan.tokens = s.tokens) ∨
        (piece ≠ [] ∧ Lexeme.gap? s.ahead = none ∧ (Lexeme.next s.ahead).length = piece.length ∧
          s.scan.tokens = s.tokens ++
            [⟨(Lexeme.next s.ahead).kind, (Lexeme.next s.ahead).value, s.place.spanTo s.scan.place⟩])) := by
  cases hg : Lexeme.gap? s.ahead with
  | some n =>
    have hscan : s.scan = s.advance n := by rw [scan, hg]
    have hle := Lexeme.gap?_le hg
    refine ⟨s.ahead.take n, s.ahead.drop n, (List.take_append_drop n s.ahead).symm, by rw [hscan]; rfl,
      ?_, .inl ⟨gap?_skipped hg, by rw [hscan]; rfl⟩⟩
    rw [hscan, offset_advance hle, List.length_take, Nat.min_eq_left hle]
  | none =>
    have hscan : s.scan = s.mark.accept (Lexeme.next s.ahead) := by rw [scan, hg]
    have hle := Lexeme.next_le s.ahead
    have htake : (s.ahead.take (Lexeme.next s.ahead).length).length = (Lexeme.next s.ahead).length := by
      rw [List.length_take, Nat.min_eq_left hle]
    have hplace : s.scan.place.offset = s.place.offset + (Lexeme.next s.ahead).length := by
      rw [hscan]
      exact offset_advance (s := s.mark) hle
    refine ⟨s.ahead.take (Lexeme.next s.ahead).length, s.ahead.drop (Lexeme.next s.ahead).length,
      (List.take_append_drop _ s.ahead).symm, by rw [hscan]; rfl, by rw [hplace, htake],
      .inr ⟨?_, rfl, htake.symm, ?_⟩⟩
    · rw [← List.length_pos_iff, htake]
      exact Lexeme.next_pos h
    · rw [hscan]
      simp [tokens, accept, add, advance, mark]

/-- If some tokens cover what is ahead after a scan, they cover what was ahead before it together
with what the scan collects. -/
theorem tiles_scan {s : Scanner} (h : s.ahead ≠ []) {ts : List Token}
    (ht : Tiles s.scan.place.offset s.scan.ahead ts) :
    ∃ us, s.scan.tokens ++ ts = s.tokens ++ us ∧ Tiles s.place.offset s.ahead us := by
  obtain ⟨piece, rest, hahead, hrest, hoffset, hstep⟩ := scan_cases h
  rcases hstep with ⟨hskip, htokens⟩ | ⟨hne, hg, -, htokens⟩
  · rw [hrest, hoffset] at ht
    refine ⟨ts, by rw [htokens], ?_⟩
    rw [hahead]
    exact Tiles.skip ht hskip
  · have hkind : (Lexeme.next s.ahead).kind ≠ .eof := (next_tokenForm h hg).lexical.ne_eof
    generalize Lexeme.next s.ahead = l at hkind htokens
    refine ⟨_ :: ts, by rw [htokens, List.append_assoc]; rfl, ?_⟩
    rw [hrest, hoffset] at ht
    rw [hahead, ← List.nil_append piece]
    exact .cons .nil hne hkind rfl (congrArg Int.ofNat hoffset) ht

/-- What is collected from here to the end covers what is ahead. -/
theorem tiles_scanTimes {n : Nat} {s : Scanner} (h : s.ahead.length ≤ n) :
    ∃ ts, ((scanTimes n s).mark.add .eof "").tokens = s.tokens ++ ts ∧
      Tiles s.place.offset s.ahead ts := by
  have hend : ∀ {s : Scanner}, s.ahead = [] → ∃ ts, (s.mark.add .eof "").tokens = s.tokens ++ ts ∧
      Tiles s.place.offset s.ahead ts := by
    intro s hs
    rw [hs]
    exact ⟨[⟨.eof, "", s.place.spanTo s.place⟩], by simp [tokens, add, mark],
      .last .nil rfl (by simp [Place.spanTo]) (by simp [Place.spanTo])⟩
  induction n generalizing s with
  | zero => exact hend (List.eq_nil_of_length_eq_zero (Nat.le_zero.mp h))
  | succ n ih =>
    unfold scanTimes
    split
    · rename_i he
      exact hend (List.isEmpty_iff.mp he)
    · rename_i he
      have hs : s.ahead ≠ [] := by simpa using he
      have hlt := ahead_scan_lt hs
      obtain ⟨ts, htokens, htiles⟩ := ih (s := s.scan) (by omega)
      rw [htokens]
      exact tiles_scan hs htiles

end Scanner

theorem tiles_tokenize (source : String) : Tiles 0 source.toList (tokenize source) := by
  obtain ⟨ts, htokens, htiles⟩ :=
    Scanner.tiles_scanTimes (Nat.le_refl (Scanner.ofSource source).ahead.length)
  have hall : tokenize source = ts := htokens
  rw [hall]
  exact htiles

/-! ## What follows for the offsets -/

namespace Tiles

variable {i : Nat} {cs : List Char} {ts : List Token}

theorem le_start (h : Tiles i cs ts) : ∀ t ∈ ts, (i : Int) ≤ t.span.start := by
  induction h with
  | last _ _ hstart =>
    rw [List.forall_mem_singleton, hstart]
    omega
  | cons _ _ _ hstart _ _ ih =>
    refine List.forall_mem_cons.mpr ⟨by omega, fun u hu => ?_⟩
    have := ih u hu
    omega

theorem starts_increase (h : Tiles i cs ts) : ts.Pairwise fun t u => t.span.start < u.span.start := by
  induction h with
  | last => exact List.pairwise_singleton _ _
  | cons _ hne _ hstart _ hrest ih =>
    refine List.pairwise_cons.mpr ⟨fun u hu => ?_, ih⟩
    have := hrest.le_start u hu
    have := List.length_pos_iff.mpr hne
    omega

theorem start_lt_stop (h : Tiles i cs ts) : ∀ t ∈ ts, t.kind ≠ .eof → t.span.start < t.span.stop := by
  induction h with
  | last _ hkind => simp [hkind]
  | cons _ hne _ hstart hstop _ ih =>
    refine List.forall_mem_cons.mpr ⟨fun _ => ?_, ih⟩
    have := List.length_pos_iff.mpr hne
    omega

/-- A token ends before all later ones begin. -/
theorem stop_le_starts (h : Tiles i cs ts) : ts.Pairwise fun t u => t.span.stop ≤ u.span.start := by
  induction h with
  | last => exact List.pairwise_singleton _ _
  | cons _ _ _ _ hstop hrest ih =>
    refine List.pairwise_cons.mpr ⟨fun u hu => ?_, ih⟩
    rw [hstop]
    exact hrest.le_start u hu

theorem stop_le_start (h : Tiles i cs ts) : ts.IsChain fun t u => t.span.stop ≤ u.span.start :=
  h.stop_le_starts.isChain

theorem end_token (h : Tiles i cs ts) : ∃ (init : List Token) (last : Token), ts = init ++ [last] ∧
    (∀ t ∈ init, t.kind ≠ .eof) ∧ last.kind = .eof ∧ last.span.start = (i + cs.length : Nat) ∧
      last.span.stop = (i + cs.length : Nat) := by
  induction h with
  | last _ hkind hstart hstop => exact ⟨[], _, rfl, by simp, hkind, hstart, hstop⟩
  | @cons i gap piece rest ts t _ _ hkind _ _ _ ih =>
    obtain ⟨init, last, rfl, hinit, hlast, hstart, hstop⟩ := ih
    have hsum : i + gap.length + piece.length + rest.length = i + (gap ++ piece ++ rest).length := by
      simp only [List.length_append]
      omega
    rw [hsum] at hstart hstop
    exact ⟨t :: init, last, rfl, List.forall_mem_cons.mpr ⟨hkind, hinit⟩, hlast, hstart, hstop⟩

end Tiles

/-- Where the last of some tokens ends, or the given place if there is none. -/
def stopOf (place : Int) (before : List Token) : Int :=
  (before.getLast?.map fun t => t.span.stop).getD place

theorem stopOf_cons (place : Int) (t : Token) (before : List Token) :
    stopOf place (t :: before) = stopOf t.span.stop before := by
  unfold stopOf
  rw [List.getLast?_cons]
  cases before.getLast? <;> rfl

/-- What stands between a token and the one before it. -/
theorem Tiles.gap_before {i : Nat} {cs : List Char} {ts : List Token} (h : Tiles i cs ts)
    {before after : List Token} {t : Token} (hts : ts = before ++ t :: after) :
    ∃ front gap rest, cs = front ++ gap ++ rest ∧ (i + front.length : Int) = stopOf i before ∧
      (i + (front ++ gap).length : Int) = t.span.start ∧ Gap gap rest := by
  induction h generalizing before with
  | @last i gap u hgap _ hstart =>
    cases before with
    | nil =>
      cases hts
      exact ⟨[], gap, [], by simp, by simp [stopOf], by simp [hstart], hgap⟩
    | cons v before => simp at hts
  | @cons i gap piece rest ts u hgap _ _ hstart hstop _ ih =>
    cases before with
    | nil =>
      cases hts
      exact ⟨[], gap, piece ++ rest, by simp, by simp [stopOf], by simp [hstart], hgap⟩
    | cons v before =>
      rw [List.cons_append, List.cons.injEq] at hts
      obtain ⟨rfl, hts⟩ := hts
      obtain ⟨front, gap', rest', rfl, hfront, hgap', hrest'⟩ := ih hts
      refine ⟨gap ++ piece ++ front, gap', rest', by simp, ?_, ?_, hrest'⟩
      · rw [stopOf_cons, hstop, ← hfront]
        simp only [List.length_append]
        omega
      · rw [← hgap']
        simp only [List.length_append]
        omega

/-! ## The tokens of a source text -/

/-- The tokens cover the source text. They begin one after the other, take up at least one character
and do not overlap. The last one, and no other, is the end token, and it stands at the end of the
text. What is between a token and the one before it, or the start, is made of blanks and comments. -/
theorem tokens_cover_source (source : String) :
    ((tokenize source).Pairwise fun t u => t.span.start < u.span.start) ∧
    (∀ t ∈ tokenize source, t.kind ≠ .eof → t.span.start < t.span.stop) ∧
    ((tokenize source).IsChain fun t u => t.span.stop ≤ u.span.start) ∧
    (∃ (init : List Token) (last : Token), tokenize source = init ++ [last] ∧
      (∀ t ∈ init, t.kind ≠ .eof) ∧ last.kind = .eof ∧ last.span.start = source.length ∧
      last.span.stop = source.length) ∧
    ∀ before t after, tokenize source = before ++ t :: after →
      ∃ front gap rest, source.toList = front ++ gap ++ rest ∧
        (front.length : Int) = stopOf 0 before ∧ ((front ++ gap).length : Int) = t.span.start ∧
        Gap gap rest := by
  have htiles := tiles_tokenize source
  refine ⟨htiles.starts_increase, htiles.start_lt_stop, htiles.stop_le_start, ?_, ?_⟩
  · simpa [String.length_toList] using htiles.end_token
  · intro before t after hts
    simpa using htiles.gap_before hts

end HanScript
