-- Where a text can be taken apart. What is read before a token stays the same if
-- something else comes there, so blanks and comments can be put between tokens,
-- and texts that end with a semicolon can be put before any other.
import HanScript.Proofs.Lexing.Cutting
import HanScript.Proofs.Lexing.Tiling

namespace HanScript

open Lexeme Text Vocabulary

/-! ## Reading up to a place -/

/-- Before the rest the text is read as the tokens, and nothing of the rest belongs to them. -/
inductive ReadOff (rest : List Char) : List Char → List Terminal → Prop where
  | nil : ReadOff rest [] []
  | gap {piece front : List Char} {ts : List Terminal} : Skipped piece (front ++ rest) →
    ReadOff rest front ts → ReadOff rest (piece ++ front) ts
  | token {piece front : List Char} {ts : List Terminal} {l : Lexeme} : piece ≠ [] →
    gap? (piece ++ (front ++ rest)) = none → next (piece ++ (front ++ rest)) = l →
    l.length = piece.length → ReadOff rest front ts → ReadOff rest (piece ++ front) (l.terminal :: ts)

theorem terminals_of_skipped {piece rest : List Char} (h : Skipped piece rest) :
    terminals (piece ++ rest) = terminals rest := by
  rw [terminals_of_gap (gap?_of_skipped h), List.drop_left]

theorem ReadOff.terminals_append {rest front : List Char} {ts : List Terminal}
    (h : ReadOff rest front ts) : terminals (front ++ rest) = ts ++ terminals rest := by
  induction h with
  | nil => rfl
  | gap hskip _ ih => rw [List.append_assoc, terminals_of_skipped hskip, ih]
  | token hne hg hn hl _ ih =>
    rw [List.append_assoc, HanScript.terminals_append hne hg hn hl, ih, List.cons_append]

theorem sign?_selfClose (r : List Char) :
    sign? ('/' :: '>' :: r) = some ⟨.selfClose, Vocabulary.selfClose, 2⟩ := by
  cases r with
  | nil => rfl
  | cons d r =>
    have hhead : ∀ e ∈ threeSigns, e.1.toList.head? ≠ some '/' := by decide
    refine (sign?_pair ?_ fun h => absurd h (by decide)).trans rfl
    cases hk : threeSigns.lookup (String.ofList ['/', '>', normalized d]) with
    | none => exact hk
    | some kind =>
      exact absurd (by rw [String.toList_ofList]; rfl) (hhead _ (mem_of_lookup hk))

theorem Skipped.ne_nil {piece rest : List Char} (h : Skipped piece rest) : piece ≠ [] := by
  cases h <;> exact List.cons_ne_nil _ _

/-- Nothing is read up to the middle of a tag sign. -/
theorem ReadOff.not_slash {r : List Char} {ts : List Terminal} : ¬ ReadOff ('>' :: r) ['/'] ts := by
  have hsplit : ∀ {piece front : List Char}, piece ≠ [] → ['/'] = piece ++ front →
      piece = ['/'] ∧ front = [] := by
    intro piece front hne h
    obtain ⟨c, piece, rfl⟩ := List.exists_cons_of_ne_nil hne
    simpa [eq_comm, and_assoc] using h
  generalize hfront : ['/'] = text
  intro h
  cases h with
  | nil => cases hfront
  | gap hskip _ =>
    obtain ⟨rfl, rfl⟩ := hsplit hskip.ne_nil hfront
    cases hskip with
    | blank hb => cases hb
  | token hne _ hn hl _ =>
    obtain ⟨rfl, rfl⟩ := hsplit hne hfront
    rw [← hn] at hl
    have hsign : next ('/' :: '>' :: r) = ⟨.selfClose, Vocabulary.selfClose, 2⟩ :=
      next_sign rfl rfl (sign?_selfClose r)
    have htwo : (next ('/' :: '>' :: r)).length = 1 := hl
    rw [hsign] at htwo
    cases htwo

section

variable {rest : List Char} (hrest : rest ≠ []) (hg : gap? rest = none)

include hrest hg

/-- A gap before the rest is one before a break. A line comment does not end there, since the end of
its line would be a gap of its own. -/
theorem Skipped.cut {piece front : List Char} (h : Skipped piece (front ++ rest)) {c : Char}
    (r : List Char) : Skipped piece (front ++ c :: r) := by
  generalize hwhole : front ++ rest = whole at h
  cases h with
  | blank hb => exact .blank hb
  | block hbody => exact .block hbody
  | openBlock => simp [hrest] at hwhole
  | line hbody hline =>
    refine .line hbody ?_
    cases front with
    | nil =>
      obtain ⟨d, r, rfl⟩ := List.exists_cons_of_ne_nil hrest
      subst hwhole
      obtain rfl := hline d rfl
      cases hg
    | cons d front =>
      subst hwhole
      exact hline

theorem ReadOff.cut {front : List Char} {ts : List Terminal} (h : ReadOff rest front ts) {c : Char}
    (hc : IsBreak c) (r : List Char) : ReadOff (c :: r) front ts := by
  induction h with
  | nil => exact .nil
  | gap hskip _ ih => exact .gap (hskip.cut hrest hg r) ih
  | @token piece front ts l hne hgap hn hl hread ih =>
    have hcut : Cut (front ++ rest) (front ++ c :: r) := Cut.append (.here hc) front
    have htag : ['/', '>'] <+: front ++ rest →
        ['/', '>'] <+: front ++ c :: r ∨ (front ++ c :: r).head? ≠ some '/' := by
      intro hprefix
      match front with
      | [] =>
        refine .inr fun hhead => ?_
        obtain rfl : c = '/' := by simpa using hhead
        exact hc.not_second ('<', '/') (by decide) (by decide)
      | [d] =>
        obtain ⟨rfl, hsecond⟩ := List.cons_prefix_cons.mp hprefix
        obtain ⟨s, rfl⟩ := hsecond
        exact absurd hread ReadOff.not_slash
      | d :: e :: front => exact .inl (by simpa using hprefix)
    refine .token hne (gap?_cut hcut hne hgap) ?_ hl ih
    rw [next_cut hcut (by simp [hrest]) htag hne (by rw [hn, hl]), hn]

end

/-! ## Where tokens stand -/

/-- The token is read from the text, at the given offset from the place of the text. -/
inductive ReadAt : Nat → List Char → Token → Prop where
  | intro {i : Nat} {front rest : List Char} {ts : List Terminal} {t : Token} :
    ReadOff rest front ts → rest ≠ [] → gap? rest = none → (next rest).terminal = t.terminal →
    t.span.start = (i + front.length : Nat) →
    t.span.stop = (i + front.length + (next rest).length : Nat) → ReadAt i (front ++ rest) t

section

variable {i : Nat} {piece rest : List Char} {t : Token} (h : ReadAt (i + piece.length) rest t)

include h

theorem ReadAt.after_gap (hskip : Skipped piece rest) : ReadAt i (piece ++ rest) t := by
  cases h with
  | intro hread hne hg ht hstart hstop =>
    rw [← List.append_assoc]
    refine .intro (.gap hskip hread) hne hg ht ?_ ?_
    · rw [hstart, List.length_append, Nat.add_assoc]
    · rw [hstop, List.length_append, ← Nat.add_assoc i]

theorem ReadAt.after_token (hpiece : piece ≠ []) (hg : gap? (piece ++ rest) = none)
    (hl : (next (piece ++ rest)).length = piece.length) : ReadAt i (piece ++ rest) t := by
  cases h with
  | intro hread hne hgap ht hstart hstop =>
    rw [← List.append_assoc]
    refine .intro (.token hpiece hg rfl hl hread) hne hgap ht ?_ ?_
    · rw [hstart, List.length_append, Nat.add_assoc]
    · rw [hstop, List.length_append, ← Nat.add_assoc i]

end

namespace Scanner

/-- What is read after a scan is read from what was ahead before it. -/
theorem readAt_of_scan {s : Scanner} (hs : s.ahead ≠ []) {t : Token}
    (h : ReadAt s.scan.place.offset s.scan.ahead t) : ReadAt s.place.offset s.ahead t := by
  obtain ⟨piece, rest, hahead, hrest, hoffset, hstep⟩ := scan_cases hs
  rw [hrest, hoffset] at h
  rcases hstep with ⟨hskip, -⟩ | ⟨hne, hg, hl, -⟩
  · rw [hahead]
    exact h.after_gap hskip
  · rw [hahead] at hg hl ⊢
    exact h.after_token hne hg hl

/-- What a scan collects is read from what was ahead. -/
theorem readAt_scan {s : Scanner} (hs : s.ahead ≠ []) {t : Token} (ht : t ∈ s.scan.tokens) :
    t ∈ s.tokens ∨ ReadAt s.place.offset s.ahead t := by
  obtain ⟨piece, rest, -, -, hoffset, hstep⟩ := scan_cases hs
  rcases hstep with ⟨-, htokens⟩ | ⟨-, hg, hl, htokens⟩
  · rw [htokens] at ht
    exact .inl ht
  · rw [htokens, List.mem_append, List.mem_singleton] at ht
    rcases ht with hold | rfl
    · exact .inl hold
    · refine .inr (.intro .nil hs hg rfl rfl ?_)
      rw [hl, List.length_nil, Nat.add_zero, ← hoffset]
      rfl

theorem readAt_scanTimes {n : Nat} {s : Scanner} {t : Token} (ht : t ∈ (scanTimes n s).tokens) :
    t ∈ s.tokens ∨ ReadAt s.place.offset s.ahead t := by
  induction n generalizing s with
  | zero => exact .inl ht
  | succ n ih =>
    unfold scanTimes at ht
    split at ht
    · exact .inl ht
    · rename_i he
      have hs : s.ahead ≠ [] := by simpa using he
      rcases ih ht with hold | hnew
      · exact readAt_scan hs hold
      · exact .inr (readAt_of_scan hs hnew)

end Scanner

theorem readAt_tokenize {source : String} {t : Token} (ht : t ∈ tokenize source)
    (hkind : t.kind ≠ .eof) : ReadAt 0 source.toList t := by
  have hend : tokenize source = (Scanner.scanTimes source.toList.length (.ofSource source)).tokens ++
      [⟨.eof, "", (Scanner.scanTimes source.toList.length (.ofSource source)).place.spanTo
        (Scanner.scanTimes source.toList.length (.ofSource source)).place⟩] := by
    simp [tokenize, Scanner.scanAll, Scanner.add, Scanner.tokens, Scanner.mark, Scanner.ofSource]
  rw [hend, List.mem_append, List.mem_singleton] at ht
  rcases ht with hin | rfl
  · rcases Scanner.readAt_scanTimes hin with hnone | hplace
    · cases hnone
    · exact hplace
  · exact absurd rfl hkind

/-! ## Layout -/

/-- The text is a blank, a block comment that is closed, or a line comment with the end of its
line. -/
inductive Filler : List Char → Prop where
  | blank {c : Char} : isBlank c → Filler [c]
  | block {body : List Char} : ¬ ['*', '/'] <:+: body ++ ['*'] →
    Filler ('/' :: '*' :: body ++ ['*', '/'])
  | line {body : List Char} : '\n' ∉ body → Filler ('/' :: '/' :: body ++ ['\n'])

theorem Filler.terminals_append {piece : List Char} (h : Filler piece) (rest : List Char) :
    terminals (piece ++ rest) = terminals rest := by
  cases h with
  | blank hb => exact terminals_blank hb rest
  | block hbody => exact terminals_of_skipped (.block hbody)
  | line hbody =>
    rw [List.append_assoc, terminals_of_skipped (.line hbody (by simp))]
    exact terminals_blank rfl rest

theorem terminals_fillers {pieces : List (List Char)} (h : ∀ p ∈ pieces, Filler p)
    (rest : List Char) : terminals (pieces.flatten ++ rest) = terminals rest := by
  induction pieces with
  | nil => rfl
  | cons p pieces ih =>
    rw [List.forall_mem_cons] at h
    rw [List.flatten_cons, List.append_assoc, h.1.terminals_append, ih h.2]

/-- Blanks and comments before a token, after a first blank, change nothing in the tokens but where
they stand. -/
theorem layout_before_tokens_is_free {source : String} {t : Token} (ht : t ∈ tokenize source)
    (hkind : t.kind ≠ .eof) {c : Char} (hc : isBlank c) {pieces : List (List Char)}
    (hpieces : ∀ p ∈ pieces, Filler p) :
    (tokenize (String.ofList (source.toList.take t.span.start.toNat ++
        (c :: pieces.flatten) ++ source.toList.drop t.span.start.toNat))).map Token.terminal =
      (tokenize source).map Token.terminal := by
  have hplace := readAt_tokenize ht hkind
  generalize hsource : source.toList = text at hplace
  cases hplace with
  | @intro front rest ts _ hread hne hg _ hstart =>
    have hfront : t.span.start.toNat = front.length := by rw [hstart, Nat.zero_add, Int.toNat_natCast]
    rw [hfront, List.take_left, List.drop_left, tokenize_terminals, tokenize_terminals, hsource,
      String.toList_ofList, List.append_assoc, List.cons_append,
      (hread.cut hne hg (isBreak_of_blank hc) _).terminals_append, terminals_blank hc,
      terminals_fillers hpieces, hread.terminals_append]

/-- The tag sign of an empty fragment is what the scanner looks at before it takes the less sign. -/
def emptyFragment : String := "<></>"

theorem emptyFragment_spread_out :
    ∃ t ∈ tokenize emptyFragment, t.kind = .selfClose ∧
      (tokenize "<>< /*/ **///*\n\t/>").map Token.terminal =
        (tokenize emptyFragment).map Token.terminal := by
  have ht : ⟨.selfClose, "/>", ⟨1, 4, 3, 5⟩⟩ ∈ tokenize emptyFragment := by decide
  have hblock : Filler "/*/ **/".toList := @Filler.block ['/', ' ', '*'] (by decide)
  have hline : Filler "//*\n".toList := @Filler.line ['*'] (by decide)
  have hpieces : ∀ p ∈ ["/*/ **/".toList, "//*\n".toList, ['\t']], Filler p := by
    rw [List.forall_mem_cons, List.forall_mem_cons, List.forall_mem_singleton]
    exact ⟨hblock, hline, .blank rfl⟩
  have hspread : "<>< /*/ **///*\n\t/>" = String.ofList (emptyFragment.toList.take (3 : Int).toNat ++
      (' ' :: ["/*/ **/".toList, "//*\n".toList, ['\t']].flatten) ++
        emptyFragment.toList.drop (3 : Int).toNat) := by decide
  rw [hspread]
  exact ⟨_, ht, rfl, layout_before_tokens_is_free ht (by decide) rfl hpieces⟩

/-! ## After a semicolon -/

section

variable {c : Char} (h : normalized c = ';')

include h

theorem gap?_of_semicolon (r : List Char) : gap? (c :: r) = none := by
  have hblank : isBlank (normalized c) = isBlank c := normalized_agrees (by decide) c
  refine gap?_none (by rw [← hblank, h]; rfl) ?_
  rintro rfl
  cases h

/-- A semicolon is a token, whatever comes after it. -/
theorem next_of_semicolon (r : List Char) : next (c :: r) = ⟨.semicolon, ";", 1⟩ := by
  have hpart : isWordPart (normalized c) = isWordPart c := normalized_agrees (by decide) c
  have hquote : closing? (normalized c) = closing? c := normalized_agrees (by decide) c
  have hfirst : ∀ p ∈ signPairs, p.1 ≠ ';' := by decide
  refine next_sign (by rw [← hpart, h]; rfl) (by rw [← hquote, h]; rfl) ?_
  rw [sign?_cons, h]
  · rfl
  · intro d _ hp
    exact hfirst _ hp h

theorem terminals_of_semicolon (r : List Char) :
    terminals (c :: r) = ⟨.semicolon, ";"⟩ :: terminals r :=
  terminals_append (List.cons_ne_nil c []) (gap?_of_semicolon h r) (next_of_semicolon h r) rfl

end

/-- Only a semicolon is read as one. -/
theorem normalized_of_next {c : Char} {r : List Char} (h : (next (c :: r)).kind = .semicolon) :
    normalized c = ';' := by
  rcases next_cases c r with ⟨closing, hq⟩ | ⟨-, hn⟩ | ⟨-, hn⟩ | ⟨-, -, hs | ⟨-, hn⟩⟩
  · rw [next_quoted hq] at h
    simp only at h
    split at h <;> cases h
  · rw [hn] at h
    cases h
  · have hwords : ∀ kind ∈ wordKinds, kind ≠ .semicolon := by decide
    rw [hn] at h
    exact absurd h (hwords _ (wordKind_mem _))
  · have hsigns : ∀ e ∈ signsAndTags, e.2 = .semicolon → e.1 = ";" := by decide
    obtain ⟨hvalue, -, hmem⟩ := sign?_cases hs
    have hread := (hsigns _ hmem h).symm.trans hvalue
    have hchars : [';'] = ((c :: r).map normalized).take (next (c :: r)).length :=
      (congrArg String.toList hread).trans String.toList_ofList
    rw [List.map_cons, List.take_cons (sign?_length hs).1] at hchars
    exact (List.cons.inj hchars).1.symm
  · rw [hn] at h
    cases h

/-- A text that ends with a semicolon is read off before any other text. -/
theorem terminals_after_semicolon {source : String} {t : Token} (ht : t ∈ tokenize source)
    (hkind : t.kind = .semicolon) (hstop : t.span.stop = source.length) :
    ∃ ts, terminals source.toList = ts ++ [⟨.semicolon, ";"⟩] ∧
      ∀ r, terminals (source.toList ++ r) = terminals source.toList ++ terminals r := by
  have hplace := readAt_tokenize ht (by rw [hkind]; decide)
  rw [← String.length_toList] at hstop
  generalize source.toList = text at hplace hstop
  cases hplace with
  | @intro front rest ts _ hread hne hg hnext _ hend =>
    obtain ⟨c, r, rfl⟩ := List.exists_cons_of_ne_nil hne
    have hc : normalized c = ';' := normalized_of_next ((congrArg Terminal.kind hnext).trans hkind)
    obtain rfl : r = [] := by
      have hlength : (next (c :: r)).length = 1 := by rw [next_of_semicolon hc]
      rw [hend, hlength, List.length_append, List.length_cons] at hstop
      exact List.eq_nil_of_length_eq_zero (by omega)
    have hwhole : ∀ r, terminals (front ++ c :: r) = ts ++ ⟨.semicolon, ";"⟩ :: terminals r := by
      intro r
      rw [(hread.cut hne hg (isBreak_of_semicolon hc) r).terminals_append, terminals_of_semicolon hc]
    have hone : terminals (front ++ [c]) = ts ++ [⟨.semicolon, ";"⟩] := by rw [hwhole, terminals_nil]
    refine ⟨ts, hone, fun r => ?_⟩
    rw [hone, List.append_assoc, List.singleton_append, hwhole, List.append_assoc, List.singleton_append]

end HanScript
