-- Tokens can be written down and read again. Each form of tokens has a spelling
-- that is read back as the same token before a space, whatever comes after it.
import HanScript.Proofs.Lexing.Lexical

namespace HanScript

open Lexeme Text Vocabulary

/-! ## Spellings -/

/-- A text as it is spelled between two marks: a backslash stands before each mark in it, and
before each backslash. -/
def guarded (mark : Char) (cs : List Char) : List Char :=
  cs.flatMap fun c => if c = mark ∨ c = '\\' then ['\\', c] else [c]

/-- A token written down. Only texts are not written as they are. -/
def Terminal.spelling (t : Terminal) : String :=
  match t.kind with
  | .string => String.ofList ('"' :: guarded '"' t.value.toList ++ ['"'])
  | .template => String.ofList (templateQuote :: guarded templateQuote t.value.toList ++ [templateQuote])
  | _ => t.value

/-- Every text is read back from its spelling. -/
theorem quotedRest_guarded {mark : Char} (hm : mark ≠ '\\') (hu : unescaped mark = mark)
    (cs r : List Char) :
    quotedRest mark (guarded mark cs ++ mark :: r) = (cs, (guarded mark cs).length + 1) := by
  induction cs with
  | nil => cases r <;> simp [guarded, quotedRest]
  | cons c cs ih =>
    by_cases h : c = mark ∨ c = '\\'
    · have hc : unescaped c = c := by
        rcases h with rfl | rfl
        · exact hu
        · rfl
      have hrest : guarded mark (c :: cs) ++ mark :: r = '\\' :: c :: (guarded mark cs ++ mark :: r) := by
        simp [guarded, h]
      rw [hrest, quotedRest, ih]
      simp [hm.symm, hc, guarded, h]
    · obtain ⟨d, ds, hd⟩ : ∃ d ds, guarded mark cs ++ mark :: r = d :: ds :=
        List.exists_cons_of_ne_nil (by simp)
      have hrest : guarded mark (c :: cs) ++ mark :: r = c :: d :: ds := by
        simp [guarded, h, ← hd]
      rw [not_or] at h
      rw [hrest, quotedRest, ← hd, ih]
      simp [h, guarded]

/-- In the quotes of every family, a text that is spelled with the closing one as its mark is read as
it is. -/
theorem next_guarded {e : Char × Char} (he : e ∈ quotes) (cs r : List Char) :
    next (e.1 :: guarded e.2 cs ++ [e.2] ++ r) =
      ⟨if e.1 = templateQuote then .template else .string, String.ofList cs,
        (e.1 :: guarded e.2 cs ++ [e.2]).length⟩ := by
  have hfamilies : ∀ e ∈ quotes, closing? e.1 = some e.2 ∧ e.2 ≠ '\\' ∧ unescaped e.2 = e.2 := by decide
  obtain ⟨hclosing, hm, hu⟩ := hfamilies e he
  rw [List.cons_append, List.cons_append, next_quoted hclosing, List.append_assoc, List.singleton_append,
    quotedRest_guarded hm hu]
  simp

/-- No quote begins a gap. -/
theorem gap?_of_quote {e : Char × Char} (he : e ∈ quotes) (r : List Char) : gap? (e.1 :: r) = none := by
  have hfamilies : ∀ e ∈ quotes, isBlank e.1 = false ∧ e.1 ≠ '/' := by decide
  obtain ⟨hblank, hslash⟩ := hfamilies e he
  exact gap?_none hblank fun h => absurd h hslash

/-- Nothing comes next, or a space. -/
def Spaced (r : List Char) : Prop := ∀ c ∈ r.head?, c = ' '

theorem Spaced.closes {r : List Char} (h : Spaced r) : Closes r := by
  cases r with
  | nil => exact closes_nil
  | cons c r =>
    obtain rfl := h c rfl
    exact closes_cons (by decide) (by decide) r

section

variable {r : List Char} (hr : Spaced r)

include hr

omit hr in
theorem terminals_guarded {mark : Char} (hmark : (mark, mark) ∈ quotes) (value : String) :
    terminals (mark :: guarded mark value.toList ++ [mark] ++ r) =
      ⟨if mark = templateQuote then .template else .string, value⟩ :: terminals r := by
  rw [terminals_append (by simp) (gap?_of_quote hmark _) (next_guarded hmark value.toList r) rfl,
    String.ofList_toList]
  rfl

theorem sign?_spaced {e : String × TokenKind} (he : e ∈ signsAndTags) :
    sign? (e.1.toList ++ r) = some ⟨e.2, e.1, e.1.toList.length⟩ := by
  cases r with
  | nil =>
    have hall : ∀ e ∈ signsAndTags, sign? e.1.toList = some ⟨e.2, e.1, e.1.toList.length⟩ := by decide
    rw [List.append_nil]
    exact hall e he
  | cons c r =>
    obtain rfl := hr c rfl
    rcases List.mem_append.mp he with hsign | htag
    · exact sign?_operator hsign r
    · rw [List.mem_cons, List.mem_singleton] at htag
      rcases htag with rfl | rfl
      · rfl
      · rfl

/-- A sign is read off before a space. The slash begins no comment there. -/
theorem terminals_spaced_sign {e : String × TokenKind} (he : e ∈ signsAndTags) :
    terminals (e.1.toList ++ r) = ⟨e.2, e.1⟩ :: terminals r := by
  have hhead : ∀ e ∈ signsAndTags, e.1.toList.head?.any fun c =>
      isWordPart c = false ∧ closing? c = none ∧ isBlank c = false := by decide
  have hsecond : ∀ e ∈ signsAndTags, e.1.toList.head? = some '/' →
      e.1.toList.tail.head?.all fun d => d ≠ '/' ∧ d ≠ '*' := by decide
  have hsign := sign?_spaced hr he
  cases hc : e.1.toList with
  | nil => simpa [hc] using hhead e he
  | cons c cs =>
    have hfirst := hhead e he
    rw [hc] at hsign hfirst
    obtain ⟨hpart, hq, hblank⟩ := of_decide_eq_true hfirst
    refine terminals_append (List.cons_ne_nil c cs) ?_ (next_sign hpart hq hsign) rfl
    refine gap?_none hblank fun hslash d hd => ?_
    cases cs with
    | nil =>
      obtain rfl := hr d hd
      decide
    | cons d' cs =>
      obtain rfl : d' = d := by simpa using hd
      have hd' := hsecond e he (by rw [hc, hslash]; rfl)
      rw [hc] at hd'
      exact of_decide_eq_true hd'

omit hr in
theorem terminals_stray {c : Char} (h : IsStray c) (r : List Char) :
    terminals (c :: r) = ⟨.unrecognized, String.ofList [c]⟩ :: terminals r := by
  have hnext : next ([c] ++ r) = stray ([c] ++ r) :=
    next_stray h.not_wordPart h.not_quote (sign?_none h.not_sign r)
  refine terminals_append (List.cons_ne_nil c []) ?_ hnext rfl
  refine gap?_none h.not_blank fun hslash => ?_
  have hsign := h.not_sign
  rw [hslash] at hsign
  exact absurd hsign (by decide)

/-- A token is read back from its spelling before a space. -/
theorem terminals_spelling {t : Terminal} (h : TokenForm t) :
    terminals (t.spelling.toList ++ r) = t :: terminals r := by
  cases h with
  | string value =>
    rw [Terminal.spelling, String.toList_ofList]
    exact terminals_guarded (by decide) value
  | template value =>
    rw [Terminal.spelling, String.toList_ofList]
    exact terminals_guarded (by decide) value
  | number hx => exact terminals_numeral hx hr.closes
  | @word x hx =>
    have hkinds : ∀ kind ∈ wordKinds, kind ≠ .string ∧ kind ≠ .template := by decide
    obtain ⟨hstring, htemplate⟩ := hkinds _ (wordKind_mem x)
    have hspelling : Terminal.spelling ⟨wordKind x, x⟩ = x := by
      unfold Terminal.spelling
      split
      · exact absurd ‹_› hstring
      · exact absurd ‹_› htemplate
      · rfl
    rw [hspelling]
    exact terminals_word hx hr.closes
  | @sign e he =>
    have hspelling : ∀ e ∈ signsAndTags, Terminal.spelling ⟨e.2, e.1⟩ = e.1 := by decide
    rw [hspelling e he]
    exact terminals_spaced_sign hr he
  | @stray c hc =>
    have hspelling : (Terminal.spelling ⟨.unrecognized, String.ofList [c]⟩).toList = [c] :=
      String.toList_ofList
    rw [hspelling]
    exact terminals_stray hc r

end

/-! ## Lists of tokens -/

theorem terminals_joined {ts : List Terminal} (h : ∀ t ∈ ts, TokenForm t) :
    terminals (Script.joined " " (ts.map Terminal.spelling)).toList = ts := by
  induction ts with
  | nil => exact terminals_nil
  | cons t ts ih =>
    rw [List.forall_mem_cons] at h
    cases ts with
    | nil =>
      have hone := terminals_spelling (r := []) (by simp [Spaced]) h.1
      rw [List.append_nil, terminals_nil] at hone
      exact hone
    | cons u ts =>
      have hrest := ih h.2
      have hjoin : (Script.joined " " ((t :: u :: ts).map Terminal.spelling)).toList =
          t.spelling.toList ++ ' ' :: (Script.joined " " ((u :: ts).map Terminal.spelling)).toList := by
        simp [Script.joined]
      rw [hjoin, terminals_spelling (by simp [Spaced]) h.1, terminals_blank rfl, hrest]

/-- The kind and the value are those of a token of some source text, other than the end token. -/
def Lexable (t : Terminal) : Prop := ∃ source, ∃ u ∈ tokenize source, u.kind ≠ .eof ∧ u.terminal = t

theorem Lexable.form {t : Terminal} (h : Lexable t) : TokenForm t := by
  obtain ⟨source, u, hu, hkind, rfl⟩ := h
  rcases tokenForm_or_end hu with hform | hend
  · exact hform
  · exact absurd (congrArg Terminal.kind hend) hkind

/-- Tokens that each stand in some source text are read back from their spellings with single
spaces between them, whatever their order, and then the end token. -/
theorem spelled_tokens_come_back {ts : List Terminal} (h : ∀ t ∈ ts, Lexable t) :
    (tokenize (Script.joined " " (ts.map Terminal.spelling))).map Token.terminal =
      ts ++ [⟨.eof, ""⟩] := by
  rw [tokenize_terminals, terminals_joined fun t ht => (h t ht).form]

/-- Tokens that would run into one another, or into a comment, without the spaces. -/
def awkwardNeighbours : List Terminal :=
  [⟨.number, "1e"⟩, ⟨.plus, "+"⟩, ⟨.divide, "/"⟩, ⟨.divide, "/"⟩, ⟨.less, "<"⟩, ⟨.selfClose, "/>"⟩,
   ⟨.closeTag, "</"⟩, ⟨.greater, ">"⟩, ⟨.number, "0x"⟩, ⟨.identifier, "p"⟩, ⟨.unrecognized, "\\"⟩,
   ⟨.string, "a\"\\"⟩]

/-- They all stand in one source text, in another order. -/
theorem awkwardNeighbours_come_back :
    (∀ t ∈ awkwardNeighbours, Lexable t) ∧
      (tokenize (Script.joined " " (awkwardNeighbours.map Terminal.spelling))).map Token.terminal =
        awkwardNeighbours ++ [⟨.eof, ""⟩] := by
  have hsource : ∀ t ∈ awkwardNeighbours, t.kind ≠ .eof ∧
      t ∈ (tokenize "1e</>\\0x/ /+\"a\\\"\\\\\"</p>").map Token.terminal := by decide
  have hlexable : ∀ t ∈ awkwardNeighbours, Lexable t := by
    intro t ht
    obtain ⟨hkind, hmem⟩ := hsource t ht
    obtain ⟨u, hu, rfl⟩ := List.mem_map.mp hmem
    exact ⟨_, u, hu, hkind, rfl⟩
  exact ⟨hlexable, spelled_tokens_come_back hlexable⟩

end HanScript
