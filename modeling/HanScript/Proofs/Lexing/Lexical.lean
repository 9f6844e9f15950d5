-- What the scanner says of its tokens. Each of them has one of a few forms: a
-- name is a word, a number is a numeral, and a sign is in the table of signs.
import HanScript.Proofs.Lexing.Spelling

namespace HanScript

open Lexeme Text Vocabulary

/-- The text is a word that means nothing of its own. -/
def IsName (x : String) : Prop := IsWord x ∧ wordKind x = .identifier

/-! ## Forms of tokens -/

/-- The signs, those of tags among them. -/
def signsAndTags : List (String × TokenKind) :=
  signs ++ [(Vocabulary.closeTag, .closeTag), (Vocabulary.selfClose, .selfClose)]

/-- Nothing but a stray token begins with the character. -/
structure IsStray (c : Char) : Prop where
  not_blank : isBlank c = false
  not_quote : closing? c = none
  not_wordPart : isWordPart c = false
  not_sign : oneSign.lookup (String.ofList [normalized c]) = none

/-- The forms that a token can have. -/
inductive TokenForm : Terminal → Prop where
  | string (value : String) : TokenForm ⟨.string, value⟩
  | template (value : String) : TokenForm ⟨.template, value⟩
  | number {x : String} : IsNumeral x → TokenForm ⟨.number, x⟩
  | word {x : String} : IsWord x → TokenForm ⟨wordKind x, x⟩
  | sign {e : String × TokenKind} : e ∈ signsAndTags → TokenForm ⟨e.2, e.1⟩
  | stray {c : Char} : IsStray c → TokenForm ⟨.unrecognized, String.ofList [c]⟩

theorem word_isWord {c : Char} (hc : isWordStart c) (cs : List Char) :
    IsWord (word (c :: cs)).value := by
  have hpart : isWordPart c := by simp [isWordPart, hc]
  refine ⟨by simp [word, hpart, hc], ?_⟩
  simp only [word, String.toList_ofList]
  exact List.all_takeWhile

theorem numeral_isNumeral {c : Char} (hc : isDigit c) (cs : List Char) :
    IsNumeral (numeral (c :: cs)).value := by
  have hle := numeralLength_le (c :: cs)
  have hpos := numeralLength_pos (List.cons_ne_nil c cs)
  have hvalue : (numeral (c :: cs)).value.toList = (c :: cs).take (numeralLength (c :: cs)) :=
    String.toList_ofList
  constructor
  · rw [hvalue, List.head?_take, if_neg (by omega)]
    simpa using hc
  · rw [hvalue, numeralLength_take, List.length_take, Nat.min_eq_left hle]

theorem not_blank_of_gap?_none {c : Char} {cs : List Char} (h : gap? (c :: cs) = none) :
    isBlank c = false := by
  unfold gap? at h
  split at h
  · rename_i heq
    cases heq
  · cases h
  · cases h
  · rename_i heq
    cases heq
    simpa using h

/-- What is read as a sign is in the table of signs. -/
theorem sign?_mem {cs : List Char} {l : Lexeme} (h : sign? cs = some l) :
    (l.value, l.kind) ∈ signsAndTags := (sign?_cases h).2.2

theorem sign?_tokenForm {cs : List Char} {l : Lexeme} (h : sign? cs = some l) :
    TokenForm l.terminal := .sign (sign?_mem h)

/-- Where there is no sign, the first character is none. -/
theorem not_sign_of_sign?_none {c : Char} {cs : List Char} (h : sign? (c :: cs) = none) :
    oneSign.lookup (String.ofList [normalized c]) = none := by
  unfold sign? at h
  simp only at h
  split at h
  · cases h
  · split at h
    · cases h
    · split at h
      · cases h
      · split at h
        · cases h
        · simpa using h

/-- Where the first character is a sign of its own, there is a sign that begins with it. -/
theorem sign?_of_head {c : Char} (h : (oneSign.lookup (String.ofList [normalized c])).isSome)
    (cs : List Char) : ∃ l, sign? (c :: cs) = some l ∧ (l.value, l.kind) ∈ signsAndTags ∧
      l.value.toList.head? = some (normalized c) := by
  cases hs : sign? (c :: cs) with
  | none =>
    rw [not_sign_of_sign?_none hs] at h
    cases h
  | some l =>
    obtain ⟨hvalue, hlength, hmem⟩ := sign?_cases hs
    have hlengths : ∀ e ∈ signsAndTags, e.1.length ≠ 0 := by decide
    have hne : l.length ≠ 0 := hlength ▸ hlengths _ hmem
    refine ⟨l, rfl, hmem, ?_⟩
    rw [hvalue, String.toList_ofList, List.map_cons, List.head?_take, if_neg hne, List.head?_cons]

theorem next_tokenForm {cs : List Char} (hc : cs ≠ []) (hg : gap? cs = none) :
    TokenForm (next cs).terminal := by
  obtain ⟨c, cs, rfl⟩ := List.exists_cons_of_ne_nil hc
  rcases next_cases c cs with ⟨closing, hq⟩ | ⟨hd, hn⟩ | ⟨hw, hn⟩ | ⟨hpart, hq, hs | ⟨hs, hn⟩⟩
  · rw [next_quoted hq]
    simp only [Lexeme.terminal]
    split
    · exact .template _
    · exact .string _
  · rw [hn]
    exact .number (numeral_isNumeral hd cs)
  · rw [hn]
    exact .word (word_isWord hw cs)
  · exact sign?_tokenForm hs
  · rw [hn]
    exact .stray ⟨not_blank_of_gap?_none hg, hq, hpart, not_sign_of_sign?_none hs⟩

theorem terminals_tokenForm {cs : List Char} {t : Terminal} (ht : t ∈ terminals cs) : TokenForm t := by
  fun_induction terminals cs with
  | case1 cs n _ ih => exact ih ht
  | case2 => cases ht
  | case3 cs hg hc ih =>
    rcases List.mem_cons.mp ht with rfl | ht
    · exact next_tokenForm hc hg
    · exact ih ht

/-- Every token of a source text but the end token has one of the forms. -/
theorem tokenForm_or_end {source : String} {t : Token} (ht : t ∈ tokenize source) :
    TokenForm t.terminal ∨ t.terminal = ⟨.eof, ""⟩ := by
  have hmem : t.terminal ∈ terminals source.toList ++ [⟨.eof, ""⟩] := by
    rw [← tokenize_terminals]
    exact List.mem_map_of_mem ht
  rcases List.mem_append.mp hmem with hin | hlast
  · exact .inl (terminals_tokenForm hin)
  · exact .inr (List.mem_singleton.mp hlast)

/-! ## What tokens of a kind have in common -/

/-- The value of the token is one that tokens of its kind have. -/
structure Lexical (t : Terminal) : Prop where
  ne_eof : t.kind ≠ .eof
  name : t.kind = .identifier → IsName t.value
  number : t.kind = .number → IsNumeral t.value
  sign : t.kind ∈ signs.map Prod.snd → (t.value, t.kind) ∈ signs

/-- The kind that the tables give to a word: the keywords come first, then the literals, and all
other words are names. -/
inductive WordMeans (x : String) : TokenKind → Prop where
  | keyword {k : Keyword} : k ∈ keywords → k.word = x → WordMeans x k.kind
  | literal {kind : TokenKind} : (∀ k ∈ keywords, k.word ≠ x) → (x, kind) ∈ literals →
    WordMeans x kind
  | name : (∀ k ∈ keywords, k.word ≠ x) → (∀ e ∈ literals, e.1 ≠ x) → WordMeans x .identifier

theorem wordMeans_wordKind (x : String) : WordMeans x (wordKind x) := by
  unfold wordKind
  split
  · rename_i k hk
    have hword : k.word = x := by simpa using List.find?_some hk
    exact .keyword (List.mem_of_find?_eq_some hk) hword
  · rename_i hk
    have hwords : ∀ k ∈ keywords, k.word ≠ x := by simpa [keyword?] using hk
    cases h : literals.lookup x with
    | some kind => exact .literal hwords (mem_of_lookup h)
    | none =>
      refine .name hwords fun e he => ?_
      have hne := List.lookup_eq_none_iff.mp h e he
      simpa using Ne.symm (by simpa using hne)

/-- The kinds of words. -/
def wordKinds : List TokenKind :=
  .identifier :: keywords.map Keyword.kind ++ literals.map Prod.snd

theorem WordMeans.mem {x : String} {kind : TokenKind} (h : WordMeans x kind) : kind ∈ wordKinds := by
  unfold wordKinds
  cases h with
  | keyword hk _ => exact List.mem_append_left _ (List.mem_cons_of_mem _ (List.mem_map_of_mem hk))
  | literal _ he => exact List.mem_append_right _ (List.mem_map_of_mem he)
  | name => exact List.mem_cons_self

theorem wordKind_mem (x : String) : wordKind x ∈ wordKinds := (wordMeans_wordKind x).mem

/-- The kinds of tokens whose values can be anything. -/
def freeKinds : List TokenKind := [.string, .template, .closeTag, .selfClose, .unrecognized]

theorem lexical_of_kind {kind : TokenKind} (hkind : kind ∈ freeKinds) (value : String) :
    Lexical ⟨kind, value⟩ := by
  have hfree : ∀ kind ∈ freeKinds, kind ≠ .eof ∧ kind ≠ .identifier ∧ kind ≠ .number ∧
      kind ∉ signs.map Prod.snd := by decide
  obtain ⟨heof, hname, hnumber, hsign⟩ := hfree kind hkind
  exact ⟨heof, fun h => absurd h hname, fun h => absurd h hnumber, fun h => absurd h hsign⟩

theorem lexical_of_sign {e : String × TokenKind} (he : e ∈ signs) : Lexical ⟨e.2, e.1⟩ := by
  have hkinds : ∀ e ∈ signs, e.2 ≠ .eof ∧ e.2 ≠ .identifier ∧ e.2 ≠ .number := by decide
  obtain ⟨heof, hname, hnumber⟩ := hkinds e he
  exact ⟨heof, fun h => absurd h hname, fun h => absurd h hnumber, fun _ => he⟩

theorem TokenForm.lexical {t : Terminal} (h : TokenForm t) : Lexical t := by
  cases h with
  | string value => exact lexical_of_kind (by decide) value
  | template value => exact lexical_of_kind (by decide) value
  | number hx =>
    have hkind : TokenKind.number ∉ signs.map Prod.snd := by decide
    exact ⟨nofun, nofun, fun _ => hx, fun h => absurd h hkind⟩
  | @word x hx =>
    have hnone : ∀ kind ∈ wordKinds, kind ≠ .eof ∧ kind ≠ .number ∧ kind ∉ signs.map Prod.snd := by
      decide
    obtain ⟨heof, hnumber, hsign⟩ := hnone _ (wordKind_mem x)
    exact ⟨heof, fun h => ⟨hx, h⟩, fun h => absurd h hnumber, fun h => absurd h hsign⟩
  | @sign e he =>
    rcases List.mem_append.mp he with hsign | htag
    · exact lexical_of_sign hsign
    · have htags : ∀ e ∈ [(Vocabulary.closeTag, TokenKind.closeTag),
          (Vocabulary.selfClose, TokenKind.selfClose)], e.2 ∈ freeKinds := by decide
      exact lexical_of_kind (htags e htag) e.1
  | stray => exact lexical_of_kind (by decide) _

theorem terminals_lexical {cs : List Char} {t : Terminal} (ht : t ∈ terminals cs) : Lexical t :=
  (terminals_tokenForm ht).lexical

theorem isNumeral_of_token {source : String} {t : Token} (ht : t ∈ tokenize source)
    (hk : t.kind = .number) : IsNumeral t.value := by
  rcases tokenForm_or_end ht with hform | hend
  · exact hform.lexical.number hk
  · have hkind := congrArg Terminal.kind hend
    rw [Token.terminal_kind, hk] at hkind
    cases hkind

/-- The text of the token is scanned as this one token. -/
def Scans (t : Terminal) : Prop := (tokenize t.value).map Token.terminal = [t, ⟨.eof, ""⟩]

theorem Scans.lexical {t : Terminal} (h : Scans t) : Lexical t := by
  have ht : terminals t.value.toList = [t] := by
    have htokens : [t] ++ [⟨.eof, ""⟩] = terminals t.value.toList ++ [⟨.eof, ""⟩] :=
      h.symm.trans (tokenize_terminals t.value)
    exact (List.append_cancel_right htokens).symm
  exact terminals_lexical (by rw [ht]; exact List.mem_singleton_self t)

end HanScript
