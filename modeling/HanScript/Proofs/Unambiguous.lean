-- No text of an expression can be taken for another one: no two signs run
-- together to a longer sign or to a comment, no point is taken for that of a
-- decimal number, and no power has a bare sign on its left.
import HanScript.Proofs.Parsing.Earliest
import HanScript.Proofs.Printing.Arranged
import HanScript.Proofs.RoundTrip.Program

namespace HanScript

open Grammar Lexeme Script Text Vocabulary

/-! ## Rows of pieces -/

/-- What begins with a point is read as one point, or as three. -/
theorem terminals_of_point (cs : List Char) :
    ∃ t ts, terminals ('.' :: cs) = t :: ts ∧ t.kind ∈ pointKinds := by
  have hpoints : ∀ e ∈ signsAndTags, e.1.toList.head? = some '.' → e.2 ∈ pointKinds := by decide
  have hgap : gap? ('.' :: cs) = none := gap?_none rfl nofun
  obtain ⟨l, hl, hmem, hhead⟩ := sign?_of_head (c := '.') (by decide) cs
  refine ⟨l.terminal, terminals (('.' :: cs).drop l.length), ?_, hpoints _ hmem hhead⟩
  rw [terminals_of_next (List.cons_ne_nil _ _) hgap, next_sign rfl rfl hl]

namespace Laid

variable {text : String} {ps : List Piece}

theorem no_merging (h : Laid text ps) :
    ∀ pair ∈ ["++", "--", "//", "/*"], ¬ pair.toList <:+: unquoted none text.toList := by
  intro pair hpair hinside
  have hpairs : ∀ pair ∈ ["++", "--", "//", "/*"], ¬ pair.toList.IsChain Apart := by decide
  rw [h.chars] at hinside
  have hapart := List.IsChain.infix (Piece.apart_pieces h.meet) hinside
  exact hpairs pair hpair hapart

theorem no_point_after_integer (h : Laid text ps) {t : Token} (ht : t ∈ tokenize text)
    (hk : t.kind = .number) (hdigits : t.value.toList.all isDigit) :
    (text.toList.drop t.span.stop.toNat).head? ≠ some '.' := by
  intro hpoint
  have hparted := Piece.parted_pieces h.meet
  rw [← h.chars] at hparted
  have hread := readAt_tokenize ht (by rw [hk]; decide)
  generalize text.toList = cs at hread hparted hpoint
  cases hread with
  | @intro front rest ts _ hread hne hg hterminal hstart hstop =>
    have hdrop : (front ++ rest).drop t.span.stop.toNat = rest.drop (next rest).length := by
      rw [hstop, Nat.zero_add, Int.toNat_natCast, ← List.drop_drop, List.drop_left]
    rw [hdrop] at hpoint
    obtain ⟨after, hafter⟩ : ∃ after, rest.drop (next rest).length = '.' :: after := by
      cases hrest : rest.drop (next rest).length with
      | nil => simp [hrest] at hpoint
      | cons c cs => exact ⟨cs, by simpa [hrest] using hpoint⟩
    obtain ⟨u, us, hu, hkind⟩ := terminals_of_point after
    -- The integer and the point are next to each other among the tokens of the text.
    rw [hread.terminals_append, terminals_of_next hne hg, hterminal, hafter, hu] at hparted
    exact (List.isChain_append_cons_cons.mp hparted).2.1 hk hdigits hkind

theorem no_sign_before (h : Laid text ps) (hhead : Unsigned ps) :
    ∀ e ∈ signs, e.2 ∈ unaryOperators → ¬ e.1.toList <+: text.toList := by
  intro e he hu hbegins
  obtain ⟨c, hc, hchars, -⟩ := unary_sign he hu
  rw [hchars, h.chars] at hbegins
  cases ps with
  | nil => simp at hbegins
  | cons p ps =>
    obtain ⟨d, ds, -, hd, -, hjoiner⟩ := p.head_chars
    have hcd : c = d := by simpa [hd] using hbegins
    rcases hjoiner with hnot | ⟨_, _, _, rfl, -⟩
    · subst hcd
      have hall : ['-', '+', '!'].all fun c => c ∈ joiners := by decide
      exact hnot (of_decide_eq_true (List.all_eq_true.mp hall c hc))
    · cases hhead _ rfl

end Laid

/-! ## Expressions -/

/-- The text of the expression is read in one way. Outside of quotes no two characters make a longer
sign or begin a comment, no point comes right after a number that is written in digits only, and what
a power has on its left is in parentheses or does not begin with a unary operator. -/
structure Unambiguous (n : Node) (text : String) : Prop where
  renders : Script.expression n = .ok text
  apart : ∀ pair ∈ ["++", "--", "//", "/*"], ¬ pair.toList <:+: unquoted none text.toList
  integers : ∀ t ∈ tokenize text, t.kind = .number → t.value.toList.all isDigit →
    (text.toList.drop t.span.stop.toNat).head? ≠ some '.'
  powers : ∀ s l r, n = .binary s "**" l r → ∃ inner left right, Script.expression l = .ok inner ∧
    text = left ++ " ** " ++ right ∧ (left = parenthesized inner ∨
      left = inner ∧ ∀ e ∈ signs, e.2 ∈ unaryOperators → ¬ e.1.toList <+: left.toList)

/-- If the node is an expression without a backslash in its texts, it has such a text. -/
def Node.ReadsOneWay (n : Node) : Prop :=
  n.isExpression → (∀ x ∈ n.texts, '\\' ∉ x.toList) → ∃ text, Unambiguous n text

/-- A power puts on its left what binds no tighter than itself, and what is unary, in parentheses. -/
def wrapsLeftOfPower (l : Node) : Bool :=
  precedence l < Level.power.rank || (precedence l == Level.power.rank || (unaryOperator? l).isSome)

theorem power_text (l r : Node) (left right : String) : ∃ right', binaryText "**" l r left right =
    parenthesizedIf (wrapsLeftOfPower l) left ++ " ** " ++ right' := by
  refine ⟨parenthesizedIf (precedence r < Level.power.rank) right, ?_⟩
  have hlevel : operatorLevels.lookup "**" = some Level.power.rank := rfl
  have hspaced : " " ++ "**" ++ " " = " ** " := rfl
  simp [binaryText, wrapsLeftOfPower, hlevel, ← hspaced, String.append_assoc]

/-- On the left of a power an expression stands bare only if it does not begin with a sign. -/
theorem unsigned_left_of_power {l : Node} {inner : String} {ps : List Piece} (hl : LaidOut l inner ps)
    (hwraps : wrapsLeftOfPower l = false) :
    ∀ e ∈ signs, e.2 ∈ unaryOperators → ¬ e.1.toList <+: inner.toList := by
  obtain ⟨hle, hne, hunary⟩ : Level.power.rank ≤ precedence l ∧ precedence l ≠ Level.power.rank ∧
      unaryOperator? l = none := by simpa [wrapsLeftOfPower] using hwraps
  exact hl.no_sign_before (hl.unsigned (callLevel_le (by omega) hunary))

theorem readsOneWay_of_formed {r : Role} {n : Node} (h : Node.Everywhere (Formed Lexical) r n) :
    n.ReadsOneWay := by
  intro hn htexts
  have hexpression : Node.Everywhere (Formed Lexical) .expression n :=
    h.elsewhere ⟨hn, h.here.2.operand rfl⟩
  have hquotable := hexpression.quotable htexts
  obtain ⟨text, ps, hlaid⟩ : Arranged n := arranged_of_formed hquotable
  refine ⟨text, hlaid.text_eq, hlaid.no_merging, fun t => hlaid.no_point_after_integer, ?_⟩
  rintro s l r rfl
  obtain ⟨inner, qs, hl⟩ : Role.expression.Arranged l :=
    arranged_of_formed (hquotable.part (by simp [Node.parts]))
  obtain ⟨right, _, hr⟩ : Role.expression.Arranged r :=
    arranged_of_formed (hquotable.part (by simp [Node.parts]))
  obtain ⟨right', htext⟩ := power_text l r inner right
  have hbinary : Script.expression (.binary s "**" l r) = .ok (binaryText "**" l r inner right) :=
    bind_eq_ok hl.text_eq (bind_eq_ok hr.text_eq rfl)
  rw [hlaid.text_eq, htext] at hbinary
  cases hbinary
  refine ⟨inner, _, right', hl.text_eq, rfl, ?_⟩
  cases hwraps : wrapsLeftOfPower l with
  | true => exact .inl rfl
  | false => exact .inr ⟨rfl, unsigned_left_of_power hl hwraps⟩

/-! ## What the parser gives -/

theorem Cursor.ahead_ofTokens_subset (tokens : List Token) : (ofTokens tokens).ahead ⊆ tokens := by
  unfold ofTokens
  split
  · exact List.nil_subset _
  · split
    · exact List.dropLast_subset tokens
    · exact List.Subset.refl tokens

/-- Generated expressions are read in one way, in a program and wherever the parser finds an
expression among the tokens of a source text. -/
theorem expressions_read_one_way :
    (∀ source p, parseSource source = .ok p →
      Node.Everywhere (fun _ n => n.ReadsOneWay) .program p) ∧
    (∀ source c n d, (∀ t ∈ c.ahead, t ∈ tokenize source) → Parser.expression.Gives c n d →
      Node.Everywhere (fun _ n => n.ReadsOneWay) .expression n) := by
  constructor
  · intro source p hp
    have hlexical : ∀ t ∈ sentence (tokenize source), Lexical t := fun t ht =>
      (tokenForm_of_sentence ht).1.lexical
    exact (formed_of_tokens hp hlexical).everywhere.mono fun _ _ => readsOneWay_of_formed
  · intro source c n d hahead h
    obtain ⟨w, hw, hphrase⟩ := Parser.expression_forms h
    have hlexical : ∀ t ∈ w, Lexical t := by
      intro t ht
      obtain ⟨u, hu, rfl, hkind⟩ := hw.of_ahead t ht
      rcases tokenForm_or_end (hahead u hu) with hform | hend
      · exact hform.lexical
      · exact absurd (congrArg Terminal.kind hend) hkind
    have hformed : Node.Everywhere (Formed Lexical) .expression n :=
      .of_bare (fun _ _ => Formed.of_bare) (Phrase.formed hphrase hlexical)
    exact hformed.everywhere.mono fun _ _ => readsOneWay_of_formed

/-- Signs that would run together, a point after an integer, a sign before a power, and a string that
looks like a comment. -/
def crowded : String := "-(-甲) + 1.乙 * (-丙) ** '//'"

theorem crowded_reads_one_way :
    ∃ p n d, parseSource crowded = .ok p ∧ Node.Everywhere (fun _ n => n.ReadsOneWay) .program p ∧
      Parser.expression.Gives (.ofTokens (tokenize crowded)) n d ∧
      Unambiguous n "-(-甲) + (1).乙 * (-丙) ** \"//\"" := by
  obtain ⟨p, hp⟩ : ∃ p, parseSource crowded = .ok p := ⟨_, rfl⟩
  obtain ⟨n, d, hn⟩ : ∃ n d, Parser.expression.Gives (.ofTokens (tokenize crowded)) n d := ⟨_, _, rfl⟩
  have hahead : ∀ t ∈ (Cursor.ofTokens (tokenize crowded)).ahead, t ∈ tokenize crowded :=
    fun _ ht => Cursor.ahead_ofTokens_subset _ ht
  have hfacts : (Parser.expression (.ofTokens (tokenize crowded))).1.toOption.any fun n =>
      n.isExpression ∧ (n.texts.all fun x => '\\' ∉ x.toList) ∧
        (Script.expression n).toOption = some "-(-甲) + (1).乙 * (-丙) ** \"//\"" := by decide
  have hrun : Parser.expression (.ofTokens (tokenize crowded)) = (.ok n, d) := hn
  obtain ⟨hexpression, htexts, htext⟩ : n.isExpression ∧ (∀ x ∈ n.texts, '\\' ∉ x.toList) ∧
      (Script.expression n).toOption = some "-(-甲) + (1).乙 * (-丙) ** \"//\"" := by
    simpa [hrun, Except.toOption] using hfacts
  have heverywhere := expressions_read_one_way.2 crowded _ n d hahead hn
  obtain ⟨text, hunambiguous⟩ := heverywhere.here hexpression htexts
  rw [hunambiguous.renders] at htext
  cases htext
  exact ⟨p, n, d, hp, expressions_read_one_way.1 crowded p hp, hn, hunambiguous⟩

end HanScript
