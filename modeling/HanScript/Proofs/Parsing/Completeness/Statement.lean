-- What the grammar calls a statement the parser takes as one, before a token
-- of the kind that the grammar allows there, and so with whole programs.
import HanScript.Proofs.Grammar.Statement
import HanScript.Proofs.Parsing.Completeness.Expression

namespace HanScript.Parser

open Grammar

/-! ## Parts of statements -/

section Parts

variable {next : TokenKind} {w v : List Terminal} {n : Node} {c d : Cursor} {k : Nat}

theorem terminator_gives (h : Terminator next v) (hp : c.Passes v d) (hd : d.current.kind = next) :
    terminator.Gives c () d := by
  simp only [terminator, bind_gives]
  cases h with
  | semicolon => exact ⟨true, d, accept_of_passes hp, pure_gives.mpr ⟨rfl, rfl⟩⟩
  | leftOut hn =>
    obtain rfl := Cursor.passes_nil.mp hp
    have hs : d.current.kind ≠ .semicolon := by
      rcases hn with hn | hn <;> simp [hd, hn]
    refine ⟨false, d, accept_of_ne hs, bind_gives.mpr ⟨true, d, isAtAny_gives.mpr ⟨?_, rfl⟩, ?_⟩⟩
    · rcases hn with hn | hn <;> simp [hd, hn]
    · exact pure_gives.mpr ⟨rfl, rfl⟩

/-- What ends a statement does not make an expression longer. -/
theorem ends_before_terminator (h : Terminator next v) (hp : c.Passes v d)
    (hd : d.current.kind = next) : c.current.kind ∈ [.semicolon, .rightBrace, .eof] := by
  cases h with
  | semicolon => simp [hp.kind]
  | leftOut hn =>
    obtain rfl := Cursor.passes_nil.mp hp
    rcases hn with hn | hn <;> simp [hd, hn]

theorem not_continuing_of_end {kind : TokenKind} (h : kind ∈ [.semicolon, .rightBrace, .eof]) :
    kind ∉ .comma :: Level.assignment.continuing := by
  have hall : ∀ kind ∈ [.semicolon, .rightBrace, .eof],
      kind ∉ .comma :: Level.assignment.continuing := by decide
  exact hall kind h

theorem identifier_finds (h : Word w n) : Finds identifier Node.bare k (fun _ => True) w n := by
  intro c d _ hp _
  cases h with
  | mk => exact ⟨_, identifier_gives.mpr ⟨_, hp, rfl⟩, rfl⟩

theorem avoids_of_word {kinds : List TokenKind} (h : Word w n) (hk : .identifier ∉ kinds) :
    Avoids kinds w := by
  cases h with
  | mk => exact ⟨_, [], rfl, hk⟩

theorem declared_finds (h : Grammar.Target w n) : Finds declared Node.bare k (fun _ => True) w n := by
  intro c d hk hp _
  simp only [declared, bind_gives, isAt_gives]
  cases h with
  | name hw =>
    obtain ⟨q, hq, rfl⟩ := identifier_finds hw hk hp trivial
    have hb : c.current.kind ∉ [.leftBracket] := hp.avoids (avoids_of_word hw (by decide))
    exact ⟨q, ⟨false, c, ⟨by simpa using hb, rfl⟩, hq⟩, rfl⟩
  | pattern hw =>
    obtain ⟨⟨span, qs⟩, hqs, rfl⟩ := bracketed_finds (k := k) (fun _ _ h => identifier_finds h)
      trivial trivial (fun _ _ h => avoids_of_word h (by decide)) hw (Nat.le_succ_of_le hk) hp trivial
    refine ⟨.arrayPattern span qs, ⟨true, c, ⟨decide_eq_true hp.kind, rfl⟩, ?_⟩, by simp [Node.bare]⟩
    simp only [if_true, arrayPattern, bind_gives, pure_gives]
    exact ⟨_, d, hqs, rfl, rfl⟩

theorem declarator_finds (h : Declarator w n) :
    Finds declarator Node.bare k (· ∉ Level.assignment.continuing) w n := by
  intro c d hk hp hd
  simp only [declarator, initializer, bind_gives, peek_gives, spanFrom_gives, pure_gives]
  cases h with
  | plain ht =>
    obtain ⟨t, hq, rfl⟩ := declared_finds ht hk hp trivial
    have ha : d.current.kind ≠ .assign := fun he => hd (by rw [he]; decide)
    exact ⟨.declarator (d.spanFrom c.current.span) t .absent, ⟨_, c, ⟨rfl, rfl⟩, t, d, hq, .absent, d,
      ⟨false, d, accept_of_ne ha, pure_gives.mpr ⟨rfl, rfl⟩⟩, _, d, ⟨rfl, rfl⟩, rfl, rfl⟩,
      by simp [Node.bare]⟩
  | given ht he =>
    obtain ⟨c₁, hpt, hp⟩ := Cursor.passes_append.mp hp
    obtain ⟨c₂, hpa, hpe⟩ := Cursor.passes_head.mp hp
    obtain ⟨t, hq, rfl⟩ := declared_finds ht hk hpt trivial
    obtain ⟨e, hqe, rfl⟩ := expression_finds he c₂.left (Nat.le_refl _) hpe hd
    exact ⟨.declarator (d.spanFrom c.current.span) t e, ⟨_, c, ⟨rfl, rfl⟩, t, c₁, hq, e, d,
      ⟨true, c₂, accept_of_passes hpa, hqe⟩, _, d, ⟨rfl, rfl⟩, rfl, rfl⟩, by simp [Node.bare]⟩

/-- The declarators of a declaration, and the word that it declares them with. -/
theorem declaration_gives {kind : TokenKind} {x : String} {ns : List Node}
    (h : Separated Declarator w ns) (hp : c.Passes (⟨kind, x⟩ :: w) d)
    (hd : d.current.kind ∉ .comma :: Level.assignment.continuing) :
    ∃ q, declaration.Gives c q d ∧
      q.bare = .declaration {} (if kind = .constWord then "const" else "let") ns := by
  obtain ⟨c₁, hpx, hpw⟩ := Cursor.passes_head.mp hp
  obtain ⟨qs, hqs, rfl⟩ := separated_finds (fun _ _ h => declarator_finds h) (by decide) h
    (Nat.le_refl _) hpw ⟨fun hm => hd (List.mem_cons_of_mem _ hm), fun he => hd (by simp [he])⟩
  refine ⟨.declaration (d.spanFrom c.current.span)
    (if c.current.kind = .constWord then "const" else "let") qs, ?_, by simp [Node.bare, hp.kind]⟩
  simp only [declaration, bind_gives, advance_gives, spanFrom_gives, pure_gives]
  exact ⟨_, c₁, ⟨rfl, hpx.2.2.symm⟩, qs, d, hqs, _, d, ⟨rfl, rfl⟩, rfl, rfl⟩

theorem declaration_finds (h : Declaration w n) :
    Finds declaration Node.bare k (· ∉ .comma :: Level.assignment.continuing) w n := by
  intro c d _ hp hd
  cases h with
  | changing hw => exact declaration_gives hw hp hd
  | constant hw => exact declaration_gives hw hp hd

theorem returned_finds (h : Optional w n) :
    Finds returned Node.bare k (· ∈ [.semicolon, .rightBrace, .eof]) w n := by
  intro c d _ hp hd
  simp only [returned, bind_gives, isAtAny_gives]
  cases h with
  | leftOut =>
    obtain rfl := Cursor.passes_nil.mp hp
    exact ⟨.absent, ⟨true, d, ⟨decide_eq_true hd, rfl⟩, pure_gives.mpr ⟨rfl, rfl⟩⟩, rfl⟩
  | given he =>
    obtain ⟨e, hq, rfl⟩ := expression_finds he c.left (Nat.le_refl _) hp fun hm =>
      not_continuing_of_end hd (List.mem_cons_of_mem _ hm)
    exact ⟨e, ⟨false, c, ⟨decide_eq_false (hp.avoids (he.avoids (by decide))), rfl⟩, hq⟩, rfl⟩

theorem optional_finds {close : TokenKind} (h : Optional w n)
    (hopen : close ∉ (Form.expression .assignment).openers)
    (hclose : close ∉ Level.assignment.continuing) :
    Finds (Rule.optional close) Node.bare k (· = close) w n := by
  intro c d _ hp hd
  simp only [Rule.optional, bind_gives, isAt_gives]
  cases h with
  | leftOut =>
    obtain rfl := Cursor.passes_nil.mp hp
    exact ⟨.absent, ⟨true, d, ⟨decide_eq_true hd, rfl⟩, pure_gives.mpr ⟨rfl, rfl⟩⟩, rfl⟩
  | given he =>
    obtain ⟨e, hq, rfl⟩ := expression_finds he c.left (Nat.le_refl _) hp (by rw [hd]; exact hclose)
    have hfirst : c.current.kind ∉ [close] := hp.avoids (he.avoids (by
      intro kind hk hm
      rw [List.mem_singleton.mp hm] at hk
      exact hopen hk))
    exact ⟨e, ⟨false, c, ⟨by simpa using hfirst, rfl⟩, hq⟩, rfl⟩

theorem initialPart_finds (h : Initial w n) :
    Finds Rule.initialPart Node.bare k (· = .semicolon) w n := by
  intro c d hk hp hd
  simp only [Rule.initialPart, bind_gives, isAtAny_gives]
  cases h with
  | declaration hw =>
    obtain ⟨q, hq, hn⟩ := declaration_finds hw hk hp (by rw [hd]; decide)
    refine ⟨q, ⟨true, c, ⟨decide_eq_true ?_, rfl⟩, hq⟩, hn⟩
    cases hw <;> simp [hp.kind]
  | expression hw =>
    obtain ⟨q, hq, hn⟩ := optional_finds hw (by decide) (by decide) hk hp hd
    refine ⟨q, ⟨false, c, ⟨decide_eq_false ?_, rfl⟩, hq⟩, hn⟩
    cases hw with
    | leftOut =>
      obtain rfl := Cursor.passes_nil.mp hp
      rw [hd]
      decide
    | given he => exact hp.avoids (he.avoids (by decide))

theorem importSpecifier_finds (h : Specifier w n) :
    Finds importSpecifier Node.bare k (fun _ => True) w n := by
  intro c d _ hp _
  cases h with
  | @mk x =>
    refine ⟨.importSpecifier (d.spanFrom (d.spanFrom c.current.span))
      (.identifier (d.spanFrom c.current.span) x) (.identifier (d.spanFrom c.current.span) x), ?_, rfl⟩
    simp only [importSpecifier, bind_gives, spanFrom_gives, pure_gives]
    exact ⟨_, d, identifier_gives.mpr ⟨x, hp, rfl⟩, _, d, ⟨rfl, rfl⟩, rfl, rfl⟩

theorem condition_finds (h : Condition w n) :
    Finds Rule.condition Node.bare k (fun _ => True) w n := by
  intro c d _ hp _
  cases h with
  | mk he =>
    obtain ⟨c₁, hpl, hp⟩ := Cursor.passes_head.mp hp
    obtain ⟨c₂, hpe, hpr⟩ := Cursor.passes_append.mp hp
    obtain ⟨e, hq, rfl⟩ := expression_finds he c₁.left (Nat.le_refl _) hpe (hpr.not_mem (by decide))
    refine ⟨e, ?_, rfl⟩
    simp only [Rule.condition, bind_gives, pure_gives]
    exact ⟨_, c₁, expect_of_passes hpl, e, c₂, hq, _, d, expect_of_passes hpr, rfl, rfl⟩

end Parts

/-! ## Statements -/

/-- The parser finds the statement before a token of kind `next`. A branch is found after the
word that leads to it. -/
def StatementFound : Part → TokenKind → List Terminal → Node → Prop
  | .statement, next, w, n => ∀ b,
    Finds (Rule.statement (innerStatement b)) Node.bare b.length (· = next) w n
  | .branch, next, w, n => ∀ b t,
    Finds (Rule.ifElse (innerStatement b)) Node.bare b.length (· = next) (t :: w) n

/-- The tokens form the statement before a token of kind `next`, and the parser finds it. -/
def FoundStatement (next : TokenKind) (w : List Terminal) (n : Node) : Prop :=
  ∃ _ : Statement .statement next w n, StatementFound .statement next w n

namespace FoundStatement

variable {next : TokenKind} {w : List Terminal} {n : Node} (h : FoundStatement next w n)

include h

theorem found : StatementFound .statement next w n := h.2

theorem avoids {kinds : List TokenKind}
    (hk : ∀ kind ∈ kinds, kind ∈ followingKinds) : Avoids kinds w :=
  h.1.avoids hk

theorem ne_nil : w ≠ [] := (h.avoids (List.forall_mem_nil _)).ne_nil

end FoundStatement

section Statements

variable {b : List Token} {k : Nat} {next : TokenKind} {w v u : List Terminal} {n m e : Node}
  {ns : List Node} {x y : String}

theorem inner_statement_finds (hk : k < b.length) (h : StatementFound .statement next w n) :
    Finds (innerStatement b).statement Node.bare k (· = next) w n := by
  cases b with
  | nil => simp at hk
  | cons t b =>
    intro c d hc hp hd
    rw [innerStatement]
    exact h b (Nat.le_trans hc (Nat.le_of_lt_succ hk)) hp hd

theorem inner_ifElse_finds (hk : k < b.length) (h : StatementFound .branch next w n) (t : Terminal) :
    Finds (innerStatement b).ifElse Node.bare k (· = next) (t :: w) n := by
  cases b with
  | nil => simp at hk
  | cons t' b =>
    intro c d hc hp hd
    rw [innerStatement]
    exact h b t (Nat.le_trans hc (Nat.le_of_lt_succ hk)) hp hd

/-- The statements of a block are taken up to the brace that closes it. -/
theorem block_finds (h : Sequence FoundStatement .rightBrace w ns) :
    Finds (Rule.block (innerStatement b)) Node.bare b.length (fun _ => True)
      (⟨.leftBrace, x⟩ :: w ++ [⟨.rightBrace, y⟩]) (.block {} ns) := by
  intro c d hk hp _
  obtain ⟨c₁, hpl, hp⟩ := Cursor.passes_head.mp hp
  obtain ⟨c₂, hpw, hpr⟩ := Cursor.passes_append.mp hp
  have hlt : c₁.left < b.length := by
    have := hpl.left_lt (by simp)
    omega
  obtain ⟨qs, hqs, rfl⟩ := manyWhile_finds (fun c => c.current.kind ∉ [.rightBrace, .eof])
    (fun _ _ _ hw => ⟨hw.ne_nil, inner_statement_finds hlt hw.found⟩)
    (fun _ _ _ _ _ hw hp _ => decide_eq_true (hp.avoids (hw.avoids (by decide)))) h
    (Nat.le_refl _) hpw hpr.kind (by simp [hpr.kind])
  refine ⟨.block (d.spanFrom c.current.span) qs, ?_, by simp [Node.bare]⟩
  simp only [Rule.block, bind_gives, spanFrom_gives, pure_gives]
  exact ⟨_, c₁, expect_of_passes hpl, qs, c₂, hqs, _, d, expect_of_passes hpr, _, d, ⟨rfl, rfl⟩, rfl, rfl⟩

theorem found_declaration (hw : Declaration w n) (hv : Terminator next v) :
    StatementFound .statement next (w ++ v) n := by
  intro b c d _ hp hd
  obtain ⟨c₁, hpw, hpv⟩ := Cursor.passes_append.mp hp
  have hend := not_continuing_of_end (ends_before_terminator hv hpv hd)
  obtain ⟨q, hq, hn⟩ := declaration_finds hw (Nat.le_refl _) hpw hend
  refine ⟨q, bind_gives.mpr ⟨_, c, peek_gives.mpr ⟨rfl, rfl⟩, ?_⟩, hn⟩
  cases hw with
  | _ =>
    simp only [hpw.kind, bind_gives, pure_gives]
    exact ⟨q, c₁, hq, (), d, terminator_gives hv hpv hd, rfl, rfl⟩

theorem found_function {kind : TokenKind} {ps : List Node} {name p q r s t : String}
    (hk : kind = .functionWord ∨ kind = .componentWord) (hv : SeparatedOrNone Word v ps)
    (hw : Sequence FoundStatement .rightBrace w ns) :
    StatementFound .statement next
      (⟨kind, p⟩ :: ⟨.identifier, name⟩ :: ⟨.leftParen, q⟩ :: v
        ++ ⟨.rightParen, r⟩ :: ⟨.leftBrace, s⟩ :: w ++ [⟨.rightBrace, t⟩])
      (.function {} (.identifier {} name) ps (.block {} ns)) := by
  intro b c d hb hp _
  simp only [List.cons_append, List.append_assoc] at hp
  have hfirst := hp.kind
  obtain ⟨c₁, hpf, hp⟩ := Cursor.passes_head.mp hp
  obtain ⟨c₂, hpn, hp⟩ := Cursor.passes_head.mp hp
  obtain ⟨c₃, hpl, hp⟩ := Cursor.passes_head.mp hp
  obtain ⟨c₄, hpv, hp⟩ := Cursor.passes_append.mp hp
  obtain ⟨c₅, hpr, hp⟩ := Cursor.passes_head.mp hp
  have hr : c₄.current.kind = .rightParen := hpr.kind
  obtain ⟨ps, hps, rfl⟩ := separatedUntil_finds (fun _ _ h => identifier_finds h) trivial
    (fun _ _ h => avoids_of_word h (by decide)) (by decide) trivial hv (Nat.le_refl _) hpv hr
  have hle : c₅.left ≤ b.length := by
    have := hpf.left_le
    have := hpn.left_le
    have := hpl.left_le
    have := hpv.left_le
    have := hpr.left_le
    omega
  obtain ⟨body, hbody, hbare⟩ := block_finds hw hle hp trivial
  refine ⟨.function (d.spanFrom c.current.span) (.identifier (c₂.spanFrom c₁.current.span) name) ps
    body, bind_gives.mpr ⟨_, c, peek_gives.mpr ⟨rfl, rfl⟩, ?_⟩, by simp [Node.bare, hbare]⟩
  have hrule : (Rule.function (innerStatement b)).Gives c (.function (d.spanFrom c.current.span)
      (.identifier (c₂.spanFrom c₁.current.span) name) ps body) d := by
    simp only [Rule.function, bind_gives, advance_gives, spanFrom_gives, pure_gives]
    exact ⟨_, c₁, ⟨rfl, hpf.2.2.symm⟩, _, c₂, identifier_gives.mpr ⟨name, hpn, rfl⟩, _, c₃,
      expect_of_passes hpl, ps, c₄, hps, _, c₅, expect_of_passes hpr, body, d, hbody, _, d, ⟨rfl, rfl⟩,
      rfl, rfl⟩
  rcases hk with rfl | rfl
  · simpa only [hfirst] using hrule
  · simpa only [hfirst] using hrule

theorem found_block (hw : Sequence FoundStatement .rightBrace w ns) :
    StatementFound .statement next (⟨.leftBrace, x⟩ :: w ++ [⟨.rightBrace, y⟩]) (.block {} ns) := by
  intro b c d hk hp _
  obtain ⟨q, hq, hn⟩ := block_finds hw hk hp trivial
  exact ⟨q, bind_gives.mpr ⟨_, c, peek_gives.mpr ⟨rfl, rfl⟩, by simpa only [hp.kind] using hq⟩, hn⟩

theorem found_ifElse (hw : StatementFound .branch next w n) :
    StatementFound .statement next (⟨.ifWord, x⟩ :: w) n := by
  intro b c d hk hp hd
  obtain ⟨q, hq, hn⟩ := hw b _ hk hp hd
  exact ⟨q, bind_gives.mpr ⟨_, c, peek_gives.mpr ⟨rfl, rfl⟩, by simpa only [hp.kind] using hq⟩, hn⟩

theorem found_whileLoop (hw : Condition w e) (hv : StatementFound .statement next v n) :
    StatementFound .statement next (⟨.whileWord, x⟩ :: w ++ v) (.whileLoop {} e n) := by
  intro b c d hk hp hd
  have hfirst := hp.kind
  obtain ⟨c₁, hpx, hp⟩ := Cursor.passes_head.mp hp
  obtain ⟨c₂, hpw, hpv⟩ := Cursor.passes_append.mp hp
  have hlt : c₂.left < b.length := by
    have := hpx.left_lt (by simp)
    have := hpw.left_le
    omega
  obtain ⟨test, ht, rfl⟩ := condition_finds hw (Nat.le_refl _) hpw trivial
  obtain ⟨body, hbody, rfl⟩ := inner_statement_finds hlt hv (Nat.le_refl _) hpv hd
  refine ⟨.whileLoop (d.spanFrom c.current.span) test body,
    bind_gives.mpr ⟨_, c, peek_gives.mpr ⟨rfl, rfl⟩, ?_⟩, by simp [Node.bare]⟩
  simp only [hfirst, Rule.whileLoop, bind_gives, advance_gives, spanFrom_gives, pure_gives]
  exact ⟨_, c₁, ⟨rfl, hpx.2.2.symm⟩, test, c₂, ht, body, d, hbody, _, d, ⟨rfl, rfl⟩, rfl, rfl⟩

theorem found_forLoop {i t : List Terminal} {a a' a'' : Node} {p q r s z : String} (hi : Initial i a)
    (ht : Optional t a') (hu : Optional u a'') (hw : StatementFound .statement next w n) :
    StatementFound .statement next
      (⟨.forWord, p⟩ :: ⟨.leftParen, q⟩ :: i ++ ⟨.semicolon, r⟩ :: t ++ ⟨.semicolon, s⟩ :: u
        ++ ⟨.rightParen, z⟩ :: w)
      (.forLoop {} a a' a'' n) := by
  intro b c d hk hp hd
  simp only [List.cons_append, List.append_assoc] at hp
  have hfirst := hp.kind
  obtain ⟨c₁, hpf, hp⟩ := Cursor.passes_head.mp hp
  obtain ⟨c₂, hpl, hp⟩ := Cursor.passes_head.mp hp
  obtain ⟨c₃, hpi, hp⟩ := Cursor.passes_append.mp hp
  obtain ⟨c₄, hps, hp⟩ := Cursor.passes_head.mp hp
  obtain ⟨c₅, hpt, hp⟩ := Cursor.passes_append.mp hp
  obtain ⟨c₆, hps', hp⟩ := Cursor.passes_head.mp hp
  obtain ⟨c₇, hpu, hp⟩ := Cursor.passes_append.mp hp
  obtain ⟨c₈, hpr, hpw⟩ := Cursor.passes_head.mp hp
  have hlt : c₈.left < b.length := by
    have := hpf.left_lt (by simp)
    have := hpl.left_le
    have := hpi.left_le
    have := hps.left_le
    have := hpt.left_le
    have := hps'.left_le
    have := hpu.left_le
    have := hpr.left_le
    omega
  have hr : c₇.current.kind = .rightParen := hpr.kind
  obtain ⟨ia, hia, rfl⟩ := initialPart_finds hi (Nat.le_refl _) hpi hps.kind
  have hs : c₅.current.kind = .semicolon := hps'.kind
  obtain ⟨ta, hta, rfl⟩ := optional_finds ht (by decide) (by decide) (Nat.le_refl _) hpt hs
  obtain ⟨ua, hua, rfl⟩ := optional_finds hu (by decide) (by decide) (Nat.le_refl _) hpu hr
  obtain ⟨body, hbody, rfl⟩ := inner_statement_finds hlt hw (Nat.le_refl _) hpw hd
  refine ⟨.forLoop (d.spanFrom c.current.span) ia ta ua body,
    bind_gives.mpr ⟨_, c, peek_gives.mpr ⟨rfl, rfl⟩, ?_⟩, by simp [Node.bare]⟩
  simp only [hfirst, Rule.forLoop, bind_gives, advance_gives, spanFrom_gives, pure_gives]
  exact ⟨_, c₁, ⟨rfl, hpf.2.2.symm⟩, _, c₂, expect_of_passes hpl, ia, c₃, hia, _, c₄,
    expect_of_passes hps, ta, c₅, hta, _, c₆, expect_of_passes hps', ua, c₇, hua, _, c₈,
    expect_of_passes hpr, body, d, hbody, _, d, ⟨rfl, rfl⟩, rfl, rfl⟩

theorem found_returning (hw : Optional w n) (hv : Terminator next v) :
    StatementFound .statement next (⟨.returnWord, x⟩ :: w ++ v) (.returning {} n) := by
  intro b c d _ hp hd
  have hfirst := hp.kind
  obtain ⟨c₁, hpx, hp⟩ := Cursor.passes_head.mp hp
  obtain ⟨c₂, hpw, hpv⟩ := Cursor.passes_append.mp hp
  obtain ⟨e, he, rfl⟩ := returned_finds hw (Nat.le_refl _) hpw (ends_before_terminator hv hpv hd)
  refine ⟨.returning (d.spanFrom c.current.span) e,
    bind_gives.mpr ⟨_, c, peek_gives.mpr ⟨rfl, rfl⟩, ?_⟩, by simp [Node.bare]⟩
  simp only [hfirst, returning, bind_gives, advance_gives, spanFrom_gives, pure_gives]
  exact ⟨_, c₁, ⟨rfl, hpx.2.2.symm⟩, e, c₂, he, (), d, terminator_gives hv hpv hd, _, d, ⟨rfl, rfl⟩, rfl,
    rfl⟩

/-- A word and what ends the statement are a statement of one word. -/
theorem single_gives {node : Span → Node} {kind : TokenKind} {c d : Cursor} (hv : Terminator next v)
    (hp : c.Passes (⟨kind, x⟩ :: v) d) (hd : d.current.kind = next) :
    (single node).Gives c (node (d.spanFrom c.current.span)) d := by
  obtain ⟨c₁, hpx, hpv⟩ := Cursor.passes_head.mp hp
  simp only [single, bind_gives, advance_gives, spanFrom_gives, pure_gives]
  exact ⟨_, c₁, ⟨rfl, hpx.2.2.symm⟩, (), d, terminator_gives hv hpv hd, _, d, ⟨rfl, rfl⟩, rfl, rfl⟩

theorem found_breaking (hv : Terminator next v) :
    StatementFound .statement next (⟨.breakWord, x⟩ :: v) (.breaking {}) := by
  intro b c d _ hp hd
  refine ⟨.breaking (d.spanFrom c.current.span),
    bind_gives.mpr ⟨_, c, peek_gives.mpr ⟨rfl, rfl⟩, ?_⟩, rfl⟩
  simp only [hp.kind]
  exact single_gives hv hp hd

theorem found_continuing (hv : Terminator next v) :
    StatementFound .statement next (⟨.continueWord, x⟩ :: v) (.continuing {}) := by
  intro b c d _ hp hd
  refine ⟨.continuing (d.spanFrom c.current.span),
    bind_gives.mpr ⟨_, c, peek_gives.mpr ⟨rfl, rfl⟩, ?_⟩, rfl⟩
  simp only [hp.kind]
  exact single_gives hv hp hd

theorem found_importing {p q r s source : String} (hw : Listed Specifier w ns)
    (hv : Terminator next v) :
    StatementFound .statement next
      (⟨.importWord, p⟩ :: ⟨.leftBrace, q⟩ :: w
        ++ ⟨.rightBrace, r⟩ :: ⟨.fromWord, s⟩ :: ⟨.string, source⟩ :: v)
      (.importing {} ns (.literal {} (.text source) source false)) := by
  intro b c d _ hp hd
  simp only [List.cons_append] at hp
  have hfirst := hp.kind
  obtain ⟨c₁, hpi, hp⟩ := Cursor.passes_head.mp hp
  obtain ⟨c₂, hpl, hp⟩ := Cursor.passes_head.mp hp
  obtain ⟨c₃, hpw, hp⟩ := Cursor.passes_append.mp hp
  obtain ⟨c₄, hpr, hp⟩ := Cursor.passes_head.mp hp
  obtain ⟨c₅, hpf, hp⟩ := Cursor.passes_head.mp hp
  obtain ⟨c₆, hps, hpv⟩ := Cursor.passes_head.mp hp
  have hr : c₃.current.kind = .rightBrace := hpr.kind
  obtain ⟨qs, hqs, rfl⟩ := listUntil_finds (fun _ _ h => importSpecifier_finds h) trivial
    (fun _ _ h => by cases h; exact ⟨_, [], rfl, by simp⟩) (by decide) trivial hw (Nat.le_refl _) hpw hr
  refine ⟨.importing (d.spanFrom c.current.span) qs
    (.literal (c₆.spanFrom c₅.current.span) (.text source) source false),
    bind_gives.mpr ⟨_, c, peek_gives.mpr ⟨rfl, rfl⟩, ?_⟩, by simp [Node.bare]⟩
  simp only [hfirst, importing, bind_gives, advance_gives, spanFrom_gives, pure_gives]
  refine ⟨_, c₁, ⟨rfl, hpi.2.2.symm⟩, _, c₂, expect_of_passes hpl, qs, c₃, hqs, _, c₄,
    expect_of_passes hpr, _, c₅, expect_of_passes hpf, _, c₆, expect_of_passes hps, _, c₆, ⟨rfl, rfl⟩,
    (), d, terminator_gives hv hpv hd, _, d, ⟨rfl, rfl⟩, ?_, rfl⟩
  rw [hps.value]

theorem found_exporting (hw : Statement .statement next w n) (h : StatementFound .statement next w n) :
    StatementFound .statement next (⟨.exportWord, x⟩ :: w) (.exporting {} n false) := by
  intro b c d hk hp hd
  have hfirst := hp.kind
  obtain ⟨c₁, hpx, hpw⟩ := Cursor.passes_head.mp hp
  have hlt : c₁.left < b.length := by
    have := hpx.left_lt (by simp)
    omega
  obtain ⟨q, hq, rfl⟩ := inner_statement_finds hlt h (Nat.le_refl _) hpw hd
  have hdefault : c₁.current.kind ∉ [.defaultWord] :=
    hpw.avoids (hw.avoids (by decide))
  refine ⟨.exporting (d.spanFrom c.current.span) q false,
    bind_gives.mpr ⟨_, c, peek_gives.mpr ⟨rfl, rfl⟩, ?_⟩, by simp [Node.bare]⟩
  simp only [hfirst, Rule.exporting, bind_gives, advance_gives, spanFrom_gives, pure_gives]
  exact ⟨_, c₁, ⟨rfl, hpx.2.2.symm⟩, false, c₁, accept_of_ne (by simpa using hdefault), q, d, hq, _, d, ⟨rfl, rfl⟩, rfl,
    rfl⟩

theorem found_exportingDefault (h : StatementFound .statement next w n) :
    StatementFound .statement next (⟨.exportWord, x⟩ :: ⟨.defaultWord, y⟩ :: w)
      (.exporting {} n true) := by
  intro b c d hk hp hd
  have hfirst := hp.kind
  obtain ⟨c₁, hpx, hp⟩ := Cursor.passes_head.mp hp
  obtain ⟨c₂, hpy, hpw⟩ := Cursor.passes_head.mp hp
  have hlt : c₂.left < b.length := by
    have := hpx.left_lt (by simp)
    have := hpy.left_le
    omega
  obtain ⟨q, hq, rfl⟩ := inner_statement_finds hlt h (Nat.le_refl _) hpw hd
  refine ⟨.exporting (d.spanFrom c.current.span) q true,
    bind_gives.mpr ⟨_, c, peek_gives.mpr ⟨rfl, rfl⟩, ?_⟩, by simp [Node.bare]⟩
  simp only [hfirst, Rule.exporting, bind_gives, advance_gives, spanFrom_gives, pure_gives]
  exact ⟨_, c₁, ⟨rfl, hpx.2.2.symm⟩, true, c₂, accept_of_passes hpy, q, d, hq, _, d, ⟨rfl, rfl⟩, rfl, rfl⟩

theorem found_expression (hw : Phrase (.expression .assignment) w n)
    (hs : follower w .eof ∉ statementKinds) (hv : Terminator next v) :
    StatementFound .statement next (w ++ v) (.expressionStatement {} n) := by
  intro b c d _ hp hd
  obtain ⟨c₁, hpw, hpv⟩ := Cursor.passes_append.mp hp
  have hend := not_continuing_of_end (ends_before_terminator hv hpv hd)
  obtain ⟨q, hq, rfl⟩ := expression_finds hw c.left (Nat.le_refl _) hpw
    fun hm => hend (List.mem_cons_of_mem _ hm)
  have hrule : expressionStatement.Gives c (.expressionStatement (d.spanFrom q.span) q) d := by
    simp only [expressionStatement, bind_gives, spanFrom_gives, pure_gives]
    exact ⟨q, c₁, hq, (), d, terminator_gives hv hpv hd, _, d, ⟨rfl, rfl⟩, rfl, rfl⟩
  refine ⟨.expressionStatement (d.spanFrom q.span) q,
    bind_gives.mpr ⟨_, c, peek_gives.mpr ⟨rfl, rfl⟩, ?_⟩, by simp [Node.bare]⟩
  rw [follower_of_ne_nil hw.ne_nil _ c₁.current.kind, ← hpw.current] at hs
  simp only [statementKinds, List.mem_cons, List.not_mem_nil, or_false, not_or] at hs
  split
  case h_14 => exact hrule
  all_goals simp_all

/-! ### Branches -/

/-- A branch, from the word that leads to it on. -/
theorem ifElse_gives {c c₁ c₂ c₃ d : Cursor} {test yes no : Node} {t : Terminal}
    (hp : c.Passes [t] c₁) (ht : Rule.condition.Gives c₁ test c₂)
    (hy : (innerStatement b).statement.Gives c₂ yes c₃)
    (hno : (Rule.alternate (innerStatement b)).Gives c₃ no d) :
    (Rule.ifElse (innerStatement b)).Gives c
      (.ifElse (d.spanFrom c.current.span) test yes no) d := by
  simp only [Rule.ifElse, bind_gives, advance_gives, spanFrom_gives, pure_gives]
  exact ⟨_, c₁, ⟨rfl, hp.2.2.symm⟩, test, c₂, ht, yes, c₃, hy, no, d, hno, _, d, ⟨rfl, rfl⟩, rfl, rfl⟩

theorem found_alone (hw : Condition w e) (hv : StatementFound .statement next v n)
    (he : next ≠ .elseWord) (hi : next ≠ .elseIfWord) :
    StatementFound .branch next (w ++ v) (.ifElse {} e n .absent) := by
  intro b t c d hk hp hd
  obtain ⟨c₁, hpx, hp⟩ := Cursor.passes_head.mp hp
  obtain ⟨c₂, hpw, hpv⟩ := Cursor.passes_append.mp hp
  have hlt : c₂.left < b.length := by
    have := hpx.left_lt (by simp)
    have := hpw.left_le
    omega
  obtain ⟨test, ht, rfl⟩ := condition_finds hw (Nat.le_refl _) hpw trivial
  obtain ⟨yes, hy, rfl⟩ := inner_statement_finds hlt hv (Nat.le_refl _) hpv hd
  have hno : (Rule.alternate (innerStatement b)).Gives d .absent d := by
    refine bind_gives.mpr ⟨false, d, isAt_gives.mpr ⟨decide_eq_false (hd ▸ hi), rfl⟩, ?_⟩
    exact bind_gives.mpr ⟨false, d, accept_of_ne (hd ▸ he), pure_gives.mpr ⟨rfl, rfl⟩⟩
  exact ⟨_, ifElse_gives hpx ht hy hno, by simp [Node.bare]⟩

theorem found_orElse (hw : Condition w e) (hv : StatementFound .statement .elseWord v n)
    (hu : StatementFound .statement next u m) :
    StatementFound .branch next (w ++ v ++ ⟨.elseWord, x⟩ :: u) (.ifElse {} e n m) := by
  intro b t c d hk hp hd
  rw [List.append_assoc] at hp
  obtain ⟨c₁, hpx, hp⟩ := Cursor.passes_head.mp hp
  obtain ⟨c₂, hpw, hp⟩ := Cursor.passes_append.mp hp
  obtain ⟨c₃, hpv, hp⟩ := Cursor.passes_append.mp hp
  obtain ⟨c₄, hpe, hpu⟩ := Cursor.passes_head.mp hp
  have hlt : c₂.left < b.length := by
    have := hpx.left_lt (by simp)
    have := hpw.left_le
    omega
  obtain ⟨test, ht, rfl⟩ := condition_finds hw (Nat.le_refl _) hpw trivial
  obtain ⟨yes, hy, rfl⟩ := inner_statement_finds hlt hv (Nat.le_refl _) hpv hpe.kind
  obtain ⟨no, hn, rfl⟩ := inner_statement_finds hlt hu
    (Nat.le_trans hpe.left_le hpv.left_le) hpu hd
  have hno : (Rule.alternate (innerStatement b)).Gives c₃ no d := by
    refine bind_gives.mpr ⟨false, c₃, isAt_gives.mpr ⟨by simp [hpe.kind], rfl⟩, ?_⟩
    exact bind_gives.mpr ⟨true, c₄, accept_of_passes hpe, hn⟩
  exact ⟨_, ifElse_gives hpx ht hy hno, by simp [Node.bare]⟩

theorem found_orElseIf (hw : Condition w e) (hv : StatementFound .statement .elseIfWord v n)
    (hu : StatementFound .branch next u m) :
    StatementFound .branch next (w ++ v ++ ⟨.elseIfWord, x⟩ :: u) (.ifElse {} e n m) := by
  intro b t c d hk hp hd
  rw [List.append_assoc] at hp
  obtain ⟨c₁, hpx, hp⟩ := Cursor.passes_head.mp hp
  obtain ⟨c₂, hpw, hp⟩ := Cursor.passes_append.mp hp
  obtain ⟨c₃, hpv, hpu⟩ := Cursor.passes_append.mp hp
  have hlt : c₂.left < b.length := by
    have := hpx.left_lt (by simp)
    have := hpw.left_le
    omega
  obtain ⟨test, ht, rfl⟩ := condition_finds hw (Nat.le_refl _) hpw trivial
  obtain ⟨yes, hy, rfl⟩ := inner_statement_finds hlt hv (Nat.le_refl _) hpv hpu.kind
  obtain ⟨no, hn, rfl⟩ := inner_ifElse_finds hlt hu _ hpv.left_le hpu hd
  have hno : (Rule.alternate (innerStatement b)).Gives c₃ no d :=
    bind_gives.mpr ⟨true, c₃, isAt_gives.mpr ⟨decide_eq_true hpu.kind, rfl⟩, hn⟩
  exact ⟨_, ifElse_gives hpx ht hy hno, by simp [Node.bare]⟩

end Statements

/-! ## All statements -/

/-- What the tokens form as a statement is found where they stand. -/
theorem found_of_statement {part : Part} {next : TokenKind} {w : List Terminal} {n : Node}
    (h : Statement part next w n) : StatementFound part next w n := by
  induction h using Statement.induction with
  | declaration hw hv => exact found_declaration hw hv
  | function hk hv _ ih => exact found_function hk hv ih
  | block _ ih => exact found_block ih
  | ifElse _ ih => exact found_ifElse ih
  | whileLoop hw _ ih => exact found_whileLoop hw ih
  | forLoop hi ht hu _ ih => exact found_forLoop hi ht hu ih
  | returning hw hv => exact found_returning hw hv
  | breaking hv => exact found_breaking hv
  | continuing hv => exact found_continuing hv
  | importing hw hv => exact found_importing hw hv
  | exporting hw ih => exact found_exporting hw ih
  | exportingDefault _ ih => exact found_exportingDefault ih
  | expression hw hs hv => exact found_expression hw hs hv
  | alone hw _ he hi ih => exact found_alone hw ih he hi
  | orElse hw _ _ ihv ihu => exact found_orElse hw ihv ihu
  | orElseIf hw _ _ ihv ihu => exact found_orElseIf hw ihv ihu

/-- A program is taken up to the end, and its tree is what the parser gives. -/
theorem program_finds {w : List Terminal} {n : Node} (h : Program w n) {c d : Cursor}
    (hp : c.Passes w d) (hd : d.current.kind = .eof) : ∃ q, program.Gives c q d ∧ q.bare = n := by
  cases h with
  | mk hs =>
    have hitem : ∀ ⦃kind w n⦄, Statement .statement kind w n → w ≠ [] ∧
        Finds statement Node.bare c.left (· = kind) w n := by
      intro kind w n hw
      refine ⟨(hw.avoids (List.forall_mem_nil _)).ne_nil, fun c d _ hp hd => ?_⟩
      obtain ⟨q, hq, hn⟩ := found_of_statement hw c.budget (Nat.le_succ c.left) hp hd
      exact ⟨q, statement_gives.mpr hq, hn⟩
    have hmore : ∀ ⦃kind w n⦄ ⦃c d : Cursor⦄, Statement .statement kind w n → c.Passes w d →
        d.current.kind = kind → decide (c.current.kind ≠ .eof) = true := by
      intro kind w n c d hw hp _
      have hfirst : c.current.kind ∉ [.eof] := hp.avoids (hw.avoids (by decide))
      simpa using hfirst
    obtain ⟨qs, hqs, rfl⟩ := manyWhile_finds _ hitem hmore hs (Nat.le_refl _) hp hd (by simp [hd])
    refine ⟨.program (d.spanFrom c.current.span) qs, ?_, by simp [Node.bare]⟩
    simp only [program, bind_gives, peek_gives, spanFrom_gives, pure_gives]
    exact ⟨_, c, ⟨rfl, rfl⟩, qs, d, hqs, _, d, ⟨rfl, rfl⟩, rfl, rfl⟩

end HanScript.Parser
