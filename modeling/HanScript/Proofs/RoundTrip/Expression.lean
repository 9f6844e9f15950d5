-- Expressions come back: the text of an expression without markup is scanned and
-- parsed as the expression, up to its end.
import HanScript.Proofs.Parsing.Exact
import HanScript.Proofs.Printing.Markup

namespace HanScript

open Grammar Script

/-! ## From texts to cursors -/

/-- The tokens of a text, each as it is read, are those that it spells and the end token. -/
theorem Spells.tokenize {ρ : Terminal → Terminal} {text : String} {w : List Terminal}
    (h : Spells ρ text w) : ((tokenize text).map Token.terminal).map ρ = w ++ [ρ ⟨.eof, ""⟩] := by
  have hw : (terminals text.toList).map ρ = w := by simpa using h [] Lexeme.closes_nil
  rw [tokenize_terminals, List.map_append, hw]
  rfl

theorem Spells.ne_eof {ρ : Terminal → Terminal} (hρ : ∀ t, t.kind ≠ .eof → (ρ t).kind ≠ .eof)
    {text : String} {w : List Terminal} (h : Spells ρ text w) : ∀ t ∈ w, t.kind ≠ .eof := by
  have hw : (terminals text.toList).map ρ = w := by simpa using h [] Lexeme.closes_nil
  subst hw
  intro t ht
  obtain ⟨u, hu, rfl⟩ := List.mem_map.mp ht
  exact hρ u (terminals_lexical hu).ne_eof

/-- Tokens with one end token, which is the last. -/
theorem sentence_of_terminals {tokens : List Token} {w : List Terminal} {x : String}
    (ht : tokens.map Token.terminal = w ++ [⟨.eof, x⟩]) (hw : ∀ t ∈ w, t.kind ≠ .eof) :
    sentence tokens = w ∧ (Cursor.ofTokens tokens).left = w.length := by
  obtain ⟨inner, ends, rfl, rfl, hends⟩ := List.map_eq_append_iff.mp ht
  obtain ⟨t, rfl, hlast⟩ := List.map_eq_singleton_iff.mp hends
  have hkind : t.kind = .eof := congrArg Terminal.kind hlast
  have hno : ∀ u ∈ inner, u.kind ≠ .eof := fun u hu => hw u.terminal (List.mem_map_of_mem hu)
  refine ⟨by rw [sentence_append_end hkind, sentence_of_no_eof hno], ?_⟩
  simp [Cursor.ofTokens, Cursor.left, hkind]

/-- Over such tokens the cursor can go all the way to the last one. -/
theorem Cursor.passes_all {tokens : List Token} {w : List Terminal} {x : String}
    (ht : tokens.map Token.terminal = w ++ [⟨.eof, x⟩]) (hw : ∀ t ∈ w, t.kind ≠ .eof) :
    ∃ d, (ofTokens tokens).Passes w d ∧ d.ahead = [] ∧ d.current.kind = .eof := by
  obtain ⟨hsentence, hlength⟩ := sentence_of_terminals ht hw
  obtain ⟨d, hp, hd⟩ := passes_to_end (ofTokens tokens)
  rw [sentence_ofTokens, hsentence] at hp
  have hleft := hp.left
  exact ⟨d, hp, List.length_eq_zero_iff.mp (by rw [hlength] at hleft; unfold left at hleft; omega), hd⟩

/-! ## Expressions without markup -/

/-- Expressions as the language has them, without markup, and the slots and properties inside
them. What is written for a name or a number is scanned as one, and no text has a backslash. -/
inductive Plain : Role → Node → Prop where
  | name {s x} : Scans ⟨.identifier, x⟩ → Plain .expression (.identifier s x)
  | undefinedWord {s} : Plain .expression (.identifier s "undefined")
  | number {s raw k} : Scans ⟨.number, raw⟩ → Numeral.value? raw = some k →
    Plain .expression (.literal s (.number k) raw false)
  | string {s x} : '\\' ∉ x.toList → Plain .expression (.literal s (.text x) x false)
  | template {s x} : '\\' ∉ x.toList → Plain .expression (.literal s (.text x) x true)
  | truth {s} : Plain .expression (.literal s (.truth true) "true" false)
  | falsity {s} : Plain .expression (.literal s (.truth false) "false" false)
  | nothing {s} : Plain .expression (.literal s .nothing "null" false)
  | binary {s op a b} : op ∈ operatorLevels.map Prod.fst → Plain .expression a → Plain .expression b →
    Plain .expression (.binary s op a b)
  | unary {s op a} : op ∈ ["-", "+", "!"] → Plain .expression a →
    Plain .expression (.unary s op a true)
  | assignment {s op a b} : op ∈ ["=", "+=", "-=", "*=", "/=", "%="] → Plain .expression a →
    Plain .expression b → Plain .expression (.assignment s op a b)
  | conditional {s a b c} : Plain .expression a → Plain .expression b → Plain .expression c →
    Plain .expression (.conditional s a b c)
  | call {s a arguments} : Plain .expression a → (∀ n ∈ arguments, Plain .expression n) →
    Plain .expression (.call s a arguments)
  | computed {s a b} : Plain .expression a → Plain .expression b →
    Plain .expression (.member s a b true)
  | member {s t a x} : Plain .expression a → Scans ⟨.identifier, x⟩ →
    Plain .expression (.member s a (.identifier t x) false)
  | array {s items} : (∀ n ∈ items, Plain .optional n) → Plain .expression (.array s items)
  | object {s properties} : (∀ n ∈ properties, Plain .property n) →
    Plain .expression (.object s properties)
  -- Slots and properties
  | hole : Plain .optional .absent
  | item {n} : Plain .expression n → Plain .optional n
  | property {s t x n} : Scans ⟨.identifier, x⟩ → Plain .expression n →
    Plain .property (.property s (.identifier t x) n)

/-- There is no markup to be lowered. -/
theorem Plain.lowered_eq {r : Role} {n : Node} (h : Plain r n) : n.lowered = n := by
  have hmap : ∀ {ns : List Node}, (∀ n ∈ ns, n.lowered = n) → ns.map Node.lowered = ns :=
    fun h => (List.map_congr_left h).trans (List.map_id _)
  have hname : ∀ t x, (Node.identifier t x).lowered = .identifier t x := fun _ _ => rfl
  induction h with
  | item _ ih => exact ih
  | call _ _ ih ihs =>
    rw [Node.lowered_eq]
    simp only [Node.rebuilt, Node.loweredRoot, Node.unmarkedRoot, id, ih, hmap ihs]
  | array _ ihs | object _ ihs =>
    rw [Node.lowered_eq]
    simp only [Node.rebuilt, Node.loweredRoot, Node.unmarkedRoot, id, hmap ihs]
  | _ =>
    rw [Node.lowered_eq]
    simp only [Node.rebuilt, Node.loweredRoot, Node.unmarkedRoot, Node.loweredRaw, id, *]

/-- Nothing is read as something else. -/
theorem transparent_id : Transparent id := ⟨fun _ _ => rfl, fun _ _ => rfl⟩

theorem faithful_sign {e : String × TokenKind} (he : e ∈ signs) : Faithful id ⟨e.2, e.1⟩ :=
  ⟨lexical_of_sign he, rfl⟩

/-- A plain tree is one that the grammar could have made. -/
theorem Plain.printable {r : Role} {n : Node} (h : Plain r n) : Printable id r n := by
  induction h with
  | name hx => exact .leaf ⟨⟨rfl, .inl ⟨hx.lexical, rfl⟩⟩, trivial⟩ rfl
  | undefinedWord => exact .leaf ⟨⟨rfl, .inr ⟨rfl, rfl⟩⟩, trivial⟩ rfl
  | number hx hk =>
    exact .leaf ⟨⟨by simp [Role.admits, Node.isExpression, Node.isSoundLiteral, Numeral.ne_empty hk],
      ⟨hx.lexical, rfl⟩, hk⟩, trivial⟩ rfl
  | string hx => exact .leaf ⟨⟨rfl, rfl, by intro h; cases h⟩, hx⟩ rfl
  | template hx => exact .leaf ⟨⟨rfl, rfl, fun _ => rfl⟩, hx⟩ rfl
  | truth =>
    have hword : Scans ⟨.trueWord, "true"⟩ := by unfold Scans; decide
    exact .leaf ⟨⟨rfl, hword.lexical, rfl⟩, trivial⟩ rfl
  | falsity =>
    have hword : Scans ⟨.falseWord, "false"⟩ := by unfold Scans; decide
    exact .leaf ⟨⟨rfl, hword.lexical, rfl⟩, trivial⟩ rfl
  | nothing => exact .leaf ⟨⟨rfl, trivial⟩, trivial⟩ rfl
  | binary hop _ _ iha ihb =>
    have hall : ∀ op ∈ operatorLevels.map Prod.fst, ∃ e ∈ signs, e.1 = op ∧
        (e.2 = .power ∨ ∃ l ∈ Level.all, e.2 ∈ l.operators) := by decide
    obtain ⟨e, he, rfl, hkind⟩ := hall _ hop
    refine .mk ⟨⟨rfl, e.2, faithful_sign he, hkind.imp_right (Exists.imp fun _ h => h.2)⟩, trivial⟩ ?_
    simp only [Node.parts, List.forall_mem_cons]
    exact ⟨iha, ihb, List.forall_mem_nil _⟩
  | unary hop _ ih =>
    have hall : ∀ op ∈ ["-", "+", "!"], ∃ e ∈ signs, e.1 = op ∧ e.2 ∈ unaryOperators := by decide
    obtain ⟨e, he, rfl, hkind⟩ := hall _ hop
    refine .mk ⟨⟨rfl, rfl, e.2, hkind, faithful_sign he⟩, trivial⟩ ?_
    simp only [Node.parts, List.forall_mem_cons]
    exact ⟨ih, List.forall_mem_nil _⟩
  | assignment hop _ _ iha ihb =>
    have hall : ∀ op ∈ ["=", "+=", "-=", "*=", "/=", "%="], ∃ e ∈ signs, e.1 = op ∧
        e.2 ∈ assignmentOperators := by decide
    obtain ⟨e, he, rfl, hkind⟩ := hall _ hop
    refine .mk ⟨⟨rfl, e.2, hkind, faithful_sign he⟩, trivial⟩ ?_
    simp only [Node.parts, List.forall_mem_cons]
    exact ⟨iha, ihb, List.forall_mem_nil _⟩
  | conditional _ _ _ iha ihb ihc =>
    refine .mk ⟨⟨rfl, trivial⟩, trivial⟩ ?_
    simp only [Node.parts, List.forall_mem_cons]
    exact ⟨iha, ihb, ihc, List.forall_mem_nil _⟩
  | call _ _ ih ihs =>
    refine .mk ⟨⟨rfl, trivial⟩, trivial⟩ ?_
    simp only [Node.parts, List.forall_mem_cons, List.forall_mem_map]
    exact ⟨ih, ihs⟩
  | computed _ _ iha ihb =>
    refine .mk ⟨⟨rfl, .inl rfl⟩, trivial⟩ ?_
    simp only [Node.parts, List.forall_mem_cons]
    exact ⟨iha, ihb, List.forall_mem_nil _⟩
  | member _ hx ih =>
    have hfaithful : Faithful id _ := ⟨hx.lexical, rfl⟩
    refine .mk ⟨⟨rfl, .inr ⟨_, _, rfl, hfaithful⟩⟩, trivial⟩ ?_
    simp only [Node.parts, List.forall_mem_cons]
    exact ⟨ih, .leaf ⟨⟨rfl, .inl hfaithful⟩, trivial⟩ rfl, List.forall_mem_nil _⟩
  | array _ ihs =>
    refine .mk ⟨⟨rfl, trivial⟩, trivial⟩ ?_
    simp only [Node.parts, List.forall_mem_map]
    exact ihs
  | object _ ihs =>
    refine .mk ⟨⟨rfl, trivial⟩, trivial⟩ ?_
    simp only [Node.parts, List.forall_mem_map]
    exact ihs
  | hole => exact .leaf ⟨⟨rfl, trivial⟩, trivial⟩ rfl
  | item _ ih =>
    obtain ⟨⟨hadmits, hf⟩, hq⟩ := ih.here
    exact ih.elsewhere ⟨⟨Role.admits_operand rfl hadmits, hf.operand rfl⟩, hq⟩
  | property hx _ ih =>
    refine .mk ⟨⟨rfl, trivial⟩, trivial⟩ ?_
    simp only [Node.parts, List.forall_mem_cons]
    exact ⟨.leaf ⟨⟨rfl, .inl ⟨hx.lexical, rfl⟩⟩, trivial⟩ rfl, ih, List.forall_mem_nil _⟩

/-- The text of a plain expression is parsed as the expression, and the parser stops at the last
token, which is the end token. -/
theorem expression_comes_back {e : Node} (h : Plain .expression e) :
    ∃ text, Script.expression e = .ok text ∧
      ∃ q d, Parser.expression (Cursor.ofTokens (tokenize text)) = (.ok q, d) ∧
        d.ahead = [] ∧ q.bare = e.bare ∧ q.same e = true := by
  obtain ⟨text, w, htext, hspells, hphrase⟩ := Prints.written (shown_of_printable transparent_id h.printable)
  rw [h.lowered_eq] at hphrase
  have htokens : (tokenize text).map Token.terminal = w ++ [⟨.eof, ""⟩] := by
    simpa using hspells.tokenize
  obtain ⟨d, hp, hahead, hd⟩ := Cursor.passes_all htokens (hspells.ne_eof fun _ => id)
  have hstop : d.current.kind ∉ Level.assignment.continuing := by
    rw [hd]
    decide
  obtain ⟨q, hq, hbare⟩ := Parser.expression_finds hphrase _ (Nat.le_refl _) hp hstop
  exact ⟨text, htext, q, d, hq, hahead, hbare, Node.same_of_bare hbare⟩

/-- A power of a sign and of a member of a number. Both need parentheses that nothing in the tree
stands for. -/
def powerOfMember : Node :=
  .binary {} "**" (.unary {} "-" (.identifier {} "x") true)
    (.member {} (.literal {} (.number (.integer 2)) "2" false) (.identifier {} "y") false)

theorem powerOfMember_comes_back :
    Plain .expression powerOfMember ∧
      Script.expression powerOfMember = .ok "(-x) ** (2).y" ∧
      ∃ q d, Parser.expression (Cursor.ofTokens (tokenize "(-x) ** (2).y")) = (.ok q, d) ∧
        d.ahead = [] ∧ q.bare = powerOfMember := by
  have hx : Scans ⟨.identifier, "x"⟩ := by unfold Scans; decide
  have hy : Scans ⟨.identifier, "y"⟩ := by unfold Scans; decide
  have htwo : Scans ⟨.number, "2"⟩ := by unfold Scans; decide
  have hplain : Plain .expression powerOfMember :=
    .binary (by decide) (.unary (by decide) (.name hx)) (.member (.number htwo rfl) hy)
  have htext : Script.expression powerOfMember = .ok "(-x) ** (2).y" := rfl
  obtain ⟨text, htext', q, d, hq, hahead, hbare, -⟩ := expression_comes_back hplain
  cases htext.symm.trans htext'
  exact ⟨hplain, htext, q, d, hq, hahead, hbare⟩

end HanScript
