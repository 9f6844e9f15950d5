-- Programs one after the other. A source text that ends with a semicolon can go
-- on with any other one: the program is made of the statements of both.
import HanScript.Proofs.Layout
import HanScript.Proofs.Lexing.Seams

namespace HanScript

namespace Grammar

/-! ## Last tokens -/

/-- The kinds of tokens that a phrase ends with. -/
def closerKinds : List TokenKind :=
  [.number, .string, .template, .trueWord, .falseWord, .nullWord, .undefinedWord, .identifier,
   .rightBracket, .rightBrace, .rightParen, .greater, .selfClose]

/-- The last of the tokens is of one of the kinds. -/
def EndsWith (kinds : List TokenKind) (w : List Terminal) : Prop := ∃ v t, w = v ++ [t] ∧ t.kind ∈ kinds

theorem EndsWith.append {kinds : List TokenKind} {v : List Terminal} (h : EndsWith kinds v)
    (w : List Terminal) : EndsWith kinds (w ++ v) := by
  obtain ⟨u, t, rfl, ht⟩ := h
  exact ⟨w ++ u, t, by simp, ht⟩

theorem EndsWith.cons {kinds : List TokenKind} {v : List Terminal} (h : EndsWith kinds v)
    (t : Terminal) : EndsWith kinds (t :: v) := h.append [t]

theorem endsWith_last {kinds : List TokenKind} {kind : TokenKind} (hk : kind ∈ kinds) (x : String)
    (w : List Terminal) : EndsWith kinds (w ++ [⟨kind, x⟩]) := ⟨w, _, rfl, hk⟩

theorem Phrase.closes {f : Form} {w : List Terminal} {n : Node} (h : Phrase f w n) :
    EndsWith closerKinds w := by
  induction h using Phrase.induction with
  | tighter _ _ ih => exact ih
  | assignment _ _ _ _ ih => exact (ih.cons _).append _
  | conditional _ _ _ _ _ ih => exact (ih.cons _).append _
  | binary _ _ _ _ _ ih => exact (ih.cons _).append _
  | power _ _ _ ih => exact (ih.cons _).append _
  | unary _ _ ih => exact ih.cons _
  | element _ ih => exact ih
  | property _ ih => exact (ih.cons _).cons _
  | givenAttribute _ ih => exact (ih.cons _).cons _
  | givenChild _ ih => exact ih
  | nestedChild _ ih => exact ih
  -- Two tokens close a member and a fragment.
  | member => exact (endsWith_last (by decide) _ [_]).append _
  | fragment => exact (endsWith_last (by decide) _ [_]).append _
  | taggedFragment => exact (endsWith_last (by decide) _ [_]).append _
  | textAttribute => exact endsWith_last (by decide) _ [_, _]
  | call => exact endsWith_last (by decide) _ _
  | computed => exact endsWith_last (by decide) _ _
  | array => exact endsWith_last (by decide) _ _
  | object => exact endsWith_last (by decide) _ _
  | parenthesized => exact endsWith_last (by decide) _ _
  | container => exact endsWith_last (by decide) _ _
  | closedElement => exact endsWith_last (by decide) _ _
  | openElement => exact endsWith_last (by decide) _ _
  | _ => exact endsWith_last (by decide) _ []

theorem Separated.closes {Item : List Terminal → Node → Prop} {kinds : List TokenKind}
    (hitem : ∀ {w n}, Item w n → EndsWith kinds w) {w : List Terminal} {ns : List Node}
    (h : Separated Item w ns) : EndsWith kinds w := by
  induction h with
  | last hw => exact hitem hw
  | more _ _ ih => exact (ih.cons _).append _

theorem Target.closes {w : List Terminal} {n : Node} (h : Target w n) : EndsWith closerKinds w := by
  cases h with
  | name hw =>
    cases hw
    exact endsWith_last (by decide) _ []
  | pattern => exact endsWith_last (by decide) _ _

theorem Declarator.closes {w : List Terminal} {n : Node} (h : Declarator w n) :
    EndsWith closerKinds w := by
  cases h with
  | plain hw => exact hw.closes
  | given _ hv => exact (hv.closes.cons _).append _

theorem Declaration.closes {w : List Terminal} {n : Node} (h : Declaration w n) :
    EndsWith closerKinds w := by
  cases h with
  | changing hw => exact (hw.closes Declarator.closes).cons _
  | constant hw => exact (hw.closes Declarator.closes).cons _

/-! ## Statements that a semicolon ends -/

/-- The last token is a semicolon, if there is any. -/
def SemicolonLast (w : List Terminal) : Prop := ∀ v t, w = v ++ [t] → t.kind = .semicolon

theorem SemicolonLast.of_append {w v : List Terminal} (h : SemicolonLast (w ++ v)) :
    SemicolonLast v := by
  rintro u t rfl
  exact h (w ++ u) t (by simp)

theorem SemicolonLast.of_cons {t : Terminal} {v : List Terminal} (h : SemicolonLast (t :: v)) :
    SemicolonLast v :=
  @SemicolonLast.of_append [t] v h

/-- Where the tokens before it do not end with a semicolon, the end of a statement is one. -/
theorem Terminator.of_semicolonLast {next : TokenKind} {w v : List Terminal} (hv : Terminator next v)
    {kinds : List TokenKind} (hw : EndsWith kinds w) (hk : .semicolon ∉ kinds)
    (h : SemicolonLast (w ++ v)) (next' : TokenKind) : Terminator next' v := by
  cases hv with
  | semicolon => exact .semicolon
  | leftOut =>
    obtain ⟨u, t, rfl, ht⟩ := hw
    rw [h u t (by simp)] at ht
    exact absurd ht hk

theorem Terminator.of_semicolonLast_word {next kind : TokenKind} {x : String} {v : List Terminal}
    (hv : Terminator next v) (h : SemicolonLast (⟨kind, x⟩ :: v)) (hk : kind ≠ .semicolon)
    (next' : TokenKind) : Terminator next' v :=
  hv.of_semicolonLast (endsWith_last (List.mem_singleton_self kind) x []) (by simpa using hk.symm) h
    next'

/-- A statement that ends with a semicolon is one before anything that does not go on with it. -/
theorem Statement.before {part : Part} {next next' : TokenKind} {w : List Terminal} {n : Node}
    (h : Statement part next w n) (hend : SemicolonLast w) (helse : next' ≠ .elseWord)
    (helseIf : next' ≠ .elseIfWord) : Statement part next' w n := by
  induction h using Statement.induction with
  | declaration hw hv => exact .declaration hw (hv.of_semicolonLast hw.closes (by decide) hend next')
  | function hk hv hw => exact .function hk hv hw
  | block hw => exact .block hw
  | ifElse _ ih => exact .ifElse (ih hend.of_cons)
  | whileLoop hw _ ih => exact .whileLoop hw (ih hend.of_append)
  | forLoop hi ht hu _ ih => exact .forLoop hi ht hu (ih hend.of_append.of_cons)
  | returning hw hv =>
    refine .returning hw ?_
    cases hw with
    | leftOut => exact hv.of_semicolonLast_word hend (by decide) next'
    | given hw => exact hv.of_semicolonLast (hw.closes.cons _) (by decide) hend next'
  | breaking hv => exact .breaking (hv.of_semicolonLast_word hend (by decide) next')
  | continuing hv => exact .continuing (hv.of_semicolonLast_word hend (by decide) next')
  | importing hw hv =>
    have hsource := hend.of_append.of_cons.of_cons
    exact .importing hw (hv.of_semicolonLast_word hsource (by decide) next')
  | exporting _ ih => exact .exporting (ih hend.of_cons)
  | exportingDefault _ ih => exact .exportingDefault (ih hend.of_cons.of_cons)
  | expression hw hs hv => exact .expression hw hs (hv.of_semicolonLast hw.closes (by decide) hend next')
  | alone hw _ _ _ ih => exact .alone hw (ih hend.of_append) helse helseIf
  | orElse hw hv _ _ ih => exact .orElse hw hv (ih hend.of_append.of_cons)
  | orElseIf hw hv _ _ ih => exact .orElseIf hw hv (ih hend.of_append.of_cons)

/-- No statement begins with a word that goes on with one. -/
theorem follower_of_statements {w : List Terminal} {ns : List Node}
    (h : Sequence (Statement .statement) .eof w ns) :
    follower w .eof ≠ .elseWord ∧ follower w .eof ≠ .elseIfWord := by
  cases h with
  | nil => decide
  | cons hw _ =>
    have havoids : Avoids [.elseWord, .elseIfWord] _ := hw.avoids (by decide)
    obtain ⟨t, v, rfl, ht⟩ := havoids
    simpa using ht

/-- Statements of which the last ends with a semicolon can stand before others. -/
theorem statements_before {next next' : TokenKind} {w : List Terminal} {ns : List Node}
    (h : Sequence (Statement .statement) next w ns) (hend : SemicolonLast w) (helse : next' ≠ .elseWord)
    (helseIf : next' ≠ .elseIfWord) : Sequence (Statement .statement) next' w ns := by
  induction h with
  | nil => exact .nil
  | @cons w v n ns hn _ ih =>
    refine .cons ?_ (ih hend.of_append)
    cases v with
    | nil =>
      rw [List.append_nil] at hend
      exact hn.before hend helse helseIf
    | cons t v => exact hn

theorem Program.append {w v : List Terminal} {ns ms : List Node} (hw : Program w (.program {} ns))
    (hv : Program v (.program {} ms)) (hend : SemicolonLast w) :
    Program (w ++ v) (.program {} (ns ++ ms)) := by
  cases hw with
  | mk hw =>
    cases hv with
    | mk hv =>
      obtain ⟨helse, helseIf⟩ := follower_of_statements hv
      exact .mk ((statements_before hw hend helse helseIf).append hv)

end Grammar

open Grammar

/-! ## Texts -/

namespace Script

theorem joined_append (separator : String) {xs ys : List String} (hx : xs ≠ []) (hy : ys ≠ []) :
    joined separator (xs ++ ys) = joined separator xs ++ separator ++ joined separator ys := by
  induction xs with
  | nil => exact absurd rfl hx
  | cons x xs ih =>
    cases xs with
    | nil =>
      obtain ⟨y, ys, rfl⟩ := List.exists_cons_of_ne_nil hy
      rfl
    | cons x' xs =>
      have hrest := ih (List.cons_ne_nil x' xs)
      simp only [List.cons_append, joined] at hrest ⊢
      rw [hrest]
      simp only [String.append_assoc]

theorem lines_ne_nil {ns : List Node} {depth : Int} {texts : List String}
    (h : lines ns depth = .ok texts) (hn : ns ≠ []) : texts ≠ [] := by
  obtain ⟨n, ns, rfl⟩ := List.exists_cons_of_ne_nil hn
  simp only [lines, bind_eq_ok_iff] at h
  obtain ⟨text, -, rest, -, hcons⟩ := h
  cases hcons
  exact List.cons_ne_nil _ _

end Script

/-- The text of some statements is made of the texts of two parts of them. -/
theorem render_append {ns ms : List Node} {a b : String} (ha : render (.program {} ns) = .ok a)
    (hb : render (.program {} ms) = .ok b) (hn : ns ≠ []) (hm : ms ≠ []) :
    render (.program {} (ns ++ ms)) = .ok (a ++ "\n" ++ b) := by
  simp only [render, Script.bind_eq_ok_iff] at ha hb ⊢
  obtain ⟨xs, hxs, ha⟩ := ha
  obtain ⟨ys, hys, hb⟩ := hb
  cases ha
  cases hb
  refine ⟨xs ++ ys, ?_, ?_⟩
  · rw [Script.lines_eq_mapM] at hxs hys ⊢
    rw [List.mapM_append, hxs, hys]
    rfl
  · rw [Script.joined_append _ (Script.lines_ne_nil hxs hn) (Script.lines_ne_nil hys hm)]
    rfl

/-! ## Source texts one after the other -/

theorem sentence_tokenize (source : String) : sentence (tokenize source) = terminals source.toList := by
  have hall : ∀ t ∈ terminals source.toList, decide (t.kind ≠ .eof) = true := fun t ht =>
    decide_eq_true (terminals_lexical ht).ne_eof
  rw [sentence_eq_takeWhile, tokenize_terminals, List.takeWhile_append_of_pos hall]
  simp

/-- What the parser gives is a program. -/
theorem bare_of_parse {tokens : List Token} {p : Node} (h : parse tokens = .ok p) :
    p.bare = .program {} (p.statements.map Node.bare) := by
  have hadmits := (conforms_of_parse h).here
  cases p with
  | program => simp [Node.bare, Node.statements]
  | _ => cases hadmits

theorem program_of_parseSource {source : String} {p : Node} (h : parseSource source = .ok p) :
    Program (terminals source.toList) (.program {} (p.statements.map Node.bare)) := by
  rw [← sentence_tokenize, ← bare_of_parse h]
  exact parse_ok_iff_program.mp ⟨p, h, rfl⟩

/-- The text of a source text is that of its statements, wherever they stand. -/
theorem compile_ok_iff {source text : String} {p : Node} (h : parseSource source = .ok p) :
    compile source = .ok text ↔ render (.program {} (p.statements.map Node.bare)) = .ok text := by
  rw [← bare_of_parse h, render_bare (conforms_of_parse h)]
  constructor
  · intro ht
    cases hr : render p with
    | error e =>
      have herror : compile source = .error (.render e) := by
        unfold compile
        simp only [h, hr]
      rw [herror] at ht
      cases ht
    | ok script =>
      rw [compile_of_parse h hr] at ht
      cases ht
      rfl
  · exact compile_of_parse h

/-- Compiling goes statement by statement. If a source text ends with a semicolon, then the source
text of any other program can follow it. The program then has the statements of both, and the text
has the lines of both. -/
theorem compile_of_append {s₁ s₂ text₁ text₂ : String} {p₁ p₂ : Node}
    (hp₁ : parseSource s₁ = .ok p₁) (hp₂ : parseSource s₂ = .ok p₂) (h₁ : compile s₁ = .ok text₁)
    (h₂ : compile s₂ = .ok text₂) {t : Token} (ht : t ∈ tokenize s₁) (hkind : t.kind = .semicolon)
    (hstop : t.span.stop = s₁.length) (hsome : p₂.statements ≠ []) :
    ∃ p, parseSource (s₁ ++ s₂) = .ok p ∧
      p.bare = .program {} ((p₁.statements ++ p₂.statements).map Node.bare) ∧
      compile (s₁ ++ s₂) = .ok (text₁ ++ "\n" ++ text₂) := by
  obtain ⟨ts, hts, happend⟩ := terminals_after_semicolon ht hkind hstop
  have hprogram₁ := program_of_parseSource hp₁
  have hend : SemicolonLast (terminals s₁.toList) := by
    intro v u hu
    rw [hts] at hu
    have hlast := List.append_inj_right' hu rfl
    cases hlast
    rfl
  have hsome₁ : p₁.statements.map Node.bare ≠ [] := by
    intro hnone
    rw [hnone, hts] at hprogram₁
    cases hprogram₁ with
    | mk hw =>
      generalize hnil : ts ++ [_] = w at hw
      cases hw
      simp at hnil
  have hprogram := hprogram₁.append (program_of_parseSource hp₂) hend
  rw [← happend, ← String.toList_append, ← List.map_append, ← sentence_tokenize] at hprogram
  obtain ⟨p, hp, hbare⟩ := parse_ok_iff_program.mpr hprogram
  refine ⟨p, hp, hbare, compile_of_parse hp ?_⟩
  rw [← render_bare (conforms_of_parse hp), hbare, List.map_append]
  exact render_append ((compile_ok_iff hp₁).mp h₁) ((compile_ok_iff hp₂).mp h₂) hsome₁
    (by simpa using hsome)

/-- An `if` that an `else` could follow. -/
def openIf : String := "如果 (甲) 乙；"

/-- An `if` that an `else` does follow, without a semicolon at the end. -/
def closedIf : String := "如果 (丙) 丁; 否则 返回 <戊/>"

theorem openIf_before_closedIf :
    ∃ p₁ p₂ p, parseSource openIf = .ok p₁ ∧ parseSource closedIf = .ok p₂ ∧
      parseSource (openIf ++ closedIf) = .ok p ∧
      p.bare = .program {} ((p₁.statements ++ p₂.statements).map Node.bare) ∧
      compile (openIf ++ closedIf) =
        .ok ("if (甲) 乙;" ++ "\n" ++ "if (丙) 丁; else return React.createElement(\"戊\", null);") := by
  have ht : ⟨.semicolon, ";", ⟨1, 9, 8, 9⟩⟩ ∈ tokenize openIf := by decide
  obtain ⟨p₁, hp₁⟩ : ∃ p, parseSource openIf = .ok p := ⟨_, rfl⟩
  obtain ⟨p₂, hp₂⟩ : ∃ p, parseSource closedIf = .ok p := ⟨_, rfl⟩
  have h₁ : compile openIf = .ok "if (甲) 乙;" := by decide
  have h₂ : compile closedIf = .ok "if (丙) 丁; else return React.createElement(\"戊\", null);" := by decide
  have hsome : (parseSource closedIf).toOption.any fun p => p.statements ≠ [] := by decide
  obtain ⟨p, hp, hbare, hcompile⟩ := compile_of_append hp₁ hp₂ h₁ h₂ ht rfl (by decide)
    (by simpa [hp₂, Except.toOption] using hsome)
  exact ⟨p₁, p₂, p, hp₁, hp₂, hp, hbare, hcompile⟩

end HanScript
