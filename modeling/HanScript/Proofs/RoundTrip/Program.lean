-- Programs come back: what a source text is compiled to, scanned again with its
-- keywords read as keywords, is parsed as the program that the source forms,
-- without its markup.
import HanScript.Proofs.Conformance.Rendered
import HanScript.Proofs.Printing.Statement
import HanScript.Proofs.RoundTrip.Expression

namespace HanScript

open Grammar Script Vocabulary

/-! ## Texts in a tree -/

namespace Node

mutual

/-- The texts in a tree: its strings and templates, and what stands between its tags. -/
def texts : Node → List String
  | literal _ (.text s) _ _ | markupText _ s => [s]
  | absent | unknown .. | identifier .. | breaking _ | continuing _ | literal .. | tagName .. => []
  | program _ ns | block _ ns | arrayPattern _ ns | array _ ns | declaration _ _ ns | object _ ns
  | fragment _ ns => textsOfAll ns
  | returning _ n | exporting _ n _ | expressionStatement _ n | unary _ _ n _ | container _ n => texts n
  | declarator _ n m | whileLoop _ n m | importSpecifier _ n m | binary _ _ n m | assignment _ _ n m
  | member _ n m _ | property _ n m | tagMember _ n m | tagAttribute _ n m => texts n ++ texts m
  | ifElse _ n m k | conditional _ n m k => texts n ++ texts m ++ texts k
  | forLoop _ n m k j => texts n ++ texts m ++ texts k ++ texts j
  | call _ n ns | importing _ ns n => texts n ++ textsOfAll ns
  | function _ n ns m => texts n ++ textsOfAll ns ++ texts m
  | element _ n ns ms _ => texts n ++ textsOfAll ns ++ textsOfAll ms

def textsOfAll : List Node → List String
  | [] => []
  | n :: ns => texts n ++ textsOfAll ns

end

@[simp] theorem textsOfAll_eq_flatMap (ns : List Node) : textsOfAll ns = ns.flatMap texts := by
  induction ns with
  | nil => rfl
  | cons n ns ih => simp [textsOfAll, ih]

theorem texts_part {n m : Node} {r : Role} (h : (r, m) ∈ n.parts) : m.texts ⊆ n.texts := by
  cases n <;> simp_all [parts, texts] <;> grind

theorem quotable_of_texts {n : Node} (h : ∀ x ∈ n.texts, '\\' ∉ x.toList) : n.Quotable := by
  cases n with
  | literal _ value =>
    cases value with
    | text x => exact h x (List.mem_singleton_self x)
    | _ => trivial
  | markupText _ x => exact h x (List.mem_singleton_self x)
  | _ => trivial

/-- What is said of all texts in a tree holds of those in each of its parts. -/
theorem Everywhere.quotable {P : Role → Node → Prop} {r : Role} {n : Node} (h : Everywhere P r n)
    (ht : ∀ x ∈ n.texts, '\\' ∉ x.toList) : Everywhere (fun r m => P r m ∧ m.Quotable) r n := by
  induction h with
  | mk hn _ ih =>
    exact .mk ⟨hn, quotable_of_texts ht⟩ fun part hpart =>
      ih part hpart fun x hx => ht x (texts_part hpart hx)

end Node

/-! ## From the source to the tree -/

/-- The tokens that the parser sees are those of the scanner before the end token. -/
theorem tokenForm_of_sentence {source : String} {t : Terminal} (ht : t ∈ sentence (tokenize source)) :
    TokenForm t ∧ ∃ u ∈ tokenize source, u.terminal = t := by
  obtain ⟨u, hu, rfl⟩ := List.mem_map.mp ht
  have hmem := (List.takeWhile_sublist _).subset hu
  have hkind : u.kind ≠ .eof := by simpa using List.all_eq_true.mp List.all_takeWhile u hu
  rcases tokenForm_or_end hmem with hform | hlast
  · exact ⟨hform, u, hmem, rfl⟩
  · exact absurd (congrArg Terminal.kind hlast) hkind

theorem printable_of_parse {source : String} {p : Node} (hp : parseSource source = .ok p)
    (hnames : ∀ t ∈ tokenize source, t.kind = .identifier → t.value ∉ scriptWords.map Prod.fst)
    (htexts : ∀ x ∈ p.texts, '\\' ∉ x.toList) : Printable Terminal.rekeyed .program p := by
  have hfaithful : ∀ t ∈ sentence (tokenize source), Faithful Terminal.rekeyed t := by
    intro t ht
    obtain ⟨hform, u, hu, rfl⟩ := tokenForm_of_sentence ht
    exact faithful_rekeyed hform.lexical (hnames u hu)
  exact (formed_of_tokens hp hfaithful).quotable htexts

/-! ## From the tree to the text and back -/

/-- The text of a printable program spells it. -/
theorem program_of_printable {p : Node} (h : Printable Terminal.rekeyed .program p) :
    ∃ text w, render p = .ok text ∧ Spells Terminal.rekeyed text w ∧ Program w p.lowered.bare := by
  have hadmits := h.here.1.1
  cases p with
  | program s body =>
    have hbody : ∀ n ∈ body, Role.statement.Stated n := fun n hn =>
      stated_of_printable (h.part (List.mem_map_of_mem hn))
    obtain ⟨texts, htexts, hspelt⟩ := spelt_lines hbody 0
    obtain ⟨w, hspells, hw⟩ := spelt_sequence hspelt
    have hsequence := hw .eof (by decide)
    rw [← Node.bareList_lowered] at hsequence
    exact ⟨_, w, bind_eq_ok htexts rfl, hspells, .mk hsequence⟩
  | _ => cases hadmits

/-- Compiling keeps the structure of a program. If no name in the source is a keyword of
JavaScript and no text in the program has a backslash, then the compiled text, with its keywords
read as keywords, is parsed as the program without markup. -/
theorem compile_keeps_structure {source : String} {p : Node} (hp : parseSource source = .ok p)
    (hnames : ∀ t ∈ tokenize source, t.kind = .identifier → t.value ∉ scriptWords.map Prod.fst)
    (htexts : ∀ x ∈ p.texts, '\\' ∉ x.toList) :
    ∃ script q, compile source = .ok script ∧
      parse ((tokenize script).map Token.rekeyed) = .ok q ∧
      q.bare = p.lowered.bare ∧ q.same p.lowered = true := by
  obtain ⟨text, w, htext, hspells, hw⟩ := program_of_printable (printable_of_parse hp hnames htexts)
  have htokens : ((tokenize text).map Token.rekeyed).map Token.terminal = w ++ [⟨.eof, ""⟩] := by
    have h := hspells.tokenize
    rw [List.map_map] at h ⊢
    exact h
  obtain ⟨hsentence, -⟩ := sentence_of_terminals htokens (hspells.ne_eof rekeyed_ne_eof)
  rw [← hsentence] at hw
  obtain ⟨q, hq, hbare⟩ := parse_ok_iff_program.mpr hw
  exact ⟨text, q, compile_of_parse hp htext, hq, hbare, Node.same_of_bare hbare⟩

/-- A component that gives markup if a condition holds. -/
def doorbell : String := "组件 铃(响) \x7b 如果 (!响) 返回 <p id='a'>响\x7b真\x7d</p>; \x7d"

theorem doorbell_keeps_structure :
    ∃ p script q, parseSource doorbell = .ok p ∧ compile doorbell = .ok script ∧
      parse ((tokenize script).map Token.rekeyed) = .ok q ∧ q.bare = p.lowered.bare := by
  obtain ⟨p, hp⟩ : ∃ p, parseSource doorbell = .ok p := ⟨_, rfl⟩
  have hnames : ∀ t ∈ tokenize doorbell, t.kind = .identifier →
      t.value ∉ scriptWords.map Prod.fst := by decide
  have htexts : (parseSource doorbell).toOption.any
      fun p => p.texts.all fun x => '\\' ∉ x.toList := by decide
  obtain ⟨script, q, hscript, hq, hbare, -⟩ := compile_keeps_structure hp hnames
    (by simpa [hp, Except.toOption] using htexts)
  exact ⟨p, script, q, hp, hscript, hq, hbare⟩

end HanScript
