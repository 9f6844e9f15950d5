-- What the depth does to a text. Whether a statement has a text, and what is wrong if
-- it has none, is the same at every depth. Further in, the text is the same but for
-- more indents after its line breaks.
import HanScript.Proofs.Printing.OneLine
import HanScript.Proofs.Printing.Rebuilt

namespace HanScript

open Script

/-! ## Indents -/

/-- The text with so many more indents after every line break. -/
def shifted (k : Nat) (text : String) : String :=
  String.ofList (text.toList.flatMap fun c => if c = '\n' then '\n' :: (indent k).toList else [c])

/-- The text with so many more indents at the start of every line. -/
def indented (k : Nat) (text : String) : String :=
  String.ofList (['\n'].intercalate ((text.toList.splitOn '\n').map ((indent k).toList ++ ·)))

theorem oneLine_indent (depth : Int) : OneLine (indent depth) := by
  unfold OneLine indent
  rw [String.toList_ofList, List.mem_flatten]
  rintro ⟨cs, hcs, h⟩
  rw [List.eq_of_mem_replicate hcs] at h
  revert h
  decide

theorem indent_add {d : Int} (hd : 0 ≤ d) (k : Nat) : indent (d + k) = indent k ++ indent d := by
  have hk : (d + k).toNat = k + d.toNat := by omega
  unfold indent
  rw [hk, ← List.replicate_append_replicate, List.flatten_append, String.ofList_append, Int.toNat_natCast]

theorem intercalate_append_cons {α : Type} (s a b : List α) (ls : List (List α)) :
    s.intercalate ((a ++ b) :: ls) = a ++ s.intercalate (b :: ls) := by
  cases ls with
  | nil => simp [List.intercalate_singleton]
  | cons l ls => simp [List.intercalate_cons_cons]

/-- Every line but the first has a line break before it. -/
theorem intercalate_map_splitOn (u cs : List Char) :
    ['\n'].intercalate ((cs.splitOn '\n').map (u ++ ·)) =
      u ++ cs.flatMap fun c => if c = '\n' then '\n' :: u else [c] := by
  induction cs with
  | nil => simp [List.splitOn_nil, List.intercalate_singleton]
  | cons c cs ih =>
    obtain ⟨l, ls, hl⟩ := List.exists_cons_of_ne_nil (List.splitOn_ne_nil '\n' cs)
    rw [List.splitOn_cons_eq_if_modifyHead, List.flatMap_cons]
    by_cases hc : c = '\n'
    · rw [if_pos (by simpa using hc), if_pos hc, List.map_cons,
        List.intercalate_cons_of_ne_nil (by simp [hl]), ih]
      simp
    -- Any other character goes to the front of the first line, behind its indent.
    · rw [hl, List.map_cons, intercalate_append_cons, List.append_cancel_left_eq] at ih
      have hhead := intercalate_append_cons ['\n'] [c] l (ls.map (u ++ ·))
      rw [List.singleton_append] at hhead
      rw [if_neg (by simpa using hc), if_neg hc, hl, List.modifyHead_cons, List.map_cons,
        intercalate_append_cons, hhead, ih]

section

variable (k : Nat)

theorem shifted_append (a b : String) : shifted k (a ++ b) = shifted k a ++ shifted k b := by
  simp [shifted, List.flatMap_append]

theorem shifted_lineBreak : shifted k "\n" = "\n" ++ indent k := by
  simp [shifted]

theorem indented_eq (text : String) : indented k text = indent k ++ shifted k text := by
  unfold indented shifted
  rw [intercalate_map_splitOn, String.ofList_append, String.ofList_toList]

variable {k}

theorem shifted_of_oneLine {text : String} (h : OneLine text) : shifted k text = text := by
  have hpieces : ∀ c ∈ text.toList, (if c = '\n' then '\n' :: (indent k).toList else [c]) = [c] := by
    intro c hc
    apply if_neg
    rintro rfl
    exact h hc
  unfold shifted
  rw [List.flatMap_def, List.map_congr_left hpieces, ← List.flatMap_def, List.flatMap_singleton',
    String.ofList_toList]

theorem shifted_after {head : String} (h : OneLine head) (text : String) :
    shifted k (head ++ text) = head ++ shifted k text := by
  rw [shifted_append, shifted_of_oneLine h]

theorem indented_joined {texts : List String} (h : texts ≠ []) :
    joined "\n" (texts.map (indented k)) = indented k (joined "\n" texts) := by
  induction texts with
  | nil => exact absurd rfl h
  | cons x texts ih =>
    cases texts with
    | nil => rfl
    | cons y texts =>
      have hrest := ih (List.cons_ne_nil y texts)
      simp only [List.map_cons, joined] at hrest ⊢
      rw [hrest]
      simp only [indented_eq, shifted_append, shifted_lineBreak, String.append_assoc]

end

/-! ## Two depths -/

/-- Two computations fail with the same error, or both give a value, and the two values are related. -/
inductive SideBySide {ε α : Type} (R : α → α → Prop) : Except ε α → Except ε α → Prop where
  | error (e : ε) : SideBySide R (.error e) (.error e)
  | ok {a b : α} : R a b → SideBySide R (.ok a) (.ok b)

namespace SideBySide

variable {ε α β : Type} {R : α → α → Prop} {S : β → β → Prop} {x y : Except ε α}

theorem bind {f g : α → Except ε β} (h : SideBySide R x y)
    (hfg : ∀ {a b}, R a b → SideBySide S (f a) (g b)) : SideBySide S (x >>= f) (y >>= g) := by
  cases h with
  | error e => exact .error e
  | ok hab => exact hfg hab

/-- What both computations begin with. -/
theorem after {f g : α → Except ε β} (h : ∀ a, x = .ok a → SideBySide S (f a) (g a)) :
    SideBySide S (x >>= f) (x >>= g) := by
  cases x with
  | error e => exact .error e
  | ok a => exact h a rfl

theorem error_iff (h : SideBySide R x y) (e : ε) : x = .error e ↔ y = .error e := by
  cases h with
  | error e' => exact Iff.rfl
  | ok _ => simp

theorem of_ok {a : α} (h : SideBySide R (.ok a) y) : ∃ b, y = .ok b ∧ R a b := by
  cases h with
  | ok hab => exact ⟨_, rfl, hab⟩

end SideBySide

/-- The second depth is so many levels further in. -/
def FurtherIn (d e : Int) (k : Nat) : Prop := 0 ≤ d ∧ e = d + k

theorem FurtherIn.next {d e : Int} {k : Nat} (h : FurtherIn d e k) : FurtherIn (d + 1) (e + 1) k := by
  unfold FurtherIn at *
  omega

theorem FurtherIn.indent_eq {d e : Int} {k : Nat} (h : FurtherIn d e k) :
    indent e = indent k ++ indent d := by
  rw [h.2, indent_add h.1]

/-- At the second depth the text is the one at the first, shifted. -/
def Deeper (n : Node) (d e : Int) (a b : String) : Prop :=
  ∀ (r : Role) (k : Nat), n.Unbroken r → FurtherIn d e k → b = shifted k a

/-- At any two depths the statement has the same error, or texts that differ by the depth only. -/
def Shifts (n : Node) : Prop :=
  ∀ d e : Int, SideBySide (Deeper n d e) (statement n d) (statement n e)

/-! ## One statement -/

section

variable {n m t i u body : Node} {s : Span}

/-- A text on one line stays as it is. -/
theorem shifts_of_oneLine {x : Except RenderError String} (hx : ∀ depth, statement n depth = x)
    (h : ∀ r, n.Unbroken r → Yields OneLine x) : Shifts n := by
  intro d e
  rw [hx, hx]
  cases x with
  | error err => exact .error err
  | ok a =>
    apply SideBySide.ok
    intro r k hn _
    rw [shifted_of_oneLine (h r hn a rfl)]

/-- A head on one line, and a statement after it. -/
theorem headed_sideBySide {q : Role} {head : String} (hm : (q, m) ∈ n.parts) (h : Shifts m)
    (hhead : ∀ r, n.Unbroken r → OneLine head) (d e : Int) :
    SideBySide (Deeper n d e) (do
      let text ← statement m d
      return head ++ text) (do
      let text ← statement m e
      return head ++ text) := by
  refine (h d e).bind fun htext => .ok ?_
  intro r k hn hk
  rw [htext q k (hn.part hm) hk, shifted_after (hhead r hn)]

theorem shifts_declaration {keyword : String} {ns : List Node} : Shifts (.declaration s keyword ns) := by
  refine shifts_of_oneLine (fun _ => rfl) fun r hn => ?_
  exact (oneLine_declaration hn).bind fun text htext => .ok (by simpa +decide using htext)

theorem shifts_returning : Shifts (.returning s n) := by
  refine shifts_of_oneLine (fun depth => statement_returning s n depth) fun r hn => ?_
  by_cases habsent : n.isAbsent = true
  · rw [if_pos habsent]
    exact .ok (by decide)
  · rw [if_neg habsent]
    refine (oneLine_expression (hn.part List.mem_cons_self)).bind fun text htext => .ok ?_
    simpa +decide using htext

theorem shifts_importing {ns : List Node} : Shifts (.importing s ns n) := by
  refine shifts_of_oneLine (fun _ => rfl) fun r hn => ?_
  have hspecifiers : ∀ m ∈ ns, Yields Name.Unbroken (importSpecifier m) := by
    intro m hm
    have hpart : m.Unbroken .specifier := hn.part (by simp [Node.parts, hm])
    exact unbroken_importSpecifier hpart
  refine (Yields.mapM hspecifiers).bind fun names hnames => ?_
  refine (Yields.mapM fun x hx => oneLine_listedName (hnames x hx)).bind fun texts htexts => ?_
  refine (oneLine_importSource (hn.part List.mem_cons_self)).bind fun path hpath => .ok ?_
  simpa +decide [hpath] using htexts

theorem shifts_expressionStatement : Shifts (.expressionStatement s n) := by
  refine shifts_of_oneLine (fun _ => rfl) fun r hn => ?_
  refine (oneLine_expression (hn.part List.mem_cons_self)).bind fun text htext => .ok ?_
  simpa +decide using htext

theorem shifts_function {name : Node} {params : List Node} (h : Shifts body) :
    Shifts (.function s name params body) := by
  intro d e
  refine .after fun names hnames => .after fun texts htexts => .after fun own hown => ?_
  refine headed_sideBySide (q := .block) (by simp [Node.parts]) h (fun r hn => ?_) d e
  have hwords : ∀ m ∈ params, m.Unbroken .word := fun m hm => hn.part (by simp [Node.parts, hm])
  have hparams : ∀ x ∈ names, x.Unbroken :=
    Yields.mapM (fun m hm => unbroken_nameOf (hwords m hm)) names hnames
  have hlisted : ∀ x ∈ texts, OneLine x :=
    Yields.mapM (fun x hx => oneLine_listedName (hparams x hx)) texts htexts
  have hname : OneLine own := oneLine_nameTextOf (hn.part List.mem_cons_self) own hown
  simpa +decide [hname] using hlisted

theorem shifts_ifElse (hm : Shifts m) (hn : Shifts n) : Shifts (.ifElse s t m n) := by
  intro d e
  rw [statement_ifElse, statement_ifElse]
  refine .after fun test htest => ?_
  have hhead : ∀ r, (Node.ifElse s t m n).Unbroken r → OneLine ("if " ++ parenthesized test ++ " ") := by
    intro r h
    simpa +decide using oneLine_expression (h.part List.mem_cons_self) test htest
  by_cases habsent : n.isAbsent = true
  · simp only [if_pos habsent]
    exact headed_sideBySide (q := .statement) (by simp [Node.parts]) hm hhead d e
  · simp only [if_neg habsent]
    refine (hm d e).bind fun hconsequent => (hn d e).bind fun halternate => .ok ?_
    intro r k h hk
    have helse : shifted k " else " = " else " := shifted_of_oneLine (by decide)
    rw [hconsequent .statement k (h.part (by simp [Node.parts])) hk,
      halternate .alternative k (h.part (by simp [Node.parts])) hk, shifted_append, shifted_append,
      shifted_after (hhead r h), helse]

theorem shifts_whileLoop (h : Shifts body) : Shifts (.whileLoop s t body) := by
  intro d e
  refine .after fun test htest => ?_
  refine headed_sideBySide (q := .statement) (by simp [Node.parts]) h (fun r hn => ?_) d e
  simpa +decide using oneLine_expression (hn.part List.mem_cons_self) test htest

theorem shifts_forLoop (h : Shifts body) : Shifts (.forLoop s i t u body) := by
  intro d e
  refine .after fun initial hi => .after fun test ht => .after fun update hu => ?_
  refine headed_sideBySide (q := .statement) (by simp [Node.parts]) h (fun r hn => ?_) d e
  have hinitial : OneLine initial := oneLine_initialPart (hn.part List.mem_cons_self) initial hi
  have htest : OneLine test := oneLine_optional (hn.part (q := .optional) (by simp [Node.parts])) test ht
  have hupdate : OneLine update :=
    oneLine_optional (hn.part (q := .optional) (by simp [Node.parts])) update hu
  simp +decide [oneLine_joined, hinitial, htest, hupdate]

theorem shifts_exporting (h : Shifts m) (isDefault : Bool) : Shifts (.exporting s m isDefault) := by
  intro d e
  apply headed_sideBySide (q := .statement) List.mem_cons_self h
  intro r hn
  cases isDefault <;> decide

theorem line_sideBySide (h : Shifts n) (d e : Int) :
    SideBySide (fun a b => ∀ r k, n.Unbroken r → FurtherIn d e k → b = indented k a)
      (line n d) (line n e) := by
  refine (h d e).bind fun htext => .ok ?_
  intro r k hn hk
  rw [htext r k hn hk, indented_eq, shifted_after (oneLine_indent d), hk.indent_eq, String.append_assoc]

/-- Each line is put further in, and none is lost. -/
theorem lines_sideBySide {ns : List Node} (h : ∀ n ∈ ns, Shifts n) (d e : Int) :
    SideBySide (fun as bs => as.length = ns.length ∧ ∀ k, (∀ n ∈ ns, n.Unbroken .statement) →
      FurtherIn d e k → bs = as.map (indented k)) (lines ns d) (lines ns e) := by
  simp only [lines_eq_mapM]
  induction ns with
  | nil => exact .ok ⟨rfl, fun _ _ _ => rfl⟩
  | cons n ns ih =>
    rw [List.forall_mem_cons] at h
    rw [List.mapM_cons, List.mapM_cons]
    refine (line_sideBySide h.1 d e).bind fun hline => (ih h.2).bind fun hrest => .ok ?_
    refine ⟨congrArg (· + 1) hrest.1, fun k hns hk => ?_⟩
    rw [List.forall_mem_cons] at hns
    rw [List.map_cons, hline .statement k hns.1 hk, hrest.2 k hns.2 hk]

/-- The closing brace stands at the depth of the block, and what is in it one level further in. -/
theorem shifts_block {ns : List Node} (h : ∀ n ∈ ns, Shifts n) : Shifts (.block s ns) := by
  cases ns with
  | nil => exact shifts_of_oneLine (fun _ => rfl) fun _ _ => .ok (by decide)
  | cons n ns =>
    intro d e
    refine (lines_sideBySide h (d + 1) (e + 1)).bind fun {as bs} ⟨hlength, hlines⟩ => .ok ?_
    intro r k hn hk
    have hns : ∀ m ∈ n :: ns, m.Unbroken .statement := fun m hm => hn.part (List.mem_map_of_mem hm)
    have hne : as ≠ [] := List.ne_nil_of_length_eq_add_one hlength
    have hopen : shifted k "\x7b\n" = "\x7b\n" ++ indent k := by
      have hsplit : "\x7b\n" = "\x7b" ++ "\n" := rfl
      rw [hsplit, shifted_after (by decide), shifted_lineBreak, String.append_assoc]
    have hclose : shifted k "\x7d" = "\x7d" := shifted_of_oneLine (by decide)
    rw [hlines k hns hk.next, indented_joined hne, indented_eq, hk.indent_eq]
    simp only [shifted_append, hopen, shifted_lineBreak, shifted_of_oneLine (oneLine_indent d), hclose,
      String.append_assoc]

end

/-! ## All statements -/

mutual

theorem shifts_statement (n : Node) : Shifts n := by
  cases n with
  -- Bodies and branches stand at the depth of the statement. Only blocks go further in.
  | function s name params body => exact shifts_function (shifts_statement body)
  | block s body => exact shifts_block (shifts_statements body)
  | ifElse s t m n => exact shifts_ifElse (shifts_statement m) (shifts_statement n)
  | whileLoop s t body => exact shifts_whileLoop (shifts_statement body)
  | forLoop s i t u body => exact shifts_forLoop (shifts_statement body)
  | exporting s m isDefault => exact shifts_exporting (shifts_statement m) isDefault
  | declaration s keyword ns => exact shifts_declaration
  | returning s n => exact shifts_returning
  | breaking s => exact shifts_of_oneLine (fun _ => rfl) fun _ _ => .ok (by decide)
  | continuing s => exact shifts_of_oneLine (fun _ => rfl) fun _ _ => .ok (by decide)
  | importing s ns n => exact shifts_importing
  | expressionStatement s n => exact shifts_expressionStatement
  | _ => exact shifts_of_oneLine (fun _ => rfl) fun _ _ => .error _

theorem shifts_statements (ns : List Node) : ∀ n ∈ ns, Shifts n := by
  cases ns with
  | nil => exact nofun
  | cons n ns => exact List.forall_mem_cons.mpr ⟨shifts_statement n, shifts_statements ns⟩

end

/-- Whether a statement has a text, and what is wrong if it has none, does not depend on the depth.
If no string in the tree has a line break, a text at one depth gives one at all of them, and so many
levels further in it has so many more indents: after every line break if it is without the indent
of its first line, and else at the start of every line. -/
theorem depth_only_indents (n : Node) :
    (∀ (d e : Int) (err : RenderError),
      (statement n d = .error err ↔ statement n e = .error err) ∧
      (line n d = .error err ↔ line n e = .error err)) ∧
    ∀ (c : Int) (text : String), statement n c = .ok text → n.Unbroken .statement →
      ∀ d k : Nat, ∃ inner outer,
        statement n d = .ok inner ∧ statement n (d + k) = .ok (shifted k inner) ∧
        line n d = .ok outer ∧ line n (d + k) = .ok (indented k outer) := by
  have hlines := line_sideBySide (shifts_statement n)
  refine ⟨fun d e err => ⟨(shifts_statement n d e).error_iff err, (hlines d e).error_iff err⟩, ?_⟩
  intro c text htext hn d k
  have hk : FurtherIn d (d + k) k := ⟨Int.natCast_nonneg d, rfl⟩
  obtain ⟨inner, hinner, -⟩ := SideBySide.of_ok (htext ▸ shifts_statement n c d)
  obtain ⟨inner', hinner', hshifted⟩ := SideBySide.of_ok (hinner ▸ shifts_statement n d (d + k))
  have hline : line n d = .ok (indent d ++ inner) := by
    unfold line
    rw [hinner]
    rfl
  obtain ⟨outer', houter', hindented⟩ := SideBySide.of_ok (hline ▸ hlines d (d + k))
  rw [hshifted .statement k hn hk] at hinner'
  rw [hindented .statement k hn hk] at houter'
  exact ⟨inner, _, hinner, hinner', hline, houter'⟩

/-- A function with a loop in its body. -/
def loopInBody : Node :=
  .function {} (.identifier {} "f") [.identifier {} "x"]
    (.block {} [.whileLoop {} (.identifier {} "x") (.block {} [.returning {} (.identifier {} "x")])])

theorem loopInBody_is_shifted :
    loopInBody.Unbroken .statement ∧
      statement loopInBody 0 = .ok "function f(x) \x7b\n  while (x) \x7b\n    return x;\n  \x7d\n\x7d" ∧
      line loopInBody 1 =
        .ok "  function f(x) \x7b\n    while (x) \x7b\n      return x;\n    \x7d\n  \x7d" := by
  have hname : ∀ r x, OneLine x → (Node.identifier {} x).Unbroken r :=
    fun r x hx => .leaf (List.forall_mem_singleton.mpr hx) rfl
  have hx := fun r => hname r "x" (by decide)
  have hreturn : (Node.block {} [.returning {} (.identifier {} "x")]).Unbroken .statement :=
    .mk (by decide) (List.forall_mem_singleton.mpr
      (.mk (by decide) (List.forall_mem_singleton.mpr (hx _))))
  have hloop : (Node.whileLoop {} (.identifier {} "x")
      (.block {} [.returning {} (.identifier {} "x")])).Unbroken .statement :=
    .mk (by decide) (List.forall_mem_cons.mpr ⟨hx _, List.forall_mem_singleton.mpr hreturn⟩)
  have hbody : (Node.block {} [.whileLoop {} (.identifier {} "x")
      (.block {} [.returning {} (.identifier {} "x")])]).Unbroken .block :=
    .mk (by decide) (List.forall_mem_singleton.mpr hloop)
  have hall : loopInBody.Unbroken .statement :=
    .mk (by decide) (List.forall_mem_cons.mpr ⟨hname _ "f" (by decide),
      List.forall_mem_cons.mpr ⟨hbody, List.forall_mem_singleton.mpr (hx _)⟩⟩)
  have htext : statement loopInBody 0 =
      .ok "function f(x) \x7b\n  while (x) \x7b\n    return x;\n  \x7d\n\x7d" := by rfl
  obtain ⟨inner, outer, -, -, houter, hdeeper⟩ := (depth_only_indents loopInBody).2 0 _ htext hall 0 1
  cases houter
  exact ⟨hall, htext, hdeeper⟩

end HanScript
