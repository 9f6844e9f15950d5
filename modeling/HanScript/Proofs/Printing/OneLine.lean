-- Expressions stand on one line. If no string in a tree has a line break, the text
-- of an expression has none either, nor have names, patterns and declarations.
import HanScript.Proofs.Conformance.Role
import HanScript.Proofs.Lexing.Quoting
import HanScript.Proofs.Printing.Each

namespace HanScript

open Script

/-- The text has no line break. -/
def OneLine (text : String) : Prop := '\n' ∉ text.toList

instance (text : String) : Decidable (OneLine text) := inferInstanceAs (Decidable ('\n' ∉ text.toList))

/-! ## Computations -/

/-- What the computation gives, if it gives a value, has the property. -/
def Yields {ε α : Type} (P : α → Prop) (x : Except ε α) : Prop := ∀ a, x = .ok a → P a

namespace Yields

variable {ε α β : Type} {P : α → Prop} {Q : β → Prop}

theorem ok {a : α} (h : P a) : Yields P (.ok a : Except ε α) := by
  rintro _ ⟨⟩
  exact h

theorem error (e : ε) : Yields P (.error e) := nofun

theorem self (x : Except ε α) : Yields (fun a => x = .ok a) x := fun _ h => h

theorem bind {x : Except ε α} {f : α → Except ε β} (hx : Yields P x)
    (hf : ∀ a, P a → Yields Q (f a)) : Yields Q (x >>= f) := by
  intro b hb
  obtain ⟨a, ha, hb⟩ := bind_eq_ok_iff.mp hb
  exact hf a (hx a ha) b hb

/-- Nothing needs to be known of a first step if the rest has the property after any. -/
theorem skip {x : Except ε α} {f : α → Except ε β} (hf : ∀ a, Yields Q (f a)) : Yields Q (x >>= f) :=
  (self x).bind fun a _ => hf a

theorem mapM {as : List α} {f : α → Except ε β} (h : ∀ a ∈ as, Yields Q (f a)) :
    Yields (fun bs => ∀ b ∈ bs, Q b) (as.mapM f) := by
  induction as with
  | nil => exact .ok (by simp)
  | cons a as ih =>
    rw [List.forall_mem_cons] at h
    rw [List.mapM_cons]
    exact h.1.bind fun b hb => (ih h.2).bind fun bs hbs => .ok (List.forall_mem_cons.mpr ⟨hb, hbs⟩)

end Yields

/-! ## Pieces of text -/

section

variable {a b : String} {items : List String}

@[simp] theorem oneLine_append : OneLine (a ++ b) ↔ OneLine a ∧ OneLine b := by
  simp [OneLine]

theorem oneLine_joined {separator : String} (hs : OneLine separator) :
    OneLine (joined separator items) ↔ ∀ x ∈ items, OneLine x := by
  induction items with
  | nil => simp [joined, OneLine]
  | cons x items ih =>
    cases items with
    | nil => simp [joined]
    | cons y items => simp [joined, ih, hs]

@[simp] theorem oneLine_listed : OneLine (listed items) ↔ ∀ x ∈ items, OneLine x :=
  oneLine_joined (by decide)

@[simp] theorem oneLine_parenthesized : OneLine (parenthesized a) ↔ OneLine a := by
  simp +decide [parenthesized]

@[simp] theorem oneLine_parenthesizedIf (needed : Bool) :
    OneLine (parenthesizedIf needed a) ↔ OneLine a := by
  cases needed <;> simp [parenthesizedIf]

@[simp] theorem oneLine_quote : OneLine (quote a) ↔ OneLine a :=
  not_congr (lineBreak_mem_between (by decide) (by decide) a)

@[simp] theorem oneLine_template : OneLine (template a) ↔ OneLine a :=
  not_congr (lineBreak_mem_between (by decide) (by decide) a)

theorem oneLine_braced {none : String} (hnone : OneLine none) (h : ∀ x ∈ items, OneLine x) :
    OneLine (braced none items) := by
  cases items with
  | nil => exact hnone
  | cons x items => simpa +decide [braced] using h

theorem oneLine_elements {items : List (Option String)} (h : ∀ x ∈ items, ∀ text ∈ x, OneLine text) :
    OneLine (elements items) := by
  have hitems : ∀ x ∈ items, OneLine (x.getD "") := by
    intro x hx
    cases x with
    | none => decide
    | some text => exact h _ hx text rfl
  have hcomma : OneLine (if items.getLast? = some none then "," else "") := by
    split <;> decide
  simpa +decide [elements, hcomma] using hitems

theorem oneLine_createElement {tag props : String} (ht : OneLine tag) (hp : OneLine props)
    (h : ∀ x ∈ items, OneLine x) : OneLine (createElement tag props items) := by
  simp +decide [createElement, ht, hp]
  exact h

end

/-! ## Numbers -/

/-- A character that numbers are written with. -/
def isNumeric (c : Char) : Bool := c.isDigit || ['+', '-', '.', 'e', 'i', 'n', 'f'].contains c

/-- The text is written like a number. -/
def Numeric (cs : List Char) : Prop := ∀ c ∈ cs, isNumeric c

section

variable {c : Char} {cs ds : List Char}

@[simp] theorem numeric_nil : Numeric [] := List.forall_mem_nil _

@[simp] theorem numeric_cons : Numeric (c :: cs) ↔ isNumeric c ∧ Numeric cs := List.forall_mem_cons

@[simp] theorem numeric_append : Numeric (cs ++ ds) ↔ Numeric cs ∧ Numeric ds :=
  List.forall_mem_append

@[simp] theorem numeric_zeros (n : Nat) : Numeric (List.replicate n '0') := by
  rintro c hc
  rw [List.eq_of_mem_replicate hc]
  rfl

theorem Numeric.sublist (h : Numeric ds) (hsub : cs.Sublist ds) : Numeric cs :=
  fun c hc => h c (hsub.subset hc)

@[simp] theorem numeric_toDigits (n : Nat) : Numeric (Nat.toDigits 10 n) := by
  intro c hc
  have hdigit : c.isDigit := Nat.isDigit_of_mem_toDigits (by decide) (by decide) hc
  simp [isNumeric, hdigit]

theorem numeric_repr (n : Int) : Numeric n.repr.toList := by
  rw [Int.repr_eq_if]
  split <;> simp [show isNumeric '-' from rfl]

theorem numeric_positional (h : Numeric ds) (point : Int) : Numeric (Double.positional ds point) := by
  unfold Double.positional
  split
  · simp +decide [h]
  split
  · simp +decide [h]
  · simp +decide [h.sublist (List.take_sublist ..), h.sublist (List.drop_sublist ..)]

theorem numeric_scientific (h : Numeric ds) (point : Int) : Numeric (Double.scientific ds point) := by
  have hsign : ∀ (below : Prop) [Decidable below], isNumeric (if below then '-' else '+') := by
    intro below _
    split <;> decide
  have hfraction : Numeric (if ds.length ≤ 1 then [] else '.' :: ds.drop 1) := by
    split
    · exact numeric_nil
    · simp +decide only [numeric_cons, h.sublist (List.drop_sublist ..), and_self]
  simp +decide only [Double.scientific, numeric_append, numeric_cons, hsign, hfraction, numeric_zeros,
    numeric_toDigits, h.sublist (List.take_sublist ..), and_self]

end

theorem numeric_doubleText (d : Double) : Numeric d.text.toList := by
  cases d with
  | infinite negative => cases negative <;> simp +decide [Double.text]
  | finite negative mantissa exponent =>
    have htrimmed : ∀ n, Numeric ((Nat.toDigits 10 n).reverse.dropWhile (· = '0')).reverse := by
      intro n
      apply (numeric_toDigits n).sublist
      exact List.reverse_sublist.mp (by simpa using List.dropWhile_sublist _)
    have hsigned : ∀ cs, Numeric cs →
        Numeric (String.ofList (if negative then '-' :: cs else cs)).toList := by
      intro cs hcs
      cases negative <;> simpa [show isNumeric '-' from rfl] using hcs
    apply hsigned
    split
    · simp +decide
    · dsimp only
      split
      · exact numeric_positional (htrimmed _) _
      · exact numeric_scientific (htrimmed _) _

theorem numeric_numberText (n : Number) : Yields (fun text => Numeric text.toList) (numberText n) := by
  cases n with
  | integer n =>
    rw [numberText, Int.toString_eq_repr]
    split
    · exact .ok (numeric_repr n)
    · exact .error _
  | double d => exact .ok (numeric_doubleText d)

/-! ## Values -/

theorem oneLine_of_numeric {text : String} (h : Numeric text.toList) : OneLine text :=
  fun hmem => absurd (h _ hmem) (by decide)

theorem oneLine_numberText (n : Number) : Yields OneLine (numberText n) :=
  fun text htext => oneLine_of_numeric (numeric_numberText n text htext)

theorem oneLine_numberOr {raw : String} (h : OneLine raw) (n : Number) :
    Yields OneLine (numberOr raw n) := by
  unfold numberOr
  split
  · exact oneLine_numberText n
  · exact .ok h

theorem oneLine_valueText {v : Value} (h : ∀ x, v = .text x → OneLine x) :
    Yields OneLine (valueText v) := by
  cases v with
  | text x => exact .ok (h x rfl)
  | number n => exact oneLine_numberText n
  | truth b => cases b <;> exact .ok (by decide)
  | nothing => exact .ok (by decide)

/-! ## Texts in messages -/

/-- A line break is spelled with a letter. -/
theorem oneLine_spelled (c : Char) : OneLine (Text.spelled c) := by
  have hhex : ∀ width n, '\n' ∉ Text.hexDigits width n := by
    intro width
    induction width with
    | zero => simp [Text.hexDigits]
    | succ width ih =>
      intro n
      have hdigit : ∀ k < 16, '\n' ≠ Nat.digitChar k := by decide
      simp [Text.hexDigits, ih, hdigit _ (Nat.mod_lt n (by decide))]
  unfold Text.spelled
  split
  · decide
  split
  · decide
  rename_i hc
  split
  · decide
  split
  · decide
  split
  · simpa [OneLine] using Ne.symm hc
  split
  · simp +decide [OneLine, hhex]
  split <;> simp +decide [OneLine, hhex]

@[simp] theorem oneLine_quoted (text : String) : OneLine (Text.quoted text) := by
  have hmark : OneLine (String.singleton (Text.quoteMark text)) := by
    unfold Text.quoteMark
    split <;> decide
  have hinside : ∀ c, OneLine (if c = Text.quoteMark text then
      "\\" ++ String.singleton (Text.quoteMark text) else Text.spelled c) := by
    intro c
    split
    · exact oneLine_append.mpr ⟨by decide, hmark⟩
    · exact oneLine_spelled c
  simp only [Text.quoted, oneLine_append, hmark, true_and, and_true]
  unfold OneLine
  rw [String.toList_join, List.mem_flatMap]
  rintro ⟨piece, hpiece, h⟩
  obtain ⟨c, -, rfl⟩ := List.mem_map.mp hpiece
  exact hinside c h

/-! ## Strings in a tree -/

namespace Node

/-- The strings that a node holds itself. -/
def strings : Node → List String
  | unknown _ x | identifier _ x | declaration _ x _ | binary _ x _ _ | unary _ x _ _
  | assignment _ x _ _ | tagName _ x | markupText _ x => [x]
  | literal _ (.text x) raw _ => [x, raw]
  | literal _ _ raw _ => [raw]
  | _ => []

/-- No string in the tree has a line break. -/
def Unbroken : Role → Node → Prop := Everywhere fun _ n => ∀ x ∈ n.strings, OneLine x

end Node

theorem oneLine_kind {n : Node} (h : ∀ x ∈ n.strings, OneLine x) : OneLine n.kind := by
  cases n with
  | unknown s kind => exact h kind (List.mem_singleton_self kind)
  | _ => simp +decide [Node.kind]

/-! ## Nodes written out in full -/

@[simp] theorem oneLine_flagOutline (b : Bool) : OneLine (flagOutline b) := by
  cases b <;> decide

theorem oneLine_valueOutline (v : Value) : Yields OneLine (valueOutline v) := by
  cases v with
  | text x => exact .ok (oneLine_quoted x)
  | number n => exact oneLine_numberText n
  | truth b => exact oneLine_valueText (v := .truth b) (by simp)
  | nothing => exact oneLine_valueText (v := .nothing) (by simp)

theorem oneLine_inParens {items : Except RenderError (List String)}
    (h : Yields (fun xs => ∀ x ∈ xs, OneLine x) items) : Yields OneLine (inParens items) := by
  refine h.bind fun xs hxs => ?_
  split
  · exact .ok (by simpa +decide using hxs)
  · exact .ok (by simpa using hxs)

theorem oneLine_record {n : Node} (hn : OneLine n.kind)
    {parts : List (String × Except RenderError String)}
    (h : ∀ part ∈ parts, OneLine part.1 ∧ Yields OneLine part.2) : Yields OneLine (record n parts) := by
  have hplace : ∀ x ∈ placeOutline n.span, OneLine x := by
    simp +decide [placeOutline, oneLine_of_numeric, numeric_repr]
  have hfields : ∀ part ∈ parts, Yields OneLine (do
      let text ← part.2
      return part.1 ++ "=" ++ text) := by
    intro part hpart
    obtain ⟨hname, htext⟩ := h part hpart
    exact htext.bind fun text htext => .ok (by simp +decide [hname, htext])
  refine (Yields.mapM hfields).bind fun fields hfields => .ok ?_
  simp only [oneLine_append, hn, oneLine_parenthesized, oneLine_listed, true_and]
  exact List.forall_mem_append.mpr ⟨hplace, hfields⟩

theorem oneLine_outlineEach {ns : List Node} (h : ∀ n ∈ ns, Yields OneLine (outline n)) :
    Yields OneLine (inParens (outlineEach ns)) := by
  apply oneLine_inParens
  rw [outlineEach_eq_mapM]
  exact .mapM h

theorem oneLine_outline {r : Role} {n : Node} (h : n.Unbroken r) : Yields OneLine (outline n) := by
  induction h with
  | @mk r n hn _ ih =>
    have hkind := oneLine_kind hn
    cases n with
    | absent => exact .ok (by decide)
    -- What has no parts is made of its strings, and they are quoted.
    | unknown | identifier | breaking | continuing | literal | tagName | markupText =>
      apply oneLine_record hkind
      simp +decide [Yields.ok, oneLine_valueOutline]
    | _ =>
      simp only [Node.parts, List.forall_mem_cons, List.forall_mem_append, List.forall_mem_map] at ih
      apply oneLine_record hkind
      simp +decide +contextual [Yields.ok, oneLine_outlineEach, ih]

/-! ## Names -/

/-- No string in the name has a line break. -/
def Name.Unbroken : Name → Prop
  | .text x => OneLine x
  | .node n => ∃ r, n.Unbroken r

section

variable {r : Role} {n : Node}

theorem unbroken_nameOf (h : n.Unbroken r) : Yields Name.Unbroken (nameOf n) := by
  cases n with
  | identifier s x => exact .ok (h.here x (List.mem_singleton_self x))
  | tagName s x => exact .ok (h.here x (List.mem_singleton_self x))
  | tagAttribute s name value => exact .ok ⟨_, h.part List.mem_cons_self⟩
  | element s name attributes children b => exact .ok ⟨_, h.part List.mem_cons_self⟩
  | _ => exact .error _

theorem oneLine_nameText {name : Name} (h : name.Unbroken) : Yields OneLine (nameText name) := by
  cases name with
  | text x => exact .ok h
  | node n =>
    obtain ⟨r, hn⟩ := h
    exact oneLine_outline hn

theorem oneLine_listedName {name : Name} (h : name.Unbroken) : Yields OneLine (listedName name) := by
  cases name with
  | text x => exact .ok h
  | node n => exact .error _

theorem oneLine_nameTextOf (h : n.Unbroken r) : Yields OneLine (nameTextOf n) :=
  (unbroken_nameOf h).bind fun _ hname => oneLine_nameText hname

theorem oneLine_reference (h : n.Unbroken r) : Yields OneLine (reference n) := by
  induction h with
  | @mk r n hn hparts ih =>
    cases n with
    | tagName s x => exact .ok (hn x (List.mem_singleton_self x))
    | tagMember s owner field =>
      simp only [Node.parts, List.forall_mem_cons] at hparts ih
      refine ih.1.bind fun path hpath => ?_
      refine (oneLine_nameTextOf hparts.2.1).bind fun name hname => .ok ?_
      simp +decide [hpath, hname]
    | _ => exact .error _

theorem oneLine_tag (h : n.Unbroken r) : Yields OneLine (tag n) := by
  cases n with
  | tagName s x => exact .ok (oneLine_quote.mpr (h.here x (List.mem_singleton_self x)))
  | _ => exact oneLine_reference h

end

/-! ## Expressions -/

namespace Node

/-- All expressions in the tree stand on one line. The renderer looks into containers and attributes
without taking them for expressions, so it is said of what is in them too. -/
def Flat : Role → Node → Prop := Everywhere fun _ n => Yields OneLine (Script.expression n)

end Node

/-- What holds of the quoted text, of the words and of the number holds of a literal. -/
theorem yields_literal {P : String → Prop} {value : Value} {raw : String} (template : Bool)
    (htext : ∀ x, value = .text x → P (quote x) ∧ P (Script.template x))
    (hwords : P "null" ∧ P "true" ∧ P "false")
    (hnumber : ∀ k, value = .number k → Yields P (numberOr raw k)) :
    Yields P (literal value raw template) := by
  cases value with
  | text x =>
    cases template
    · exact .ok (htext x rfl).1
    · exact .ok (htext x rfl).2
  | number k =>
    cases template
    · exact hnumber k rfl
    · exact .error _
  | truth b =>
    cases template
    · cases b
      · exact .ok hwords.2.2
      · exact .ok hwords.2.1
    · exact .error _
  | nothing =>
    cases template
    · exact .ok hwords.1
    · exact .error _

theorem oneLine_literal {value : Value} {raw : String} (template : Bool) {s : Span}
    (h : ∀ x ∈ (Node.literal s value raw template).strings, OneLine x) :
    Yields OneLine (literal value raw template) := by
  apply yields_literal
  · rintro x rfl
    have hx : OneLine x := h x List.mem_cons_self
    exact ⟨oneLine_quote.mpr hx, oneLine_template.mpr hx⟩
  · decide
  · rintro k rfl
    exact oneLine_numberOr (h raw List.mem_cons_self) k

section

variable {r : Role} {n : Node}

theorem oneLine_slot (h : n.Flat r) : Yields (fun x => ∀ text ∈ x, OneLine text) (slot n) := by
  cases n with
  | absent => exact .ok nofun
  | _ => exact h.here.bind fun text htext => .ok (by simpa using htext)

theorem oneLine_pair (hn : n.Unbroken r) (h : n.Flat r) : Yields OneLine (pair n) := by
  cases n with
  | property s key value =>
    have hvalue : value.Flat .expression := h.part (by simp [Node.parts])
    refine (oneLine_nameTextOf (hn.part List.mem_cons_self)).bind fun name hname => ?_
    exact hvalue.here.bind fun text htext => .ok (by simp +decide [hname, htext])
  | _ => exact .error _

theorem oneLine_propValue (hn : n.Unbroken r) (h : n.Flat r) : Yields OneLine (propValue n) := by
  cases n with
  | absent => exact .ok (by decide)
  | literal s value raw template =>
    have hvalue : ∀ x, value = .text x → OneLine x := by
      rintro x rfl
      exact hn.here x List.mem_cons_self
    exact (oneLine_valueText hvalue).bind fun text htext => .ok (oneLine_quote.mpr htext)
  | container s e =>
    have he : e.Flat .expression := h.part List.mem_cons_self
    exact he.here
  | _ => exact .error _

theorem oneLine_prop (hn : n.Unbroken r) (h : n.Flat r) : Yields OneLine (prop n) := by
  cases n with
  | tagAttribute s key value =>
    have hvalue : (Role.attributeValue, value) ∈ (Node.tagAttribute s key value).parts := by
      simp [Node.parts]
    refine (oneLine_nameTextOf (hn.part List.mem_cons_self)).bind fun name hname => ?_
    refine (oneLine_propValue (hn.part hvalue) (h.part hvalue)).bind fun text htext => .ok ?_
    simp +decide [hname, htext]
  | element s key attributes children b =>
    exact (oneLine_nameTextOf (hn.part List.mem_cons_self)).bind fun _ _ => .error _
  | _ => exact .error _

theorem oneLine_child (hn : n.Unbroken r) (h : n.Flat r) : Yields OneLine (child n) := by
  cases n with
  | markupText s x => exact .ok (oneLine_quote.mpr (hn.here x List.mem_cons_self))
  | container s e =>
    have he : e.Flat .expression := h.part List.mem_cons_self
    exact he.here
  | element s name attributes items b => exact h.here
  | fragment s items => exact h.here
  | _ => exact .error _

theorem oneLine_children {ns : List Node} (hn : ∀ n ∈ ns, n.Unbroken .child)
    (h : ∀ n ∈ ns, n.Flat .child) : Yields (fun xs => ∀ x ∈ xs, OneLine x) (children ns) := by
  rw [children_eq_mapM]
  exact .mapM fun n hmem => oneLine_child (hn n hmem) (h n hmem)

/-- An expression stands on one line if the expressions in it do. -/
theorem oneLine_of_parts (hn : n.Unbroken r) (h : ∀ part ∈ n.parts, part.2.Flat part.1) :
    Yields OneLine (Script.expression n) := by
  have hstrings := hn.here
  have hparts : ∀ part ∈ n.parts, part.2.Unbroken part.1 := fun part hpart => hn.part hpart
  cases n with
  | literal s value raw template => exact oneLine_literal template hstrings
  | identifier s x => exact .ok (hstrings x List.mem_cons_self)
  | binary s operator left right =>
    simp only [Node.parts, List.forall_mem_cons] at h
    have hop : OneLine operator := hstrings operator List.mem_cons_self
    refine h.1.here.bind fun x hx => h.2.1.here.bind fun y hy => .ok ?_
    simp +decide [binaryText, hop, hx, hy]
  | unary s operator argument before =>
    simp only [Node.parts, List.forall_mem_cons] at h
    have hop : OneLine operator := hstrings operator List.mem_cons_self
    refine h.1.here.bind fun x hx => .ok ?_
    cases before <;> simp [unaryText, hop, hx]
  | assignment s operator left right =>
    simp only [Node.parts, List.forall_mem_cons] at h
    have hop : OneLine operator := hstrings operator List.mem_cons_self
    refine h.1.here.bind fun x hx => h.2.1.here.bind fun y hy => .ok ?_
    simp +decide [looseText, hop, hx, hy]
  | conditional s test consequent alternate =>
    simp only [Node.parts, List.forall_mem_cons] at h
    refine h.1.here.bind fun x hx => h.2.1.here.bind fun y hy => h.2.2.1.here.bind fun z hz => .ok ?_
    simp +decide [looseText, hx, hy, hz]
  | call s callee arguments =>
    simp only [Node.parts, List.forall_mem_cons, List.forall_mem_map] at h
    have hitems : Yields (fun xs => ∀ x ∈ xs, OneLine x) (expressions arguments) := by
      rw [expressions_eq_mapM]
      exact .mapM fun m hm => (h.2 m hm).here
    refine hitems.bind fun xs hxs => h.1.here.bind fun x hx => .ok ?_
    simpa [operandText, hx] using hxs
  | member s owner field computed =>
    simp only [Node.parts, List.forall_mem_cons] at h
    cases computed with
    | true =>
      refine h.1.here.bind fun x hx => h.2.1.here.bind fun y hy => .ok ?_
      simp +decide [operandText, hx, hy]
    | false =>
      refine h.1.here.bind fun x hx => .skip fun bare => h.2.1.here.bind fun y hy => .ok ?_
      simp +decide [operandText, hx, hy]
  | array s items =>
    simp only [Node.parts, List.forall_mem_map] at h
    rw [Script.expression, slots_eq_mapM]
    exact (Yields.mapM fun m hm => oneLine_slot (h m hm)).bind fun xs hxs => .ok (oneLine_elements hxs)
  | object s properties =>
    simp only [Node.parts, List.forall_mem_map] at h hparts
    rw [Script.expression, pairs_eq_mapM]
    refine (Yields.mapM fun m hm => oneLine_pair (hparts m hm) (h m hm)).bind fun xs hxs => .ok ?_
    exact oneLine_braced (by decide) hxs
  | element s name attributes items b =>
    simp only [Node.parts, List.forall_mem_cons, List.forall_mem_append, List.forall_mem_map] at h hparts
    obtain ⟨⟨hname, hattributes⟩, hitems⟩ := hparts
    have hprops : Yields (fun xs => ∀ x ∈ xs, OneLine x) (props attributes) := by
      rw [props_eq_mapM]
      exact .mapM fun m hm => oneLine_prop (hattributes m hm) (h.1.2 m hm)
    refine (oneLine_tag hname).bind fun x hx => hprops.bind fun ys hys => ?_
    refine (oneLine_children hitems h.2).bind fun zs hzs => .ok ?_
    exact oneLine_createElement hx (oneLine_braced (by decide) hys) hzs
  | fragment s items =>
    simp only [Node.parts, List.forall_mem_map] at h hparts
    refine (oneLine_children hparts h).bind fun xs hxs => .ok ?_
    exact oneLine_createElement (by decide) (by decide) hxs
  | _ => exact .error _

theorem flat_of_unbroken (h : n.Unbroken r) : n.Flat r := by
  induction h with
  | @mk r n hn hparts ih =>
    have hunbroken : n.Unbroken r := .mk hn hparts
    exact .mk (oneLine_of_parts hunbroken ih) ih

theorem oneLine_expression (h : n.Unbroken r) : Yields OneLine (Script.expression n) :=
  (flat_of_unbroken h).here

/-! ## Declarations and the heads of statements -/

theorem unbroken_slotName? (h : n.Unbroken r) :
    Yields (fun name? => ∀ name ∈ name?, name.Unbroken) (slotName? n) := by
  cases n with
  | absent => exact .ok nofun
  | _ =>
    refine (unbroken_nameOf h).bind fun name hname => ?_
    split
    · exact .ok nofun
    · exact .ok (by simpa using hname)

theorem oneLine_pattern (h : n.Unbroken r) : Yields OneLine (pattern n) := by
  cases n with
  | identifier s x => exact .ok (h.here x List.mem_cons_self)
  | arrayPattern s items =>
    have hlisted : ∀ name? : Option Name, (∀ name ∈ name?, name.Unbroken) →
        Yields (fun x => ∀ text ∈ x, OneLine text) (name?.mapM listedName) := by
      intro name? hname
      cases name? with
      | none => exact .ok nofun
      | some name => exact (oneLine_listedName (hname name rfl)).bind fun x hx => .ok (by simpa using hx)
    have hnames : ∀ m ∈ items, Yields (fun name? => ∀ name ∈ name?, name.Unbroken) (slotName? m) :=
      fun m hm => unbroken_slotName? (h.part (List.mem_map_of_mem hm))
    refine (Yields.mapM hnames).bind fun names hnames => ?_
    refine (Yields.mapM fun name? hname => hlisted name? (hnames name? hname)).bind fun xs hxs => .ok ?_
    exact oneLine_elements hxs
  | _ => exact .error _

theorem oneLine_declarator (h : n.Unbroken r) : Yields OneLine (declarator n) := by
  cases n with
  | declarator s target initial =>
    have hinitial : initial.Unbroken .optional := h.part (by simp [Node.parts])
    refine (oneLine_pattern (h.part List.mem_cons_self)).bind fun name hname => ?_
    by_cases habsent : initial.isAbsent = true
    · rw [if_pos habsent]
      exact .ok hname
    · rw [if_neg habsent]
      exact (oneLine_expression hinitial).bind fun x hx => .ok (by simp +decide [hname, hx])
  | function s name params body =>
    exact (oneLine_pattern (h.part List.mem_cons_self)).bind fun _ _ => .error _
  | _ => exact .error _

theorem oneLine_declaration (h : n.Unbroken r) : Yields OneLine (declaration n) := by
  cases n with
  | declaration s keyword declarators =>
    have hkeyword : OneLine keyword := h.here keyword List.mem_cons_self
    have hitems : ∀ m ∈ declarators, Yields OneLine (declarator m) :=
      fun m hm => oneLine_declarator (h.part (List.mem_map_of_mem hm))
    refine (Yields.mapM hitems).bind fun xs hxs => .ok ?_
    simpa +decide [hkeyword] using hxs
  | _ => exact .error _

theorem oneLine_optional (h : n.Unbroken r) : Yields OneLine (Script.optional n) := by
  unfold Script.optional
  split
  · exact .ok (by decide)
  · exact oneLine_expression h

theorem oneLine_initialPart (h : n.Unbroken r) : Yields OneLine (initialPart n) := by
  cases n with
  | declaration s keyword declarators => exact oneLine_declaration h
  | _ => exact oneLine_optional h

theorem unbroken_importSpecifier (h : n.Unbroken r) : Yields Name.Unbroken (importSpecifier n) := by
  cases n with
  | importSpecifier s imported localName =>
    have hlocal : localName.Unbroken .word := h.part (by simp [Node.parts])
    refine (unbroken_nameOf (h.part List.mem_cons_self)).bind fun theirs htheirs => ?_
    refine (unbroken_nameOf hlocal).bind fun ours hours => ?_
    by_cases hsame : theirs.same ours = true
    · rw [if_pos hsame]
      exact .ok hours
    · rw [if_neg hsame]
      refine (oneLine_nameText htheirs).bind fun x hx => (oneLine_nameText hours).bind fun y hy => .ok ?_
      simp +decide [Name.Unbroken, hx, hy]
  | _ => exact .error _

theorem oneLine_importSource (h : n.Unbroken r) : Yields OneLine (importSource n) := by
  cases n with
  | literal s value raw template =>
    cases value with
    | text x => exact .ok (oneLine_quote.mpr (h.here x List.mem_cons_self))
    | _ => exact .error _
  | markupText s x => exact .ok (oneLine_quote.mpr (h.here x List.mem_cons_self))
  | _ => exact .error _

end

end HanScript
