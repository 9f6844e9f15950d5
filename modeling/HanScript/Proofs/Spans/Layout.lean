-- How the nodes of a tree are laid out over the tokens: each from one token
-- through a later one, and its parts one after the other in between.
import HanScript.Proofs.Conformance.Role
import HanScript.Proofs.Parsing.Onward

namespace HanScript

namespace Node

/-- The parts of a node in the order in which they stand in the source. The two names of an import
specifier are one word there. -/
def row : Node → List Node
  | absent | unknown .. | identifier .. | breaking _ | continuing _ | literal .. | tagName ..
  | markupText .. => []
  | program _ body | block _ body => body
  | arrayPattern _ elements | array _ elements => elements
  | declarator _ target initial => [target, initial]
  | declaration _ _ declarators => declarators
  | function _ name params body => name :: (params ++ [body])
  | ifElse _ test consequent alternate | conditional _ test consequent alternate =>
    [test, consequent, alternate]
  | whileLoop _ test body => [test, body]
  | forLoop _ initial test update body => [initial, test, update, body]
  | returning _ argument | unary _ _ argument _ => [argument]
  | importSpecifier _ imported _ => [imported]
  | importing _ specifiers source => specifiers ++ [source]
  | exporting _ exported _ => [exported]
  | expressionStatement _ e | container _ e => [e]
  | binary _ _ left right | assignment _ _ left right => [left, right]
  | call _ callee arguments => callee :: arguments
  | member _ owner field _ | tagMember _ owner field => [owner, field]
  | property _ key value => [key, value]
  | object _ properties => properties
  | tagAttribute _ name value => [name, value]
  | element _ name attributes children _ => name :: (attributes ++ children)
  | fragment _ children => children

/-- The name that an import specifier gives here is the one that it imports. -/
def SharesName : Node → Prop
  | importSpecifier _ imported localName => localName = imported
  | _ => True

variable {n : Node}

/-- A row has all the parts, apart from the second name of an import specifier. -/
theorem row_perm_parts (h : ∀ s imported localName, n ≠ importSpecifier s imported localName) :
    n.row.Perm (n.parts.map Prod.snd) := by
  cases n with
  | function s name params body =>
    simp only [row, parts, List.map_cons, List.map_map, Function.comp_def, List.map_id']
    exact (List.perm_append_singleton body params).cons name
  | importing s specifiers source =>
    simp only [row, parts, List.map_cons, List.map_map, Function.comp_def, List.map_id']
    exact List.perm_append_singleton source specifiers
  | importSpecifier => exact absurd rfl (h _ _ _)
  | _ => simp [row, parts, Function.comp_def]

theorem mem_row_of_part (h : n.SharesName) {part : Role × Node} (hpart : part ∈ n.parts) :
    part.2 ∈ n.row := by
  cases n with
  | importSpecifier s imported localName =>
    obtain rfl : localName = imported := h
    simp only [parts, List.mem_cons, List.not_mem_nil, or_false] at hpart
    rcases hpart with rfl | rfl
    · exact List.mem_singleton.mpr rfl
    · exact List.mem_singleton.mpr rfl
  | _ =>
    refine (row_perm_parts ?_).mem_iff.mpr (List.mem_map_of_mem hpart)
    simp

end Node

namespace Cursor

theorem Precedes.tokens {c d : Cursor} (h : c.Precedes d) : d.tokens = c.tokens := by
  obtain ⟨w, hw⟩ := h
  exact hw.tokens.1

/-- Nothing but opening parentheses stands between. -/
def Unwraps (c a : Cursor) : Prop := ∃ w, c.Passes w a ∧ ∀ t ∈ w, t.kind = .leftParen

/-- The span begins with the current token of `a`, and has been drawn on up to `b`. -/
inductive Spans (a : Cursor) : Span → Cursor → Prop where
  | token {b} : Spans a (b.spanFrom a.current.span) b
  | onward {s b d} : Spans a s b → b.Precedes d → Spans a (d.spanFrom s) d

namespace Unwraps

variable {c a : Cursor}

theorem refl (c : Cursor) : c.Unwraps c := ⟨[], rfl, by simp⟩

theorem paren (hk : c.current.kind = .leftParen) (h : c.advance.Unwraps a) : c.Unwraps a := by
  obtain ⟨w, hw, hall⟩ := h
  exact ⟨_, (passes_kind hk (by decide)).cons hw, List.forall_mem_cons.mpr ⟨rfl, hall⟩⟩

theorem precedes (h : c.Unwraps a) : c.Precedes a := by
  obtain ⟨w, hw, -⟩ := h
  exact ⟨w, hw⟩

theorem eq_of_ne (h : c.Unwraps a) (hk : c.current.kind ≠ .leftParen) : a = c := by
  obtain ⟨w, hw, hall⟩ := h
  cases w with
  | nil => exact hw
  | cons t w => exact absurd (hw.kind.trans (hall t List.mem_cons_self)) hk

end Unwraps

end Cursor

/-- A rule reads a statement from the cursor and gives the node: the rule of statements itself, that of
an `if` after an `else if`, that of a block for the body of a function, or that of a declaration in
the head of a loop. -/
inductive StatementAt : Cursor → Node → Prop where
  | statement {c n d} : Parser.statement.Gives c n d → StatementAt c n
  | elseIf {c n d} : c.current.kind = .elseIfWord →
    (Parser.nestedStatement Parser.Rule.ifElse).Gives c n d → StatementAt c n
  | body {c n d} : (Parser.nestedStatement Parser.Rule.block).Gives c n d → StatementAt c n
  | initial {c n d} : c.current.kind = .letWord ∨ c.current.kind = .constWord →
    Parser.declaration.Gives c n d → StatementAt c n

mutual

/-- The node is spread from the current token of `a` through the last one before `b`. A statement
was read where it begins or before parentheses that open there. -/
inductive Spread : Cursor → Node → Cursor → Prop where
  | mk {a n b} : Row a n.row b → a.position < b.position → a.current.kind ≠ .leftParen →
    a.Spans n.span b → (n.isStatement = false ∨ ∃ c, c.Unwraps a ∧ StatementAt c n) →
    n.SharesName → Spread a n b

/-- Between the cursors the nodes stand one after the other, and other tokens between them. -/
inductive Row : Cursor → List Node → Cursor → Prop where
  | done {c} : Row c [] c
  | skip {c d ns e} : c.Precedes d → Row d ns e → Row c ns e
  | hole {c ns d} : Row c ns d → Row c (.absent :: ns) d
  | node {c n d ns e} : Spread c n d → Row d ns e → Row c (n :: ns) e

end

mutual

theorem Spread.precedes {a b : Cursor} {n : Node} : Spread a n b → a.Precedes b
  | .mk hrow _ _ _ _ _ => hrow.precedes

theorem Row.precedes {c d : Cursor} {ns : List Node} : Row c ns d → c.Precedes d
  | .done => .refl _
  | .skip hskip hrow => hskip.trans hrow.precedes
  | .hole hrow => hrow.precedes
  | .node hn hrow => hn.precedes.trans hrow.precedes

end

namespace Row

variable {c d e : Cursor} {ns : List Node}

/-- Induction along a row, with the nodes in it taken as they are. -/
theorem induction {motive : ∀ {c ns d}, Row c ns d → Prop} (done : ∀ {c}, motive (@Row.done c))
    (skip : ∀ {c d : Cursor} {ns e} (hskip : c.Precedes d) (hrow : Row d ns e), motive hrow →
      motive (Row.skip hskip hrow))
    (hole : ∀ {c ns d} (hrow : Row c ns d), motive hrow → motive (Row.hole hrow))
    (node : ∀ {c n d ns e} (hn : Spread c n d) (hrow : Row d ns e), motive hrow →
      motive (Row.node hn hrow)) {c ns d} : (h : Row c ns d) → motive h
  | .done => done
  | .skip hskip hrow => skip hskip hrow (Row.induction done skip hole node hrow)
  | .hole hrow => hole hrow (Row.induction done skip hole node hrow)
  | .node hn hrow => node hn hrow (Row.induction done skip hole node hrow)

theorem passed {w : List Terminal} (h : c.Passes w d) (hrow : Row d ns e) : Row c ns e :=
  .skip ⟨w, h⟩ hrow

theorem ended (h : c.Precedes d) : Row c [] d := .skip h .done

theorem append {ms : List Node} (h : Row c ns d) (h' : Row d ms e) : Row c (ns ++ ms) e := by
  induction h using Row.induction with
  | done => exact h'
  | skip hskip _ ih => exact .skip hskip (ih h')
  | hole _ ih => exact .hole (ih h')
  | node hn _ ih => exact .node hn (ih h')

theorem onward (h : Row c ns d) (h' : d.Precedes e) : Row c ns e := by
  simpa using h.append (.ended h')

end Row

/-! ## All the way down -/

section Everywhere

variable {P : Role → Node → Prop} {tokens : List Token}

mutual

/-- What holds of every node that is spread over some tokens holds in the whole tree. -/
theorem Spread.everywhere (habsent : ∀ {r n}, n.isAbsent = true → P r n)
    (hspread : ∀ {r a n b}, a.tokens = tokens → Spread a n b → P r n) {a b : Cursor} {n : Node} :
    Spread a n b → a.tokens = tokens → ∀ r, Node.Everywhere P r n
  | .mk hrow hlt hk hspan hstatement hname, ha, _ =>
    .mk (hspread ha (.mk hrow hlt hk hspan hstatement hname)) fun part hpart =>
      hrow.everywhere habsent hspread ha part.2 (Node.mem_row_of_part hname hpart) part.1

theorem Row.everywhere (habsent : ∀ {r n}, n.isAbsent = true → P r n)
    (hspread : ∀ {r a n b}, a.tokens = tokens → Spread a n b → P r n) {c d : Cursor}
    {ns : List Node} : Row c ns d → c.tokens = tokens → ∀ m ∈ ns, ∀ r, Node.Everywhere P r m
  | .done, _, m, hm, _ => absurd hm List.not_mem_nil
  | .skip hskip hrow, hc, m, hm, r =>
    hrow.everywhere habsent hspread (hskip.tokens.trans hc) m hm r
  | .hole hrow, hc, m, hm, r => by
    rcases List.mem_cons.mp hm with rfl | hm
    · exact .leaf (habsent rfl) rfl
    · exact hrow.everywhere habsent hspread hc m hm r
  | .node hn hrow, hc, m, hm, r => by
    have hfirst := hn.everywhere habsent hspread hc r
    have hrest := hrow.everywhere habsent hspread (hn.precedes.tokens.trans hc)
    rcases List.mem_cons.mp hm with rfl | hm
    · exact hfirst
    · exact hrest m hm r

end

end Everywhere

/-! ## Nodes that rules give -/

/-- The node lies between the cursors. There may be opening parentheses before it, and what closes
it may come after it. -/
def Lies (c : Cursor) (n : Node) (d : Cursor) : Prop :=
  ∃ a b, c.Unwraps a ∧ Spread a n b ∧ b.Precedes d

namespace Lies

variable {c d e : Cursor} {n : Node} {ns : List Node}

theorem cons (h : Lies c n d) (hrow : Row d ns e) : Row c (n :: ns) e := by
  obtain ⟨a, b, hopen, hn, hclose⟩ := h
  exact .skip hopen.precedes (.node hn (.skip hclose hrow))

theorem row (h : Lies c n d) : Row c [n] d := h.cons .done

theorem precedes (h : Lies c n d) : c.Precedes d := h.row.precedes

theorem onward (h : Lies c n d) (h' : d.Precedes e) : Lies c n e := by
  obtain ⟨a, b, hopen, hn, hclose⟩ := h
  exact ⟨a, b, hopen, hn, hclose.trans h'⟩

theorem parenthesized (hk : c.current.kind = .leftParen) (h : Lies c.advance n d) :
    Lies c n d := by
  obtain ⟨a, b, hopen, hn, hclose⟩ := h
  exact ⟨a, b, hopen.paren hk, hn, hclose⟩

/-- A node that was read from where it begins. -/
theorem ofSpan {t : Terminal} (ht : c.Passes [t] d) (hde : d.Precedes e) (hk : t.kind ≠ .leftParen)
    (hrow : Row c n.row e) (hspan : c.Spans n.span e)
    (hstatement : n.isStatement = false ∨ StatementAt c n) (hname : n.SharesName) :
    Lies c n e := by
  have hposition := ht.position
  have hle := hde.position_le
  refine ⟨c, e, .refl c, .mk hrow ?_ ?_ hspan ?_ hname, .refl e⟩
  · rw [List.length_singleton] at hposition
    omega
  · rw [ht.kind]
    exact hk
  · exact hstatement.imp_right fun h => ⟨c, .refl c, h⟩

/-- A node whose span begins with the token that was taken first. -/
theorem ofToken {t : Terminal} (ht : c.Passes [t] d) (hk : t.kind ≠ .leftParen)
    (hrow : Row d n.row e) (hspan : n.span = e.spanFrom c.current.span)
    (hstatement : n.isStatement = false ∨ StatementAt c n) (hname : n.SharesName) :
    Lies c n e := by
  refine ofSpan ht hrow.precedes hk (.passed ht hrow) ?_ hstatement hname
  rw [hspan]
  exact .token

/-- A node whose span begins with its first part. -/
theorem ofNode {first : Node} {rest : List Node} (hfirst : Lies c first d) (hrest : Row d rest e)
    (hrow : n.row = first :: rest) (hspan : n.span = e.spanFrom first.span)
    (hstatement : n.isStatement = false ∨ StatementAt c n) (hname : n.SharesName) :
    Lies c n e := by
  obtain ⟨a, b, hopen, hlaid, hclose⟩ := hfirst
  have honward := hclose.trans hrest.precedes
  have hle := honward.position_le
  have hinside : Row a n.row e := by
    rw [hrow]
    exact .node hlaid (.skip hclose hrest)
  obtain ⟨-, hlt, hk, hspans, -, -⟩ := hlaid
  refine ⟨a, e, hopen, .mk hinside (by omega) hk ?_ ?_ hname, .refl e⟩
  · rw [hspan]
    exact hspans.onward honward
  · exact hstatement.imp_right fun h => ⟨c, hopen, h⟩

end Lies

namespace Parser

variable {α : Type}

/-- What the parser gives lies between where it begins and where it ends. -/
def Places (p : Parser Node) : Prop := ∀ ⦃c n d⦄, p.Gives c n d → Lies c n d

/-- What the parser gives is a row of nodes between where it begins and where it ends. -/
def Rows (p : Parser α) (row : α → List Node) : Prop := ∀ ⦃c a d⦄, p.Gives c a d → Row c (row a) d

theorem Places.rows {p : Parser Node} (h : Places p) : Rows p ([·]) := fun _ _ _ hp => (h hp).row

/-! ## Lists -/

theorem manyWhile_rows {more : Cursor → Bool} {item : Parser α} {row : α → List Node}
    (h : Rows item row) : Rows (manyWhile (look more) item) (·.flatMap row) := by
  intro c as e hq
  obtain ⟨r, hr, rfl⟩ := manyWhile_gives.mp hq
  -- The items are gathered in reverse.
  obtain ⟨d, hrow, hs⟩ := steps_keep (I := fun items d => Row c (items.reverse.flatMap row) d)
    (fun items d items' d' hrow hs => by
      obtain ⟨-, a, ha, rfl⟩ := manyStep_some.mp hs
      simpa using hrow.append (h ha)) .done hr
  obtain ⟨-, rfl⟩ := manyStep_none.mp hs
  exact hrow

variable {item : Parser Node}

theorem separated_rows (h : Rows item ([·])) : Rows (separated item) id := by
  intro c ns e hq
  simp only [separated, bind_gives, pure_gives] at hq
  obtain ⟨first, d, hf, rest, _, hr, rfl, rfl⟩ := hq
  have hitem : Rows (do let _ ← advance
                        item : Parser Node) ([·]) := by
    intro c n d hn
    simp only [bind_gives, advance_gives] at hn
    obtain ⟨_, _, ⟨rfl, rfl⟩, hn⟩ := hn
    exact .skip (Cursor.precedes_advance c) (h hn)
  simpa using (h hf).append (manyWhile_rows hitem hr)

theorem separatedUntil_rows {close : TokenKind} (h : Rows item ([·])) :
    Rows (separatedUntil close item) id := by
  intro c ns d hq
  simp only [separatedUntil, bind_gives, isAt_gives] at hq
  obtain ⟨_, _, ⟨rfl, rfl⟩, hq⟩ := hq
  split at hq
  · obtain ⟨rfl, rfl⟩ := pure_gives.mp hq
    exact .done
  · exact separated_rows h hq

theorem listUntil_rows {close : TokenKind} (h : Rows item ([·])) :
    Rows (listUntil close item) id := by
  intro c ns e hq
  obtain ⟨r, hr, rfl⟩ := listUntil_gives.mp hq
  obtain ⟨d, hrow, hs⟩ := steps_keep (I := fun r d => Row c r.1.reverse d)
    (fun r d r' d' hrow hs => by
      obtain ⟨-, -, n, d₁, comma, hn, hcomma, rfl⟩ := listStep_some.mp hs
      have hmore := hrow.append (h hn)
      rcases accept_gives.mp hcomma with ⟨rfl, -, rfl⟩ | ⟨rfl, -, rfl⟩
      · simpa using hmore.onward (Cursor.precedes_advance d₁)
      · simpa using hmore) .done hr
  obtain ⟨-, rfl⟩ := listStep_none.mp hs
  exact hrow

theorem slot_rows (h : Rows item ([·])) : Rows (Rule.slot item) ([·]) := by
  intro c n e hq
  simp only [Rule.slot, bind_gives, accept_gives] at hq
  obtain ⟨_, _, ⟨rfl, -, rfl⟩ | ⟨rfl, -, rfl⟩, hq⟩ := hq
  · obtain ⟨rfl, rfl⟩ := pure_gives.mp hq
    exact .hole (.ended (Cursor.precedes_advance c))
  · simp only [Bool.false_eq_true, if_false, bind_gives, isAt_gives] at hq
    obtain ⟨n', d, hn, _, _, ⟨rfl, rfl⟩, hq⟩ := hq
    split at hq
    · obtain ⟨rfl, rfl⟩ := pure_gives.mp hq
      exact h hn
    · simp (disch := decide) only [bind_gives, expect_gives, pure_gives] at hq
      obtain ⟨_, _, ⟨rfl, hp⟩, rfl, rfl⟩ := hq
      exact (h hn).onward ⟨_, hp⟩

/-- What stands in brackets, and the span from the one through the other. -/
theorem bracketed_rows (h : Rows item ([·])) {c e : Cursor} {s : Span} {ns : List Node}
    (hq : (Rule.bracketed item).Gives c (s, ns) e) :
    ∃ d t, c.Passes [t] d ∧ t.kind = .leftBracket ∧ Row d ns e ∧ s = e.spanFrom c.current.span := by
  simp (disch := decide) only [Rule.bracketed, bind_gives, expect_gives, spanFrom_gives, pure_gives]
    at hq
  obtain ⟨_, d, ⟨rfl, hl⟩, ns', d', hns, _, _, ⟨rfl, hr⟩, _, _, ⟨rfl, rfl⟩, heq, rfl⟩ := hq
  obtain ⟨rfl, rfl⟩ := Prod.mk.inj heq
  have hrow := manyWhile_rows (slot_rows h) hns
  exact ⟨d, _, hl, rfl, by simpa using hrow.onward ⟨_, hr⟩, rfl⟩

end Parser

end HanScript
