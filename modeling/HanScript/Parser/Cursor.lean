-- A place in a list of tokens. The list always ends with an end token, and
-- the cursor never moves past the first end token.
import HanScript.Token

namespace HanScript

structure Cursor where
  /-- The tokens behind, the latest first. -/
  behind : List Token
  /-- The tokens ahead, without the last one of all. -/
  ahead : List Token
  /-- The last token of all. -/
  last : Token
  closed : last.kind = .eof

namespace Cursor

/-- The start of a list of tokens. An end token is added if the list does not end with
one. -/
def ofTokens (tokens : List Token) : Cursor :=
  match tokens.getLast? with
  | none => ⟨[], [], Token.endOfNothing, rfl⟩
  | some t =>
    if h : t.kind = .eof then ⟨[], tokens.dropLast, t, h⟩ else ⟨[], tokens, t.endAfter, rfl⟩

/-- All tokens, those behind and those ahead. -/
def tokens (c : Cursor) : List Token := c.behind.reverse ++ c.ahead ++ [c.last]

/-- How many tokens are behind. -/
def position (c : Cursor) : Nat := c.behind.length

def current (c : Cursor) : Token := c.ahead.headD c.last

/-- The token after the current one, or the last one again. -/
def next (c : Cursor) : Token := (c.ahead.drop 1).headD c.last

/-- The token before the current one. At the start it is the current one. -/
def previous (c : Cursor) : Token := c.behind.headD c.current

/-- As many items as there are tokens from here on, the last one of all included. What is
done at most once for each of them is counted off on this list. -/
def budget (c : Cursor) : List Token := c.last :: c.ahead

/-- Moves past the current token, unless it is an end token. -/
def advance (c : Cursor) : Cursor :=
  match c.ahead with
  | [] => c
  | t :: ts => if t.kind = .eof then c else { c with behind := t :: c.behind, ahead := ts }

theorem advance_of_eof {c : Cursor} (h : c.current.kind = .eof) : c.advance = c := by
  unfold current at h
  unfold advance
  cases hc : c.ahead with
  | nil => rfl
  | cons t ts =>
    rw [hc] at h
    exact if_pos h

/-- Before the end the current token is the first one ahead, and moving on leaves it behind. -/
theorem advance_of_ne_eof {c : Cursor} (h : c.current.kind ≠ .eof) :
    c.advance.behind = c.current :: c.behind ∧ c.ahead = c.current :: c.advance.ahead ∧
      c.advance.last = c.last := by
  unfold current at h ⊢
  unfold advance
  cases hc : c.ahead with
  | nil =>
    rw [hc] at h
    exact absurd c.closed h
  | cons t ts =>
    rw [hc] at h
    have ht : t.kind ≠ .eof := h
    simp [ht]

/-- The token `offset` tokens from here. After the end it is the last one, and a place
before the start counts from the end; too far before the start there is none. -/
def glance? (c : Cursor) (offset : Int) : Option Token :=
  let target := c.position + offset
  let index := if target < 0 then target + c.tokens.length else target
  if index < 0 then none else some (c.tokens[index.toNat]?.getD c.last)

/-- The span of something that began at `first` and ends before the current token. -/
def spanFrom (c : Cursor) (first : Span) : Span :=
  { first with stop := max first.stop c.previous.span.stop }

end Cursor

end HanScript
