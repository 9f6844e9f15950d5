-- Parsers: steps over a cursor that give a result or fail. A parser that
-- fails leaves the cursor where it was at that moment.
import HanScript.Parser.Cursor
import HanScript.Parser.Error

namespace HanScript

/-- Takes a cursor to a result or an error, and to the place that it reached. -/
def Parser (α : Type) : Type := Cursor → Except ParseError α × Cursor

namespace Parser

variable {α β σ : Type}

protected def pure (a : α) : Parser α := fun c => (.ok a, c)

protected def bind (p : Parser α) (f : α → Parser β) : Parser β := fun c =>
  match p c with
  | (.ok a, c) => f a c
  | (.error e, c) => (.error e, c)

instance : Monad Parser where
  pure := Parser.pure
  bind := Parser.bind

/-! ## Single steps -/

/-- Reads something off the cursor and leaves it where it is. -/
def look (f : Cursor → α) : Parser α := fun c => (.ok (f c), c)

def fail (e : ParseError) : Parser α := fun c => (.error e, c)

def peek : Parser Token := look Cursor.current

/-- Gives the current token and moves past it, unless it is an end token. -/
def advance : Parser Token := fun c => (.ok c.current, c.advance)

/-- Whether the current token is of the given kind. -/
def isAt (kind : TokenKind) : Parser Bool := look fun c => c.current.kind = kind

def isNotAt (kind : TokenKind) : Parser Bool := look fun c => c.current.kind ≠ kind

/-- Whether the current token is of one of the given kinds. -/
def isAtAny (kinds : List TokenKind) : Parser Bool := look fun c => c.current.kind ∈ kinds

def isNotAtAny (kinds : List TokenKind) : Parser Bool := look fun c => c.current.kind ∉ kinds

/-- A misfit at the current token. -/
def misfit (m : Misfit) : Parser α := do fail (.atToken (← peek) m)

/-- Takes the current token if it is of one of the given kinds. -/
def accept? (kinds : List TokenKind) : Parser (Option Token) := do
  if ← isAtAny kinds then
    let token ← advance
    return some token
  else return none

/-- Takes the current token if it is of the given kind, and says whether it was. -/
def accept (kind : TokenKind) : Parser Bool := do
  if ← isAt kind then
    let _ ← advance
    return true
  else return false

/-- Takes a token of the given kind. -/
def expect (kind : TokenKind) : Parser Token := do
  let token ← peek
  if token.kind = kind then advance else misfit (.expected kind token.kind)

/-- The span of something that began at `first` and ends with the token just taken. -/
def spanFrom (first : Span) : Parser Span := look fun c => c.spanFrom first

/-! ## Repetition -/

/-- Takes steps from `s` until one gives `none`, at most one for each item of the budget. -/
def stepsWithin : List Token → (σ → Parser (Option σ)) → σ → Parser σ
  | [], _, _ => misfit .overrun
  | _ :: budget, step, s => do
    match ← step s with
    | none => return s
    | some t => stepsWithin budget step t

/-- Takes steps from `s` until one gives `none`. Every other step has to move on, so
there are no more of them than tokens ahead. -/
def steps (step : σ → Parser (Option σ)) (s : σ) : Parser σ := fun c =>
  stepsWithin c.budget step s c

/-- Items one after the other, as long as `more` holds. -/
def manyWhile (more : Parser Bool) (item : Parser α) : Parser (List α) := do
  let items ← steps (fun items => do
    if ← more then
      let a ← item
      return some (a :: items)
    else return none) []
  return items.reverse

/-- One item or more, with commas between them. -/
def separated (item : Parser α) : Parser (List α) := do
  let first ← item
  let rest ← manyWhile (isAt .comma) (do
    let _ ← advance
    item)
  return first :: rest

/-- Items with commas between them up to a closing token, which is left. -/
def separatedUntil (close : TokenKind) (item : Parser α) : Parser (List α) := do
  if ← isAt close then return [] else separated item

/-- Items with commas between them up to a closing token, which is left. A comma may
stand after the last one too. -/
def listUntil (close : TokenKind) (item : Parser α) : Parser (List α) := do
  let (items, _) ← steps (fun (items, more) => do
    if !more then return none
    else if ← isAt close then return none
    else
      let a ← item
      let comma ← accept .comma
      return some (a :: items, comma)) ([], true)
  return items.reverse

end Parser

end HanScript
