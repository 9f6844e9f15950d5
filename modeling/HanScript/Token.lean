-- A token: what it is, its text, and where it stands in the source.
import HanScript.Token.Kind

namespace HanScript

/-- A stretch of the source. The line and the column are those of its first character;
`start` and `stop` are offsets, and the character at `stop` is the first one after it.
Spans of tokens made by hand are arbitrary, so the numbers are integers. -/
structure Span where
  line : Int := 0
  column : Int := 0
  start : Int := 0
  stop : Int := 0
deriving DecidableEq, Inhabited

structure Token where
  kind : TokenKind
  value : String
  span : Span
deriving DecidableEq, Inhabited

namespace Token

/-- A token as a listing shows it. -/
def shown (t : Token) : String :=
  "Token(" ++ t.kind.name ++ ", \"" ++ t.value ++ "\", " ++ toString t.span.line ++ ":"
    ++ toString t.span.column ++ ")"

/-- The end token of an empty list of tokens. -/
def endOfNothing : Token := ⟨.eof, "", ⟨1, 1, 0, 0⟩⟩

/-- The end token that follows `t` directly. -/
def endAfter (t : Token) : Token :=
  ⟨.eof, "", ⟨t.span.line, t.span.column + (t.span.stop - t.span.start), t.span.stop, t.span.stop⟩⟩

/-- The text that an error names the token by: its value, or its kind if it has none. -/
def text (t : Token) : String := if t.value.isEmpty then t.kind.name else t.value

end Token

end HanScript
