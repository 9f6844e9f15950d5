-- Why tokens do not form a program, and the message that says so.
import HanScript.Token

namespace HanScript

/-- What does not fit. -/
inductive Misfit where
  | expected (wanted found : TokenKind)
  | unexpected (text : String)
  | badNumeral (text : String)
  /-- An attribute is given neither a quoted text nor an expression in braces. -/
  | badAttribute (name : String)
  | unclosedMarkup
  /-- More steps than there are tokens. Every rule that is repeated moves on by a token,
  so this does not happen. -/
  | overrun
  /-- A complaint in words of its own. -/
  | complaint (text : String)
deriving DecidableEq, Inhabited

namespace Misfit

def message : Misfit → String
  | expected wanted found => "Expected " ++ wanted.name ++ " but found " ++ found.name
  | unexpected text => "Unexpected token: " ++ text
  | badNumeral text => "Invalid number literal: " ++ text
  | badAttribute name => "Expected string or \x7bexpression\x7d for attribute '" ++ name ++ "'"
  | unclosedMarkup => "Unterminated JSX element"
  | overrun => "Too many steps"
  | complaint text => text

/-- The kind of token that was wanted, if one was. -/
def wanted? : Misfit → Option TokenKind
  | expected wanted _ => some wanted
  | _ => none

/-- The kind of token that was found in its place. -/
def found? : Misfit → Option TokenKind
  | expected _ found => some found
  | _ => none

end Misfit

/-- A misfit, and where it is. -/
structure ParseError where
  line : Int
  column : Int
  misfit : Misfit
deriving DecidableEq, Inhabited

namespace ParseError

/-- A misfit at a token. -/
def atToken (t : Token) (m : Misfit) : ParseError := ⟨t.span.line, t.span.column, m⟩

def message (e : ParseError) : String :=
  "Parse Error at line " ++ toString e.line ++ ", column " ++ toString e.column ++ ": "
    ++ e.misfit.message

end ParseError

end HanScript
