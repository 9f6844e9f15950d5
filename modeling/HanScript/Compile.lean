-- From source text to JavaScript, and what the stages report on the way.
import HanScript.Parser.Statement
import HanScript.Scanner
import HanScript.Script.Statement
import HanScript.Text.Printable

namespace HanScript

def version : String := "0.1.0"

inductive CompileError where
  | parse (e : ParseError)
  | render (e : RenderError)
deriving DecidableEq, Inhabited

/-- The program that a source text forms. -/
def parseSource (source : String) : Except ParseError Node := parse (tokenize source)

/-- The JavaScript text of a source text. -/
def compile (source : String) : Except CompileError String :=
  match parseSource source with
  | .error e => .error (.parse e)
  | .ok program =>
    match render program with
    | .error e => .error (.render e)
    | .ok script => .ok script

/-! ## Events -/

inductive Stage where
  | scanning
  | parsing
  | rendering
deriving DecidableEq, Inhabited

/-- What a stage reports. -/
inductive Event where
  | stray (text : String) (line column : Int)
  | tokenized (characters tokens : Nat)
  | parsed (statements : Nat)
  | rendered (characters statements : Nat)
deriving DecidableEq, Inhabited

namespace Event

def stage : Event → Stage
  | stray .. | tokenized .. => .scanning
  | parsed .. => .parsing
  | rendered .. => .rendering

def message : Event → String
  | stray text line column =>
    "Unrecognized character " ++ Text.quoted text ++ " at line " ++ toString line
      ++ ", column " ++ toString column
  | tokenized characters tokens =>
    "Tokenized " ++ toString characters ++ " characters into " ++ toString tokens ++ " tokens"
  | parsed statements => "Parsed " ++ toString statements ++ " top-level statements"
  | rendered characters statements =>
    "Generated " ++ toString characters ++ " characters of JavaScript from "
      ++ toString statements ++ " statements"

/-- A token that nothing explains is reported where it stands. -/
def ofToken? (t : Token) : Option Event :=
  if t.kind = .unrecognized then some (.stray t.value t.span.line t.span.column) else none

end Event

/-- What compiling a source text reports, up to the error if there is one. -/
def events (source : String) : List Event × Option CompileError :=
  let tokens := tokenize source
  let scanned := tokens.filterMap Event.ofToken? ++ [.tokenized source.length tokens.length]
  match parse tokens with
  | .error e => (scanned, some (.parse e))
  | .ok program =>
    let count := program.statements.length
    let parsed := scanned ++ [.parsed count]
    match render program with
    | .error e => (parsed, some (.render e))
    | .ok script => (parsed ++ [.rendered script.length count], none)

end HanScript
