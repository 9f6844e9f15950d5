-- Pieces of JavaScript text: quoted texts, lists, parentheses and indents.
import HanScript.Script.Target

namespace HanScript.Script

/-- Texts one after the other with a separator between them. -/
def joined (separator : String) : List String → String
  | [] => ""
  | [s] => s
  | s :: t :: rest => s ++ separator ++ joined separator (t :: rest)

/-- Texts with commas between them. -/
def listed (items : List String) : String := joined ", " items

/-- A text between two marks, with a backslash before every mark inside. -/
def between (mark : Char) (text : String) : String :=
  let inside := text.toList.flatMap fun c => if c = mark then ['\\', c] else [c]
  String.ofList (mark :: inside ++ [mark])

/-- A quoted text. -/
def quote (text : String) : String := between '"' text

/-- A template. -/
def template (text : String) : String := between '\x60' text

def parenthesized (text : String) : String := "(" ++ text ++ ")"

def parenthesizedIf (needed : Bool) (text : String) : String :=
  if needed then parenthesized text else text

/-- Items in braces on one line, and `none` for no items. -/
def braced (none : String) : List String → String
  | [] => none
  | items => "\x7b " ++ listed items ++ " \x7d"

/-- Items in brackets. A hole has no text, and a comma more if it is the last item. -/
def elements (items : List (Option String)) : String :=
  let text := listed (items.map (·.getD ""))
  "[" ++ text ++ (if items.getLast? = some none then "," else "") ++ "]"

/-- What a line begins with at a depth. -/
def indent (depth : Int) : String :=
  String.ofList (List.replicate depth.toNat Target.javaScript.indent.toList).flatten

end HanScript.Script
