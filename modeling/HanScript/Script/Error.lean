-- Why a tree has no JavaScript text.

namespace HanScript

inductive RenderError where
  /-- No text is given for a node of this kind in this place. -/
  | unsupported (kind : String)
  /-- A node lacks a part that its place asks for, such as the name of a parameter. -/
  | incomplete
  /-- A name that is listed with others is a node and not a text. -/
  | nameNotText
  /-- The body of what is rendered as a program is one node and not a list of them. -/
  | bodyNotList
  /-- A whole number has too many digits to be written. -/
  | tooManyDigits
deriving DecidableEq, Inhabited

namespace RenderError

def message : RenderError → String
  | unsupported kind => "Unsupported node type: " ++ kind
  | incomplete => "Incomplete node"
  | nameNotText => "Name is not a text"
  | bodyNotList => "Body is not a list"
  | tooManyDigits => "Too many digits"

end RenderError

end HanScript
