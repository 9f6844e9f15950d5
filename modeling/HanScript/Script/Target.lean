-- What the generated text is called and made of.

namespace HanScript

/-- A language that programs are compiled to. -/
structure Target where
  name : String
  /-- The ending of file names. -/
  ending : String
  /-- What a line begins with for every level of nesting. -/
  indent : String
  /-- The function that makes an element of markup. -/
  createElement : String
  /-- What stands for the tag of a fragment. -/
  fragment : String

namespace Target

def javaScript : Target :=
  { name := "JavaScript"
    ending := ".js"
    indent := "  "
    createElement := "React.createElement"
    fragment := "React.Fragment" }

end Target

end HanScript
