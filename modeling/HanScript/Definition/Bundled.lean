-- The definitions that come with the compiler, and the folder they lie in.
import HanScript.Definition.Library
import HanScript.Script.Target
import HanScript.Vocabulary

namespace HanScript.Definition

open Vocabulary

/-! ## The definitions -/

/-- A table of characters as an object. -/
def charTable (table : List (Char × Char)) : Json :=
  .obj (table.map fun (a, b) => (String.singleton a, .str (String.singleton b)))

/-- A table of kinds as an object. -/
def kindTable (table : List (String × TokenKind)) : Json :=
  .obj (table.map fun (text, kind) => (text, .str kind.name))

/-- The definition of the language. -/
def language : Json :=
  .obj
    [("name", .str "ZhCode"),
     ("keywords", .obj (keywords.map fun k =>
       (k.word, .obj [("kind", .str k.kind.name), ("js", .str k.script)]))),
     ("literals", kindTable literals),
     ("quotes", charTable quotes),
     ("templateQuote", .str (String.singleton templateQuote)),
     ("escapes", charTable escapes),
     ("punctuation", charTable punctuation),
     ("operators", .obj
       [("three", kindTable threeSigns), ("two", kindTable twoSigns), ("single", kindTable oneSign)]),
     ("jsx", .obj [("closeSlash", .str closeTag), ("selfClose", .str selfClose)])]

/-- The definition of a target. -/
def ofTarget (t : Target) : Json :=
  .obj
    [("name", .str t.name), ("ext", .str t.ending), ("indent", .str t.indent),
     ("createElement", .str t.createElement), ("fragment", .str t.fragment)]

/-- The definitions in their folder. -/
def bundled : Library where
  top :=
    [("data", .folder
      [("targets", .folder [("js.json", .file (some (ofTarget Target.javaScript)))]),
       ("zh.json", .file (some language))])]
  home := ["data"]

end HanScript.Definition
