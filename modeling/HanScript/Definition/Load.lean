-- Loading definitions: a file has to be there, to hold an object, and for a
-- language to have all its sections. Keywords need a known kind and a script.
import HanScript.Definition.Bundled
import HanScript.Definition.Error
import HanScript.Json.Reader
import HanScript.Number.Shortest

namespace HanScript.Definition

/-! ## Files -/

/-- A definition has to be an object. -/
def checkObject (file : String) : Json → Except DefinitionError Json
  | .obj fields => .ok (.obj fields)
  | _ => .error (.notObject file)

/-- The last name of a path. -/
def fileName (path : String) : String := (path.splitOn "/").getLastD ""

/-- The definition at a path from the folder of definitions. -/
def load (l : Library) (path : String) : Except DefinitionError Json :=
  match l.at? path with
  | some (.file (some content)) => checkObject (fileName path) content
  | some (.file none) => .error (.invalid (fileName path))
  | some (.folder _) => .error .isFolder
  | none => .error (.notFound (l.shortest path))

/-- The definition that the text of a file holds. -/
def ofText (file text : String) : Except DefinitionError Json :=
  match Json.read text with
  | .error .invalid => .error (.invalid file)
  | .error .tooManyDigits => .error .tooManyDigits
  | .ok content => checkObject file content

/-! ## Languages and targets -/

/-- The sections that a definition of a language has to have. -/
def sections : List String :=
  ["keywords", "literals", "quotes", "escapes", "punctuation", "operators", "jsx"]

/-- A definition of a language with all its sections. -/
def checkSections (definition : Json) : Except DefinitionError Json :=
  let missing := sections.filter fun name => (definition.field? name).isNone
  if missing.isEmpty then .ok definition else .error (.missingSections missing)

def loadLanguage (l : Library) (path : String) : Except DefinitionError Json :=
  load l path >>= checkSections

def languageOfText (file text : String) : Except DefinitionError Json :=
  ofText file text >>= checkSections

def loadTarget (l : Library) (target : String) : Except DefinitionError Json :=
  load l (Library.within "targets" (target ++ ".json"))

/-! ## Keywords -/

/-- A value as a message names it. -/
def named? : Json → Option String
  | .null => some "None"
  | .bool b => some (if b then "True" else "False")
  | .int n => some (toString n)
  | .real d => some d.text
  | .nan => some "nan"
  | .str s => some s
  | .arr _ | .obj _ => none

/-- A keyword of a definition. -/
structure Entered where
  word : String
  kind : TokenKind
  script : Json

/-- The keyword that an entry of a definition makes. -/
def enter (word : String) (entry : Json) : Except DefinitionError Entered :=
  match entry.fields? with
  | none => .error .notEntry
  | some fields =>
    let kind := (fields.lookup "kind").getD .null
    match kind, named? kind with
    | _, none => .error .notKind
    | kind, some name =>
      let known? := match kind with
        | .str s => TokenKind.ofName? s
        | _ => none
      match known?, fields.lookup "js" with
      | none, _ => .error (.unknownKind word name)
      | some _, none => .error (.noScript word)
      | some kind, some script => .ok ⟨word, kind, script⟩

/-- The keywords of a definition, in its order. -/
def enterAll (entries : List (String × Json)) : Except DefinitionError (List Entered) :=
  entries.mapM fun (word, entry) => enter word entry

end HanScript.Definition
