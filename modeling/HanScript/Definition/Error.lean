-- What can be wrong with a definition of a language or of a target.

namespace HanScript

inductive DefinitionError where
  | notFound (path : String)
  /-- The path leads to a folder. -/
  | isFolder
  | invalid (file : String)
  /-- A whole number in the file has too many digits to be read. -/
  | tooManyDigits
  | notObject (file : String)
  | missingSections (names : List String)
  | unknownKind (word kind : String)
  | noScript (word : String)
  /-- The entry of a keyword is not an object. -/
  | notEntry
  /-- The kind of a keyword is a list or an object. -/
  | notKind
deriving DecidableEq, Inhabited

namespace DefinitionError

def message : DefinitionError → String
  | notFound path => "Could not find " ++ path
  | isFolder => "Is a folder"
  | invalid file => "Invalid JSON in " ++ file
  | tooManyDigits => "Too many digits"
  | notObject file => file ++ " must contain a JSON object"
  | missingSections names =>
    "Language definition is missing sections: " ++ ", ".intercalate names
  | unknownKind word kind => "Keyword '" ++ word ++ "' has unknown kind '" ++ kind ++ "'"
  | noScript word => "Keyword '" ++ word ++ "' has no JavaScript equivalent"
  | notEntry => "Entry is not an object"
  | notKind => "Kind is not a name"

end DefinitionError

end HanScript
