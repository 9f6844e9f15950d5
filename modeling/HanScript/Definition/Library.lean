-- Folders with definitions in them, and the paths that lead through them. A
-- path is followed step by step to see what is there, but a message names the
-- place where it leads by its text alone.
import HanScript.Json.Basic

namespace HanScript.Definition

/-! ## Folders -/

inductive Entry where
  | folder (entries : List (String × Entry))
  /-- A file, with what it holds if that is JSON. -/
  | file (content : Option Json)

/-- What lies at the end of a way down. -/
def Entry.find? : Entry → List String → Option Entry
  | e, [] => some e
  | .folder entries, name :: names => (entries.lookup name).bind fun e => e.find? names
  | .file _, _ :: _ => none

/-- All the folders there are, from the top one, and the way down from there to the folder
of definitions. -/
structure Library where
  top : List (String × Entry)
  home : List String

namespace Library

/-- The library inside a folder of the given name, next to other entries. -/
def inside (l : Library) (name : String) (others : List (String × Entry)) : Library :=
  ⟨[(name, .folder (l.top ++ others))], name :: l.home⟩

/-! ## Paths -/

/-- Where a path begins, as a way up: at the top if a slash comes first, and else in the
folder of definitions. -/
def start (l : Library) (path : String) : List String :=
  if path.startsWith "/" then [] else l.home.reverse

/-- One step of a path on a way up: a name, two points for the folder above, or nothing.
There is nothing above the top. -/
def step (up : List String) (name : String) : List String :=
  if name = "" ∨ name = "." then up
  else if name = ".." then up.drop 1
  else name :: up

/-- What lies at the end of some steps, if each of them leads from a folder to something
that is there. -/
def walk (l : Library) (up : List String) : List String → Option Entry
  | [] => (Entry.folder l.top).find? up.reverse
  | name :: names =>
    match (Entry.folder l.top).find? up.reverse with
    | some (.folder _) => l.walk (step up name) names
    | _ => none

/-- What lies at the end of a path. -/
def at? (l : Library) (path : String) : Option Entry :=
  l.walk (l.start path) (path.splitOn "/")

/-- The way from one folder to another place: up to where their ways down part, and down
again. -/
def wayBetween : List String → List String → List String
  | a :: here, b :: there =>
    if a = b then wayBetween here there
    else List.replicate (here.length + 1) ".." ++ b :: there
  | here, there => List.replicate here.length ".." ++ there

/-- The shortest path from the folder of definitions to where a path leads by its text. -/
def shortest (l : Library) (path : String) : String :=
  let way := wayBetween l.home ((path.splitOn "/").foldl step (l.start path)).reverse
  if way.isEmpty then "." else "/".intercalate way

/-- A path that is followed from inside a folder of the folder of definitions. -/
def within (folder path : String) : String :=
  if path.startsWith "/" then path else folder ++ "/" ++ path

end Library

end HanScript.Definition
