-- Values of JSON. An object keeps its fields in the order of their first
-- mention, and the last value of each.
import HanScript.Number.Double

namespace HanScript

inductive Json where
  | null
  | bool (b : Bool)
  | int (n : Int)
  | real (d : Double)
  /-- The word for a number that is none. -/
  | nan
  | str (s : String)
  | arr (items : List Json)
  | obj (fields : List (String × Json))
deriving Inhabited

namespace Json

/-- Sets a field: in its place if it is there, and else at the end. -/
def put (key : String) (value : Json) : List (String × Json) → List (String × Json)
  | [] => [(key, value)]
  | (k, v) :: fields => if k = key then (k, value) :: fields else (k, v) :: put key value fields

/-- An object from its fields as they are mentioned. -/
def ofFields (fields : List (String × Json)) : Json :=
  obj (fields.foldl (fun done f => put f.1 f.2 done) [])

/-- The fields of an object. -/
def fields? : Json → Option (List (String × Json))
  | obj fields => some fields
  | _ => none

/-- A field of an object. -/
def field? (j : Json) (key : String) : Option Json := j.fields?.bind (·.lookup key)

end Json

end HanScript
