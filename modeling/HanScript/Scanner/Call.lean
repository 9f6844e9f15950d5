-- What can be asked of a scanner, one call after the other. A call that fails
-- leaves the scanner where it had got to by then.
import HanScript.Scanner

namespace HanScript.Scanner

/-- What can be asked of a scanner. -/
inductive Call where
  | peek (offset : Int)
  | advance (count : Int)
  | startsWith (text : String)
  | mark
  | add (kind : TokenKind) (value : String)
  | scan
  | scanQuoted
  | scanNumeral
  | scanWord
  | scanSign
  | scanAll
deriving DecidableEq

/-- What is answered. The last two are failures. -/
inductive Answer where
  | nothing
  | text (s : String)
  | truth (b : Bool)
  /-- What is looked at would be too far before the start. -/
  | beforeStart
  /-- No quote opens here. -/
  | notQuoted
deriving DecidableEq

/-- The answer to a call, and the scanner after it. -/
def call (s : Scanner) : Call → Answer × Scanner
  | .peek offset =>
    match s.glance offset with
    | .char c => (.text (String.singleton c), s)
    | .pastEnd => (.text "", s)
    | .beforeStart => (.beforeStart, s)
  | .advance count => (.text (s.take count).1, (s.take count).2)
  | .startsWith text => (.truth (s.startsWith text), s)
  | .mark => (.nothing, s.mark)
  | .add kind value => (.nothing, s.add kind value)
  | .scan => (.nothing, s.scan)
  | .scanQuoted => (if s.scanQuoted.1 then .nothing else .notQuoted, s.scanQuoted.2)
  | .scanNumeral => (.nothing, s.scanNumeral)
  | .scanWord => (.nothing, s.scanWord)
  | .scanSign => (.truth s.scanSign.1, s.scanSign.2)
  | .scanAll => (.nothing, s.scanAll)

/-- The scanner after some calls. -/
def afterCalls (s : Scanner) (calls : List Call) : Scanner := calls.foldl (fun s c => (s.call c).2) s

end HanScript.Scanner
