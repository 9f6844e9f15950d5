-- Reading JSON. The text is taken strictly: one value with blanks around it,
-- quotes are double quotes, and no comma stands before a closing bracket.
import HanScript.Json.Basic
import HanScript.Number.Numeral

namespace HanScript.Json

inductive ReadError where
  | invalid
  | tooManyDigits
deriving DecidableEq, Inhabited

def isSpace (c : Char) : Bool := c = ' ' || c = '\t' || c = '\n' || c = '\r'

def skipSpace (cs : List Char) : List Char := cs.dropWhile isSpace

/-! ## Strings -/

/-- What a letter stands for after a backslash. -/
def escaped? : Char → Option Char
  | '"' => some '"'
  | '\\' => some '\\'
  | '/' => some '/'
  | 'b' => some '\x08'
  | 'f' => some '\x0c'
  | 'n' => some '\n'
  | 'r' => some '\r'
  | 't' => some '\t'
  | _ => none

/-- The number that four hexadecimal digits stand for. -/
def hex? (digits : List Char) : Option Nat :=
  (digits.mapM fun c => if Text.isHexDigit c then Numeral.digitValue? 16 c else none).map
    (Numeral.ofDigits 16)

/-- The code units of a string from after its opening quote, and the text after its
closing quote. -/
def stringRest : List Char → Option (List Nat × List Char)
  | [] => none
  | '"' :: cs => some ([], cs)
  | '\\' :: 'u' :: a :: b :: c :: d :: cs => do
    let unit ← hex? [a, b, c, d]
    let (units, rest) ← stringRest cs
    return (unit :: units, rest)
  | '\\' :: c :: cs => do
    let char ← escaped? c
    let (units, rest) ← stringRest cs
    return (char.toNat :: units, rest)
  | c :: cs =>
    if c.toNat < 0x20 ∨ c = '\\' then none
    else do
      let (units, rest) ← stringRest cs
      return (c.toNat :: units, rest)

/-- The characters of code units. Two surrogates make one character, and one alone makes
the replacement character. -/
def charsOf : List Nat → List Char
  | [] => []
  | [u] => [charOf u]
  | u :: v :: us =>
    if 0xD800 ≤ u ∧ u < 0xDC00 ∧ 0xDC00 ≤ v ∧ v < 0xE000 then
      Char.ofNat (0x10000 + (u - 0xD800) * 0x400 + (v - 0xDC00)) :: charsOf us
    else charOf u :: charsOf (v :: us)
where
  charOf (u : Nat) : Char := if 0xD800 ≤ u ∧ u < 0xE000 then '�' else Char.ofNat u

def readString (cs : List Char) : Except ReadError (String × List Char) :=
  match stringRest cs with
  | some (units, rest) => .ok (String.ofList (charsOf units), rest)
  | none => .error .invalid

/-! ## Numbers -/

/-- The digits at the head of a text, and the text after them. -/
def digits (cs : List Char) : List Nat × List Char :=
  ((cs.takeWhile Text.isDigit).map fun c => c.toNat - '0'.toNat, cs.dropWhile Text.isDigit)

/-- A point and digits, if both are there. -/
def fraction (cs : List Char) : Option (List Nat) × List Char :=
  match cs with
  | '.' :: rest =>
    let (ds, after) := digits rest
    if ds.isEmpty then (none, cs) else (some ds, after)
  | _ => (none, cs)

/-- An exponent with its digits, if both are there. -/
def exponent (cs : List Char) : Option Int × List Char :=
  match cs with
  | [] => (none, cs)
  | c :: rest =>
    if c = 'e' ∨ c = 'E' then
      let (negative, body) := Numeral.signed rest
      let (ds, after) := digits body
      if ds.isEmpty then (none, cs)
      else
        let n : Int := Numeral.ofDigits 10 ds
        (some (if negative then -n else n), after)
    else (none, cs)

/-- A number from after its sign. A nought stands alone before the point. -/
def readNumber (negative : Bool) (cs : List Char) : Except ReadError (Json × List Char) :=
  let (whole, rest) := if cs.head? = some '0' then ([0], cs.drop 1) else digits cs
  if whole.isEmpty then .error .invalid
  else
    match fraction rest with
    | (places, rest) =>
      match exponent rest with
      | (power, rest) =>
        if places.isNone ∧ power.isNone then
          if whole.length > Numeral.mostDigits then .error .tooManyDigits
          else
            let n : Int := Numeral.ofDigits 10 whole
            .ok (.int (if negative then -n else n), rest)
        else
          let places := places.getD []
          .ok (.real (Double.ofDecimal negative (Numeral.ofDigits 10 (whole ++ places))
            (power.getD 0 - places.length)), rest)

/-- The rest of a text after a word that it begins with. -/
def after? (word : String) (cs : List Char) : Option (List Char) :=
  if word.toList.isPrefixOf cs then some (cs.drop word.length) else none

/-- The words that are values. -/
def words : List (String × Json) :=
  [("null", .null), ("true", .bool true), ("false", .bool false), ("NaN", .nan),
   ("Infinity", .real (.infinite false)), ("-Infinity", .real (.infinite true))]

/-- A word or a number. -/
def readScalar (cs : List Char) : Except ReadError (Json × List Char) :=
  match words.findSome? fun w => (after? w.1 cs).map fun rest => (w.2, rest) with
  | some found => .ok found
  | none =>
    match cs with
    | '-' :: rest => readNumber true rest
    | _ => readNumber false cs

/-! ## Values -/

mutual

/-- A value at the head of a text. The first argument bounds the number of steps. -/
def readValue : Nat → List Char → Except ReadError (Json × List Char)
  | 0, _ => .error .invalid
  | n + 1, cs =>
    match cs with
    | '"' :: rest => do
      let (s, rest) ← readString rest
      return (.str s, rest)
    | '[' :: rest =>
      match skipSpace rest with
      | ']' :: rest => .ok (.arr [], rest)
      | rest => do
        let (items, rest) ← readItems n rest
        return (.arr items, rest)
    | '\x7b' :: rest =>
      match skipSpace rest with
      | '\x7d' :: rest => .ok (.obj [], rest)
      | rest => do
        let (fields, rest) ← readFields n rest
        return (ofFields fields, rest)
    | _ => readScalar cs

/-- The items of an array, through its closing bracket. -/
def readItems : Nat → List Char → Except ReadError (List Json × List Char)
  | 0, _ => .error .invalid
  | n + 1, cs => do
    let (item, rest) ← readValue n cs
    match skipSpace rest with
    | ']' :: rest => .ok ([item], rest)
    | ',' :: rest => do
      let (items, rest) ← readItems n (skipSpace rest)
      return (item :: items, rest)
    | _ => .error .invalid

/-- The fields of an object, through its closing brace. -/
def readFields : Nat → List Char → Except ReadError (List (String × Json) × List Char)
  | 0, _ => .error .invalid
  | n + 1, cs =>
    match cs with
    | '"' :: rest => do
      let (key, rest) ← readString rest
      match skipSpace rest with
      | ':' :: rest => do
        let (value, rest) ← readValue n (skipSpace rest)
        match skipSpace rest with
        | '\x7d' :: rest => .ok ([(key, value)], rest)
        | ',' :: rest => do
          let (fields, rest) ← readFields n (skipSpace rest)
          return ((key, value) :: fields, rest)
        | _ => .error .invalid
      | _ => .error .invalid
    | _ => .error .invalid

end

/-- The value that a whole text stands for. Every second step takes up a character. -/
def read (text : String) : Except ReadError Json := do
  let cs := text.toList
  let (value, rest) ← readValue (2 * cs.length + 2) (skipSpace cs)
  if (skipSpace rest).isEmpty then return value else throw .invalid

end HanScript.Json
