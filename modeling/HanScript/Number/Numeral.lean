-- What a numeral is worth: whole numbers in base ten, sixteen, two and eight,
-- and decimals, which become double-precision numbers.
import HanScript.Number.Double
import HanScript.Text.Class
import HanScript.Text.Digit

namespace HanScript

inductive Number where
  | integer (n : Int)
  | double (d : Double)
deriving DecidableEq, Inhabited

namespace Numeral

open Text

/-- A whole number in base ten has at most this many digits. -/
def mostDigits : Nat := 4300

/-- A blank that may stand around a numeral: one that is no separator of files, groups,
records or units. -/
def isPadding (c : Char) : Bool := isBlank c && !(0x1C ≤ c.toNat && c.toNat ≤ 0x1F)

/-- A text without the padding after it. -/
def trimmedEnd (cs : List Char) : List Char := (cs.reverse.dropWhile isPadding).reverse

/-- A text without the padding around it. -/
def trimmed (cs : List Char) : List Char := trimmedEnd (cs.dropWhile isPadding)

/-- What a digit is worth in a base up to sixteen. -/
def digitValue? (base : Nat) (c : Char) : Option Nat :=
  let value? :=
    if 'a' ≤ c ∧ c ≤ 'f' then some (c.toNat - 'a'.toNat + 10)
    else if 'A' ≤ c ∧ c ≤ 'F' then some (c.toNat - 'A'.toNat + 10)
    else decimalValue? c
  value?.filter (· < base)

/-- One digit or more, of which any two may have one underscore between them. -/
def digits? (base : Nat) : List Char → Option (List Nat)
  | [] => none
  | [c] => (digitValue? base c).map ([·])
  | c :: d :: cs => do
    let first ← digitValue? base c
    let rest ← if d = '_' then digits? base cs else digits? base (d :: cs)
    return first :: rest

/-- The number that digits stand for. -/
def ofDigits (base : Nat) (digits : List Nat) : Nat := digits.foldl (fun n d => n * base + d) 0

/-- A sign, which may be missing, and what follows it. -/
def signed : List Char → Bool × List Char
  | '-' :: cs => (true, cs)
  | '+' :: cs => (false, cs)
  | cs => (false, cs)

/-- The base that the first two characters announce. -/
def announcedBase? : List Char → Option Nat
  | '0' :: c :: _ =>
    if c = 'x' ∨ c = 'X' then some 16
    else if c = 'b' ∨ c = 'B' then some 2
    else if c = 'o' ∨ c = 'O' then some 8
    else none
  | _ => none

/-- A whole number after the two characters that announce its base. An underscore may
stand before the digits too. -/
def based? (base : Nat) (cs : List Char) : Option Number :=
  let body := trimmedEnd cs
  let body := if body.head? = some '_' then body.drop 1 else body
  (digits? base body).map fun ds => .integer (ofDigits base ds)

/-- A whole number in base ten. -/
def whole? (cs : List Char) : Option Number :=
  let (negative, body) := signed (trimmed cs)
  match digits? 10 body with
  | none => none
  | some ds =>
    if ds.length > mostDigits then none
    else
      let n : Int := ofDigits 10 ds
      some (.integer (if negative then -n else n))

/-- Digits that may also be missing. -/
def digitsOrNone? : List Char → Option (List Nat)
  | [] => some []
  | cs => digits? 10 cs

/-- An exponent from after its letter. -/
def exponent? (cs : List Char) : Option Int :=
  let (negative, body) := signed cs
  (digits? 10 body).map fun ds =>
    let n : Int := ofDigits 10 ds
    if negative then -n else n

/-- A decimal: digits with a point, an exponent, or both. There is a digit before the
point or after it. -/
def decimal? (cs : List Char) : Option Number := do
  let (negative, body) := signed (trimmed cs)
  let (mantissa, tail) := body.span fun c => c ≠ 'e' ∧ c ≠ 'E'
  let power ← match tail with
    | [] => some 0
    | _ :: tail => exponent? tail
  let (front, back) := mantissa.span (· ≠ '.')
  let whole ← digitsOrNone? front
  let fraction ← digitsOrNone? (back.drop 1)
  if whole.isEmpty ∧ fraction.isEmpty then none
  else some (.double (Double.ofDecimal negative (ofDigits 10 (whole ++ fraction))
    (power - fraction.length)))

/-- What a numeral is worth, or `none` for a text that is no numeral. -/
def value? (text : String) : Option Number :=
  let cs := text.toList
  match announcedBase? cs with
  | some base => based? base (cs.drop 2)
  | none => if cs.any fun c => c = '.' ∨ c = 'e' ∨ c = 'E' then decimal? cs else whole? cs

end Numeral

end HanScript
