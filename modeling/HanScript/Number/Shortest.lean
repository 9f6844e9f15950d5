-- The shortest decimal that reads back as a given double-precision number, and
-- the text that it is written with.
import HanScript.Number.Double

namespace HanScript.Double

/-! ## The digits -/

/-- How `a · 10 ^ i` compares with `b · 2 ^ j`, worked out in whole numbers. -/
def compareScaled (a : Nat) (i : Int) (b : Nat) (j : Int) : Ordering :=
  compare (a * Nat.pow 10 i.toNat * Nat.pow 2 (-j).toNat)
    (b * Nat.pow 2 j.toNat * Nat.pow 10 (-i).toNat)

/-- The numbers that round to `mantissa · 2 ^ exponent`: an interval around it, in units
of `2 ^ (exponent - 2)`. -/
structure Neighbourhood where
  low : Nat
  value : Nat
  high : Nat
  /-- The power of two of the unit. -/
  unit : Int
  /-- The ends round to the number too. -/
  closed : Bool

/-- The neighbourhood of a finite number. Just below a power of two the numbers lie twice
as close, and a tie goes to an even mantissa. -/
def neighbourhood (mantissa : Nat) (exponent : Int) : Neighbourhood :=
  { low := 4 * mantissa - (if mantissa = leastFull ∧ exponent > leastExponent then 1 else 2)
    value := 4 * mantissa
    high := 4 * mantissa + 2
    unit := exponent - 2
    closed := mantissa % 2 = 0 }

namespace Neighbourhood

/-- `a · 10 ^ i` lies in the neighbourhood. -/
def holds (v : Neighbourhood) (a : Nat) (i : Int) : Bool :=
  let low := compareScaled a i v.low v.unit
  let high := compareScaled a i v.high v.unit
  if v.closed then low != .lt && high != .gt else low == .gt && high == .lt

/-- The power of ten of the first digit of the value. -/
def leading (v : Neighbourhood) : Int :=
  let guess := ((v.value.log2 : Int) + v.unit) * 30103 / 100000
  if compareScaled 1 (guess + 1) v.value v.unit != .gt then guess + 1
  else if compareScaled 1 guess v.value v.unit == .gt then guess - 1
  else guess

/-- How often `10 ^ i` goes into the value. -/
def floor (v : Neighbourhood) (i : Int) : Nat :=
  v.value * Nat.pow 2 v.unit.toNat * Nat.pow 10 (-i).toNat /
    (Nat.pow 10 i.toNat * Nat.pow 2 (-v.unit).toNat)

/-- The multiple of `10 ^ i` that is nearest to the value, of those in the neighbourhood.
Of two equally near ones, the even one. -/
def nearest? (v : Neighbourhood) (i : Int) : Option Nat :=
  let below := v.floor i
  match v.holds below i, v.holds (below + 1) i with
  | false, false => none
  | true, false => some below
  | false, true => some (below + 1)
  | true, true =>
    match compareScaled (2 * below + 1) i (2 * v.value) v.unit with
    | .gt => some below
    | .lt => some (below + 1)
    | .eq => some (if below % 2 = 0 then below else below + 1)

/-- Digits and power of ten of the shortest decimal in the neighbourhood. Seventeen digits
are always enough. -/
def shortest (v : Neighbourhood) : Nat × Int :=
  let lead := v.leading
  let upTo (places : Nat) : Option (Nat × Int) :=
    (v.nearest? (lead - places)).map fun n => (n, lead - places)
  ((List.range 17).findSome? upTo).getD (v.floor (lead - 16), lead - 16)

end Neighbourhood

/-! ## The text -/

/-- Digits, the first of which stands at `10 ^ (point - 1)`, with a point where it
belongs. There is always a digit on each side of it. -/
def positional (digits : List Char) (point : Int) : List Char :=
  if point ≤ 0 then '0' :: '.' :: List.replicate (-point).toNat '0' ++ digits
  else if digits.length ≤ point then
    digits ++ List.replicate (point.toNat - digits.length) '0' ++ ['.', '0']
  else digits.take point.toNat ++ '.' :: digits.drop point.toNat

/-- The same number with one digit before the point and a power of ten, which has a sign
and at least two digits. -/
def scientific (digits : List Char) (point : Int) : List Char :=
  let power := point - 1
  let places := Nat.toDigits 10 power.natAbs
  digits.take 1 ++ (if digits.length ≤ 1 then [] else '.' :: digits.drop 1)
    ++ 'e' :: (if power < 0 then '-' else '+') :: List.replicate (2 - places.length) '0' ++ places

/-- The text of a number: the shortest decimal that reads back, with a power of ten below
`10 ^ -4` and from `10 ^ 16` on. -/
def text : Double → String
  | infinite negative => if negative then "-inf" else "inf"
  | finite negative mantissa exponent =>
    let magnitude :=
      if mantissa = 0 then ['0', '.', '0']
      else
        let (n, i) := (neighbourhood mantissa exponent).shortest
        let all := Nat.toDigits 10 n
        let digits := (all.reverse.dropWhile (· = '0')).reverse
        let point := all.length + i
        if -4 < point ∧ point ≤ 16 then positional digits point else scientific digits point
    String.ofList (if negative then '-' :: magnitude else magnitude)

end HanScript.Double
