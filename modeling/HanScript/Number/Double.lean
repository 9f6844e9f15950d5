-- Double-precision numbers, exactly: what each one is worth, its sixty-four
-- bits, and the one that lies nearest to a given fraction.

namespace HanScript

/-- A double-precision number other than not-a-number: `± mantissa · 2 ^ exponent`, or an
infinity. The mantissa is below `2 ^ 53` and the exponent between -1074 and 971; a mantissa
below `2 ^ 52` goes with the least exponent. -/
inductive Double where
  | finite (negative : Bool) (mantissa : Nat) (exponent : Int)
  | infinite (negative : Bool)
deriving DecidableEq, Inhabited

namespace Double

/-- What every mantissa with a greater exponent than the least reaches. -/
def leastFull : Nat := Nat.pow 2 52

def leastExponent : Int := -1074

def greatestExponent : Int := 971

def zero (negative : Bool) : Double := finite negative 0 leastExponent

/-! ## The bits -/

/-- The number with the given sixty-four bits, unless they mean no number. -/
def ofBits? (bits : Nat) : Option Double :=
  let negative := bits / Nat.pow 2 63 % 2 = 1
  let field : Nat := bits / Nat.pow 2 52 % Nat.pow 2 11
  let fraction := bits % Nat.pow 2 52
  if field = 2047 then if fraction = 0 then some (infinite negative) else none
  else if field = 0 then some (finite negative fraction leastExponent)
  else some (finite negative (leastFull + fraction) ((field : Int) - 1075))

/-- The sixty-four bits of a number. -/
def toBits : Double → Nat
  | finite negative mantissa exponent =>
    negative.toNat * Nat.pow 2 63 +
      (if mantissa < leastFull then mantissa
       else (exponent + 1075).toNat * Nat.pow 2 52 + (mantissa - leastFull))
  | infinite negative => negative.toNat * Nat.pow 2 63 + 2047 * Nat.pow 2 52

/-! ## Rounding -/

/-- The whole number nearest to `n / d`. Of two equally near ones, the even one. -/
def roundDiv (n d : Nat) : Nat :=
  let q := n / d
  if 2 * (n % d) < d then q
  else if 2 * (n % d) > d then q + 1
  else if q % 2 = 0 then q else q + 1

/-- `n / (d · 2 ^ e)` as numerator and denominator. -/
def scaled (n d : Nat) (e : Int) : Nat × Nat := (n * Nat.pow 2 (-e).toNat, d * Nat.pow 2 e.toNat)

/-- The exponent that gives the positive fraction `n / d` a full mantissa, or the least
exponent there is. -/
def exponentOf (n d : Nat) : Int :=
  let guess : Int := (n.log2 : Int) - d.log2 - 52
  let (a, b) := scaled n d guess
  max leastExponent (if a < b * leastFull then guess - 1 else guess)

/-- The number nearest to `± n / d`. Beyond the greatest number it is infinite. -/
def ofFraction (negative : Bool) (n d : Nat) : Double :=
  if n = 0 then zero negative
  else
    let e := exponentOf n d
    let (a, b) := scaled n d e
    let m := roundDiv a b
    let (m, e) := if m = 2 * leastFull then (leastFull, e + 1) else (m, e)
    if e > greatestExponent then infinite negative else finite negative m e

/-- The number nearest to `± digits · 10 ^ exponent`. Far beyond the greatest and the
least number the power of ten is not worked out. -/
def ofDecimal (negative : Bool) (digits : Nat) (exponent : Int) : Double :=
  if digits = 0 then zero negative
  else if exponent > 400 then infinite negative
  else if exponent < -((digits.log2 : Int) + 401) then zero negative
  else ofFraction negative (digits * Nat.pow 10 exponent.toNat) (Nat.pow 10 (-exponent).toNat)

/-! ## The value -/

/-- What a finite number is worth, and `none` for an infinity. -/
def toRat? : Double → Option Rat
  | finite negative mantissa exponent =>
    let n : Int := (mantissa * Nat.pow 2 exponent.toNat : Nat)
    some (mkRat (if negative then -n else n) (Nat.pow 2 (-exponent).toNat))
  | infinite _ => none

end Double

end HanScript
