/-!
Numbers of 64 bits in binary: which of them a decimal stands for, and which whole number is
nearest to one. All arithmetic is exact.
-/

namespace PugSize

/-- A magnitude `mantissa * 2 ^ exponent` with a sign, or no finite number. -/
inductive Binary
  | finite (negative : Bool) (mantissa : Nat) (exponent : Int)
  | infinite (negative : Bool)
  | nan (negative : Bool)
deriving DecidableEq, Repr

namespace Binary

/-- The least exponent. -/
def minExponent : Int := -1074

/-- The greatest exponent. -/
def maxExponent : Int := 971

/-- The bits of a mantissa. -/
def precision : Nat := 53

def zero (negative : Bool) : Binary := .finite negative 0 minExponent

/-- A quotient rounded to the nearest whole number, halves to the even one. -/
def divNearest (num den : Nat) : Nat :=
  let q := num / den
  let r := num % den
  if 2 * r < den ∨ (2 * r = den ∧ q % 2 = 0) then q else q + 1

/-- The quotient `num / (den * 2 ^ e)` as numerator and denominator. -/
def scaled (num den : Nat) (e : Int) : Nat × Nat :=
  (num * Nat.pow 2 (-e).toNat, den * Nat.pow 2 e.toNat)

/-- The exponent for which the mantissa of a quotient has all its bits. -/
def exponentFor (num den : Nat) : Int :=
  let guess : Int := (Nat.log2 num : Int) - (Nat.log2 den : Int) - (precision - 1 : Nat)
  let (a, b) := scaled num den guess
  let e := if a < Nat.pow 2 (precision - 1) * b then guess - 1 else guess
  max e minExponent

/-- The number nearest to a quotient of positive numbers. -/
def ofRatio (negative : Bool) (num den : Nat) : Binary :=
  let e := exponentFor num den
  let (a, b) := scaled num den e
  let m := divNearest a b
  let (m, e) := if m = Nat.pow 2 precision then (Nat.pow 2 (precision - 1), e + 1) else (m, e)
  if e > maxExponent then .infinite negative else .finite negative m e

/-- The number nearest to `digits * 10 ^ exponent`. Exponents beyond the range are decided without
computing the power. -/
def ofDecimal (negative : Bool) (digits : Nat) (exponent : Int) : Binary :=
  let size : Int := Nat.log2 digits / 3 + 1
  if digits = 0 then zero negative
  else if exponent > 400 then .infinite negative
  else if exponent + size < -400 then zero negative
  else if exponent < 0 then ofRatio negative digits (Nat.pow 10 (-exponent).toNat)
  else ofRatio negative (digits * Nat.pow 10 exponent.toNat) 1

/-- The magnitude rounded to a whole number, halves upward. -/
def roundMagnitude (mantissa : Nat) (exponent : Int) : Nat :=
  if exponent < 0 then
    let unit := Nat.pow 2 (-exponent).toNat
    (2 * mantissa + unit) / (2 * unit)
  else mantissa * Nat.pow 2 exponent.toNat

/-- The nearest whole number, halves away from zero. -/
def round? : Binary → Option Int
  | .finite negative m e =>
    let n : Int := roundMagnitude m e
    some (if negative then -n else n)
  | _ => none

end Binary
end PugSize
