import PugSize.Number.Shortest

/-!
Binary numbers written out in decimal: the shortest digits that stand for the number, with a point
and no exponent, and at least one digit on both sides of the point.
-/

namespace PugSize

namespace Decimal

/-- The digits before and behind the point. -/
def sides (d : Decimal) : List Char × List Char :=
  let digits := Nat.toDigits 10 d.digits ++ List.replicate d.exponent.toNat '0'
  let behind := (-d.exponent).toNat
  let digits := List.replicate (behind + 1 - digits.length) '0' ++ digits
  digits.splitAt (digits.length - behind)

/-- A decimal with a point. -/
def positional (d : Decimal) : List Char :=
  let (whole, part) := d.sides
  whole ++ '.' :: if part.isEmpty then ['0'] else part

end Decimal

namespace Binary

def sign (negative : Bool) : List Char := if negative then ['-'] else []

/-- The digits of a number; infinity and no-number have names. -/
def positional : Binary → List Char
  | .finite negative m e => sign negative ++ (Decimal.shortest m e).positional
  | .infinite negative => sign negative ++ "inf".toList
  | .nan _ => "nan".toList

end Binary
end PugSize
