import PugSize.Number.Binary

/-!
The shortest decimal that stands for a binary number: of the decimals that round to it one with
the fewest digits, and of those the nearest.
-/

namespace PugSize

/-- The number `digits * 10 ^ exponent`. -/
structure Decimal where
  digits : Nat
  exponent : Int
deriving DecidableEq, Repr

namespace Shortest

/-- Compares `a * 10 ^ i` with `n * 2 ^ j`. -/
def compareScaled (a : Nat) (i : Int) (n : Nat) (j : Int) : Ordering :=
  compare (a * Nat.pow 10 i.toNat * Nat.pow 2 (-j).toNat) (n * Nat.pow 2 j.toNat * Nat.pow 10 (-i).toNat)

/-- Whether a decimal rounds to the number `m * 2 ^ q`. The gap below a power of two is half as
wide as the one above. -/
def standsFor (m : Nat) (q : Int) (d : Decimal) : Bool :=
  let narrow := m = Nat.pow 2 (Binary.precision - 1) ∧ q > Binary.minExponent
  let low := if narrow then 4 * m - 1 else 4 * m - 2
  let closed := m % 2 == 0
  let l := compareScaled d.digits d.exponent low (q - 2)
  let h := compareScaled d.digits d.exponent (4 * m + 2) (q - 2)
  (l == .gt || (closed && l == .eq)) && (h == .lt || (closed && h == .eq))

/-- The least power of ten above `m * 2 ^ q`, searched upward from a bound below it. -/
def scaleFrom (m : Nat) (q : Int) (k : Int) : Nat → Int
  | 0 => k
  | fuel + 1 => if compareScaled 1 k m q == .gt then k else scaleFrom m q (k + 1) fuel

def scale (m : Nat) (q : Int) : Int :=
  let log : Int := (Nat.log2 m : Int) + q
  scaleFrom m q (log * 30103 / 100000 - 1) 4

/-- The nearer of the two neighbours of `m * 2 ^ q` on the grid `10 ^ e` that stands for it. -/
def onGrid? (m : Nat) (q e : Int) : Option Decimal :=
  let num := m * Nat.pow 2 q.toNat * Nat.pow 10 (-e).toNat
  let den := Nat.pow 2 (-q).toNat * Nat.pow 10 e.toNat
  let below : Decimal := ⟨num / den, e⟩
  let above : Decimal := ⟨num / den + 1, e⟩
  match standsFor m q below, standsFor m q above with
  | true, true => some (if 2 * (num % den) < den then below else above)
  | true, false => some below
  | false, true => some above
  | false, false => none

/-- The first grid from `e` downward on which a neighbour stands for the number. -/
def search (m : Nat) (q e : Int) : Nat → Decimal
  | 0 => ⟨m * Nat.pow 5 (-q).toNat * Nat.pow 2 q.toNat, min q 0⟩
  | fuel + 1 =>
    match onGrid? m q e with
    | some d => d
    | none => search m q (e - 1) fuel

end Shortest

/-- The shortest decimal for `m * 2 ^ q`. -/
def Decimal.shortest (m : Nat) (q : Int) : Decimal :=
  if m = 0 then ⟨0, 0⟩ else Shortest.search m q (Shortest.scale m q - 1) 17

end PugSize
