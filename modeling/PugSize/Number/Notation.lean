import PugSize.Text.Basic
import PugSize.Number.Binary

/-!
Numbers written in decimal notation.
-/

namespace PugSize

/-- The number that decimal digits make behind a number read already. -/
def digitsValue (value : Nat) : Text → Nat
  | [] => value
  | c :: cs => digitsValue (10 * value + (c.toNat - '0'.toNat)) cs

/-- A whole number in digits, with nothing else. -/
def natural? (t : Text) : Option Nat :=
  if t.isEmpty || !t.all Char.isDigit then none else some (digitsValue 0 t)

/-- A whole number of at most 64 bits, with or without a plus sign. -/
def word? (t : Text) : Option Nat :=
  let digits := if t.head? = some '+' then t.drop 1 else t
  (natural? digits).filter fun n => n < UInt64.size

namespace Binary

/-- A sign and what follows it. -/
def splitSign : Text → Bool × Text
  | '-' :: cs => (true, cs)
  | '+' :: cs => (false, cs)
  | cs => (false, cs)

/-- The number behind an exponent mark, with an optional sign. -/
def exponent? (t : Text) : Option Int :=
  let (negative, digits) := splitSign t
  (natural? digits).map fun (n : Nat) => if negative then -(n : Int) else n

/-- A magnitude: digits with an optional point in, before or behind them, and an optional
exponent. -/
def magnitude? (negative : Bool) (t : Text) : Option Binary :=
  let whole := t.takeWhile Char.isDigit
  let rest := t.drop whole.length
  let part := match rest with
    | '.' :: cs => cs.takeWhile Char.isDigit
    | _ => []
  let rest := match rest with
    | '.' :: _ => rest.drop (part.length + 1)
    | _ => rest
  if whole.isEmpty && part.isEmpty then none
  else
    let number (e : Int) := ofDecimal negative (digitsValue 0 (whole ++ part)) (e - part.length)
    match rest with
    | [] => some (number 0)
    | c :: cs => if c = 'e' ∨ c = 'E' then (exponent? cs).map number else none

/-- A number with an optional sign; infinity and no-number have names, in either case. -/
def read? (t : Text) : Option Binary :=
  let (negative, rest) := splitSign t
  match String.ofList (rest.map Char.toLower) with
  | "inf" | "infinity" => some (.infinite negative)
  | "nan" => some (.nan negative)
  | _ => magnitude? negative rest

end Binary
end PugSize
