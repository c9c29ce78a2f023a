import PugSize.Text.Basic

/-!
The value of a quoted literal. A backslash stands for a control character, for a code point
given in hexadecimal, for nothing before a line end, and else for the character behind it. A
number that is no code point gives the replacement character.
-/

namespace PugSize.Script.Quoted

/-- The value of a hexadecimal digit. -/
def digit? (c : Char) : Option Nat :=
  if c.isDigit then some (c.toNat - '0'.toNat)
  else if 'a' ≤ c ∧ c ≤ 'f' then some (c.toNat - 'a'.toNat + 10)
  else if 'A' ≤ c ∧ c ≤ 'F' then some (c.toNat - 'A'.toNat + 10)
  else none

/-- The value of hexadecimal digits, the first of which is the highest. -/
def digits? (value : Nat) : Text → Option Nat
  | [] => some value
  | c :: cs => (digit? c).bind fun d => digits? (16 * value + d) cs

/-- A hexadecimal number: at least one digit, with an optional plus sign before it. -/
def hex? (t : Text) : Option Nat :=
  let digits := match t with
    | '+' :: cs => cs
    | cs => cs
  if digits.isEmpty then none else digits? 0 digits

/-- The character that a hexadecimal number names. -/
def codePoint (t : Text) : Char :=
  match hex? t with
  | some n => if n.isValidChar then Char.ofNat n else '\ufffd'
  | none => '\ufffd'

/-- What a backslash and a character stand for, where it is one character. -/
def escaped (c : Char) : Char :=
  match c with
  | 'n' => '\n'
  | 't' => '\t'
  | 'r' => '\r'
  | 'b' => '\x08'
  | 'f' => '\x0c'
  | 'v' => '\x0b'
  | '0' => '\x00'
  | c => c

/-- The value of what stands between the quotes. -/
def decode : Text → Text
  | [] => []
  | ['\\'] => []
  | '\\' :: 'u' :: '{' :: cs =>
    codePoint (cs.takeWhile (· != '}')) :: decode ((cs.dropWhile (· != '}')).drop 1)
  | '\\' :: 'u' :: cs => codePoint (cs.take 4) :: decode (cs.drop 4)
  | '\\' :: 'x' :: cs => codePoint (cs.take 2) :: decode (cs.drop 2)
  | '\\' :: '\n' :: cs => decode cs
  | '\\' :: c :: cs => escaped c :: decode cs
  | c :: cs => c :: decode cs
termination_by t => t.length
decreasing_by
  · have := (List.dropWhile_sublist (fun c => c != '}') (l := cs)).length_le
    simp only [List.length_drop, List.length_cons]; omega
  all_goals simp only [List.length_drop, List.length_cons]; omega

/-- The value of a literal with its quotes. -/
def value (literal : Text) : Text := decode (literal.drop 1).dropLast

end PugSize.Script.Quoted
