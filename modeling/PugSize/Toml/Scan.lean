import PugSize.Toml.Value
import PugSize.Toml.CharClass
import PugSize.Number.Notation

/-!
Reading of single values in configuration files: strings, numbers, dates and times. A reader takes
characters from the front of a text and fails where the text does not go on as it should.
-/

namespace PugSize.Toml

/-- Reads something from the front of a text. -/
abbrev Read := StateT Text Option

namespace Read

def fail {α : Type} : Read α := fun _ => none

/-- The next character, which is left. -/
def peek : Read (Option Char) := fun t => some (t.head?, t)

/-- Takes the next character. -/
def next : Read Char
  | [] => none
  | c :: cs => some (c, cs)

/-- Takes the given text if it comes next. -/
def skip? (wanted : Text) : Read Bool := fun t =>
  if wanted.isPrefixOf t then some (true, t.drop wanted.length) else some (false, t)

def skip (wanted : Text) : Read Unit := do
  unless ← skip? wanted do fail

/-- Takes characters as long as `p` holds of them. -/
def takeWhile (p : Char → Bool) : Read Text := fun t => some (t.takeWhile p, t.dropWhile p)

/-- Takes `n` characters that `p` holds of. -/
def takeExactly (p : Char → Bool) (n : Nat) : Read Text := fun t =>
  if (t.take n).length = n ∧ (t.take n).all p then some (t.take n, t.drop n) else none

end Read

open Read

/-- Takes a line feed, which a carriage return may precede, if there is one. -/
def lineFeed? : Read Bool := do
  if ← skip? ['\n'] then return true
  skip? ['\r', '\n']

/-- Takes a comment, if there is one. -/
def comment : Read Unit := do
  if ← skip? ['#'] then
    let text ← takeWhile fun c => c != '\n' && c != '\r'
    if text.any isControl then fail

/-- Takes white space, line feeds and comments. -/
def blankLines : Nat → Read Unit
  | 0 => fail
  | fuel + 1 => do
    let _ ← takeWhile isSpace
    comment
    if ← lineFeed? then blankLines fuel

/-! Strings. -/

def isHex (c : Char) : Bool :=
  c.isDigit || ('a' ≤ c && c ≤ 'f') || ('A' ≤ c && c ≤ 'F')

def hexDigit (c : Char) : Nat :=
  if c.isDigit then c.toNat - '0'.toNat else c.toLower.toNat - 'a'.toNat + 10

/-- The value of digits in a base, the first of which is the highest. -/
def valueInBase (base : Nat) (digits : Text) : Nat :=
  digits.foldl (fun n c => base * n + hexDigit c) 0

/-- The character that `n` hexadecimal digits name. -/
def codePoint (n : Nat) : Read Char := do
  let value := valueInBase 16 (← takeExactly isHex n)
  if value.isValidChar then return Char.ofNat value else fail

/-- The character behind a backslash. -/
def escape : Read Char := do
  match ← next with
  | 'b' => return '\x08'
  | 't' => return '\t'
  | 'n' => return '\n'
  | 'f' => return '\x0c'
  | 'r' => return '\r'
  | 'e' => return '\x1b'
  | '"' => return '"'
  | '\\' => return '\\'
  | 'x' => codePoint 2
  | 'u' => codePoint 4
  | 'U' => codePoint 8
  | _ => fail

/-- The rest of a string in double quotes. -/
def basicRest : Nat → Read Text
  | 0 => fail
  | fuel + 1 => do
    match ← next with
    | '"' => return []
    | '\\' => return (← escape) :: (← basicRest fuel)
    | c => if isControl c then fail else return c :: (← basicRest fuel)

/-- The rest of a string in single quotes. -/
def literalRest : Read Text := do
  let text ← takeWhile fun c => c != '\''  && c != '\n'
  skip ['\'']
  if text.any isControl then fail
  return text

/-- The end of a text in three quotes: one or two quotes more belong to the text. -/
def threeQuotes? (quote : Char) : Read (Option Text) := fun t =>
  let n := (t.takeWhile (· == quote)).length
  if n < 3 then some (none, t)
  else if 5 < n then none
  else some (some (List.replicate (n - 3) quote), t.drop n)

/-- Whether only white space stands before the end of the line. -/
def endsLine (t : Text) : Bool :=
  match t.dropWhile isSpace with
  | '\n' :: _ | '\r' :: '\n' :: _ => true
  | _ => false

/-- A character of a string that runs over lines. -/
def lineChar (c : Char) (after : Text) : Bool :=
  c == '\n' || (c == '\r' && after.head? == some '\n') || !isControl c

/-- The rest of a text in three double quotes. A backslash at the end of a line stands for nothing,
with all white space behind it. -/
def longBasicRest : Nat → Read Text
  | 0 => fail
  | fuel + 1 => do
    match ← threeQuotes? '"' with
    | some more => return more
    | none =>
      let c ← next
      if c = '\\' then
        if endsLine (← get) then
          let _ ← takeWhile fun c => isSpace c || c == '\n' || c == '\r'
          longBasicRest fuel
        else return (← escape) :: (← longBasicRest fuel)
      else if lineChar c (← get) then return c :: (← longBasicRest fuel)
      else fail

/-- The rest of a text in three single quotes. -/
def longLiteralRest : Nat → Read Text
  | 0 => fail
  | fuel + 1 => do
    match ← threeQuotes? '\'' with
    | some more => return more
    | none =>
      let c ← next
      if lineChar c (← get) then return c :: (← longLiteralRest fuel) else fail

/-- A string of any kind; `none` if there is no quote. -/
def string? (fuel : Nat) : Read (Option Text) := do
  if ← skip? ['"', '"', '"'] then
    let _ ← lineFeed?
    return some (← longBasicRest fuel)
  else if ← skip? ['\'', '\'', '\''] then
    let _ ← lineFeed?
    return some (← longLiteralRest fuel)
  else if ← skip? ['"'] then return some (← basicRest fuel)
  else if ← skip? ['\''] then return some (← literalRest)
  else return none

/-! Numbers. -/

/-- Digits with underscores only between two of them, without the underscores. -/
def digitsOf? (isDigit : Char → Bool) (t : Text) : Option Text :=
  let parts := (String.ofList t).splitOn "_"
  if parts.all fun part => part ≠ "" && part.toList.all isDigit then
    some (t.filter (· != '_'))
  else none

/-- Decimal digits without a superfluous zero at the beginning. -/
def wholeDigits? (t : Text) : Option Text :=
  (digitsOf? Char.isDigit t).filter fun digits => digits.length = 1 || digits.head? != some '0'

/-- A whole number that fits in 128 bits, with a sign or without one. -/
def integerOf? (n : Int) : Option Value :=
  if -Int.pow 2 127 ≤ n ∧ n < Int.pow 2 128 then some (.integer n) else none

/-- A whole number in another base, behind its mark. -/
def inBase? (base : Nat) (isDigit : Char → Bool) (t : Text) : Option Value :=
  (digitsOf? isDigit t).bind fun digits => integerOf? (valueInBase base digits)

/-- A finite number. -/
def finite? : Binary → Option Value
  | .finite negative m e => some (.float (.finite negative m e))
  | _ => none

/-- A number with a point or an exponent, if it is not too large. -/
def float? (negative : Bool) (t : Text) : Option Value := do
  let whole := t.takeWhile fun c => c.isDigit || c == '_'
  let rest := t.drop whole.length
  let wholeDigits ← wholeDigits? whole
  let (part, rest) ← match rest with
    | '.' :: cs =>
      let part := cs.takeWhile fun c => c.isDigit || c == '_'
      (digitsOf? Char.isDigit part).map fun digits => (digits, cs.drop part.length)
    | rest => some ([], rest)
  let exponent ← match rest with
    | [] => some 0
    | c :: cs =>
      if c = 'e' ∨ c = 'E' then
        let (down, digits) := Binary.splitSign cs
        (digitsOf? Char.isDigit digits).map fun digits =>
          let n : Int := digitsValue 0 digits
          if down then -n else n
      else none
  finite?
    (Binary.ofDecimal negative (digitsValue 0 (wholeDigits ++ part)) (exponent - part.length))

/-- A number without its sign. -/
def unsigned? (negative : Bool) (t : Text) : Option Value :=
  match String.ofList t with
  | "inf" => some (.float (.infinite negative))
  | "nan" => some (.float (.nan negative))
  | _ =>
    if t.any fun c => c == '.' || c == 'e' || c == 'E' then float? negative t
    else (wholeDigits? t).bind fun digits =>
      let n : Int := digitsValue 0 digits
      integerOf? (if negative then -n else n)

def number? (t : Text) : Option Value :=
  match t with
  | '0' :: 'x' :: digits => inBase? 16 isHex digits
  | '0' :: 'o' :: digits => inBase? 8 (fun c => '0' ≤ c && c ≤ '7') digits
  | '0' :: 'b' :: digits => inBase? 2 (fun c => c == '0' || c == '1') digits
  | '-' :: rest => unsigned? true rest
  | '+' :: rest => unsigned? false rest
  | rest => unsigned? false rest

/-! Dates and times. -/

def digits (n : Nat) : Read Nat := do return digitsValue 0 (← takeExactly Char.isDigit n)

/-- A number of `n` digits between two bounds. -/
def bounded (n lo hi : Nat) : Read Nat := do
  let value ← digits n
  if lo ≤ value ∧ value ≤ hi then return value else fail

def isLeap (year : Nat) : Bool := year % 4 == 0 && (year % 100 != 0 || year % 400 == 0)

def daysOf (year month : Nat) : Nat :=
  if month = 2 then if isLeap year then 29 else 28
  else if month ∈ [4, 6, 9, 11] then 30 else 31

def date : Read Date := do
  let year ← digits 4
  skip ['-']
  let month ← bounded 2 1 12
  skip ['-']
  let day ← bounded 2 1 (daysOf year month)
  return { year, month, day }

/-- Digits behind the point of a second, as nanoseconds; further digits are cut off. -/
def nanoseconds (digits : Text) : Nat :=
  digitsValue 0 ((digits ++ List.replicate 9 '0').take 9)

def time : Read Time := do
  let hour ← bounded 2 0 23
  skip [':']
  let minute ← bounded 2 0 59
  if ← skip? [':'] then
    let second ← bounded 2 0 60
    if ← skip? ['.'] then
      let part ← takeWhile Char.isDigit
      if part.isEmpty then fail
      return { hour, minute, second := some second, nanosecond := some (nanoseconds part) }
    else return { hour, minute, second := some second, nanosecond := none }
  else return { hour, minute, second := none, nanosecond := none }

def offset? : Read (Option Offset) := do
  match ← peek with
  | some 'Z' | some 'z' =>
    let _ ← next
    return some .utc
  | some '+' | some '-' =>
    let sign ← next
    let hours ← bounded 2 0 24
    skip [':']
    let minutes ← bounded 2 0 59
    let n : Int := 60 * hours + minutes
    if n > 24 * 60 then fail
    return some (.minutes (if sign = '-' then -n else n))
  | _ => return none

def dateTime : Read DateTime := fun t =>
  let withDate : Read DateTime := do
    let d ← date
    match ← get with
    | [] => return ⟨some d, none, none⟩
    | c :: rest =>
      if c = 'T' ∨ c = 't' ∨ c = ' ' then
        set rest
        let tm ← time
        return ⟨some d, some tm, ← offset?⟩
      else fail
  let onlyTime : Read DateTime := do return ⟨none, some (← time), none⟩
  if t[2]? = some ':' then onlyTime t else withDate t

/-- Whether a text begins like a date or a time. -/
def beginsDateTime (t : Text) : Bool :=
  let digitsAhead := (t.takeWhile Char.isDigit).length
  (digitsAhead == 4 && t[4]? == some '-') || (digitsAhead == 2 && t[2]? == some ':')

/-- The characters of a value that is not quoted. A single space may stand between a date and a
time. -/
def bareText (t : Text) : Text :=
  let isBare (c : Char) : Bool := c.isAlphanum || c ∈ ['+', '-', '_', '.', ':']
  let first := t.takeWhile isBare
  match t.drop first.length with
  | ' ' :: d :: rest =>
    if first.length = 10 && beginsDateTime first && d.isDigit then
      first ++ ' ' :: (d :: rest).takeWhile isBare
    else first
  | _ => first

/-- A truth value, a number, a date or a time. -/
def bareValue : Read Value := fun t =>
  let word := bareText t
  let value : Option Value := match String.ofList word with
    | "true" => some (.boolean true)
    | "false" => some (.boolean false)
    | _ =>
      if beginsDateTime word then
        match dateTime word with
        | some (d, []) => some (.dateTime d)
        | _ => none
      else number? word
  value.map fun v => (v, t.drop word.length)

end PugSize.Toml
