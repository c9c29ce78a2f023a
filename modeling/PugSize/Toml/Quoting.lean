import PugSize.Text.Basic
import PugSize.Toml.CharClass

/-!
How strings and keys are written in configuration files. Of the four kinds of strings the first
that needs no escapes is taken, and escapes are only used where every kind would need them.
-/

namespace PugSize.Toml

/-- The length of the longest run of a character. `current` counts the run that the text goes on
with. -/
def longestRun (c : Char) (current : Nat) : Text → Nat
  | [] => current
  | x :: xs => if x = c then longestRun c (current + 1) xs else max current (longestRun c 0 xs)

/-- Control characters that only an escape can write. -/
def needsEscape (c : Char) : Bool := isControl c && c != '\n'

inductive QuoteStyle
  | basic | literal | longBasic | longLiteral
deriving DecidableEq

namespace QuoteStyle

def isLong : QuoteStyle → Bool
  | .longBasic | .longLiteral => true
  | _ => false

def hasEscapes : QuoteStyle → Bool
  | .basic | .longBasic => true
  | _ => false

def mark : QuoteStyle → Char
  | .basic | .longBasic => '"'
  | _ => '\''

def delimiter (q : QuoteStyle) : Text := List.replicate (if q.isLong then 3 else 1) q.mark

/-- Quotation marks that may stand together inside a string. -/
def quotesInside (q : QuoteStyle) : Nat := if q.isLong then 2 else 0

/-- Whether a text can stand between the quotation marks without escapes. Tabs are no reason
against any kind. -/
def holdsPlain (t : Text) (q : QuoteStyle) : Bool :=
  !t.any needsEscape && (q.isLong || !t.contains '\n') &&
    (!q.hasEscapes || !t.contains '\\') && longestRun q.mark 0 t ≤ q.quotesInside

/-- The kind that a string is written in. -/
def forString (t : Text) : QuoteStyle :=
  match [basic, literal, longBasic, longLiteral].find? (holdsPlain t) with
  | some q => q
  | none => if t.contains '\n' then .longBasic else .basic

/-- The kind that a key is written in. -/
def forKey (t : Text) : QuoteStyle :=
  match [basic, literal].find? (holdsPlain t) with
  | some q => q
  | none => .basic

end QuoteStyle

/-- A number of at most four digits in base sixteen. -/
def fourHexDigits (n : Nat) : Text :=
  let digits := (Nat.toDigits 16 n).map Char.toUpper
  List.replicate (4 - digits.length) '0' ++ digits

/-- A character between the quotation marks of a string with escapes. -/
def escapeChar (c : Char) : Text :=
  match c with
  | '\x08' => ['\\', 'b']
  | '\t' => ['\\', 't']
  | '\n' => ['\\', 'n']
  | '\x0c' => ['\\', 'f']
  | '\r' => ['\\', 'r']
  | '\\' => ['\\', '\\']
  | _ => if needsEscape c then ['\\', 'u'] ++ fourHexDigits c.toNat else [c]

/-- A text with escapes. `quotes` counts the quotation marks just before it, of which at most
`allowed` may stand together. -/
def escaped (keepsLines : Bool) (allowed quotes : Nat) : Text → Text
  | [] => []
  | c :: cs =>
    if c = '"' then
      if quotes < allowed then '"' :: escaped keepsLines allowed (quotes + 1) cs
      else '\\' :: '"' :: escaped keepsLines allowed 0 cs
    else
      (if c = '\n' ∧ keepsLines then ['\n'] else escapeChar c) ++ escaped keepsLines allowed 0 cs

/-- A text between quotation marks. A string of several lines begins on a line of its own. -/
def quote (q : QuoteStyle) (t : Text) : Text :=
  let start : Text := if q.isLong && t.contains '\n' then ['\n'] else []
  let inside := if q.hasEscapes then escaped q.isLong q.quotesInside 0 t else t
  q.delimiter ++ start ++ inside ++ q.delimiter

def quoteString (t : Text) : Text := quote (QuoteStyle.forString t) t

def quoteKey (t : Text) : Text :=
  if !t.isEmpty && t.all isBareKeyChar then t else quote (QuoteStyle.forKey t) t

end PugSize.Toml
