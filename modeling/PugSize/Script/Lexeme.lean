import PugSize.Text.Blank
import PugSize.Text.Identifier

/-!
The lexemes of a script fragment. A text is cut from the left, each time at the longest
lexeme; white space and comments are lexemes too, so the lexemes and the part that could not
be cut make up the text.
-/

namespace PugSize.Script

inductive TokenKind
  | str | template | number | ident
  | lparen | rparen | lbracket | rbracket | lbrace | rbrace
  | comma | colon | spread | punct
deriving DecidableEq, Repr

inductive Trivia
  | blank | lineComment | blockComment
deriving DecidableEq, Repr

inductive LexemeKind
  | token (kind : TokenKind)
  | trivia (kind : Trivia)
deriving DecidableEq, Repr

structure Lexeme where
  kind : LexemeKind
  text : Text
deriving DecidableEq

/-- White space, and the byte-order mark. -/
def isSkipped (c : Char) : Bool := Text.isBlank c || c == '\ufeff'

def isIdentStart (c : Char) : Bool := Text.isIdStart c || c == '$' || c == '_'

/-- Identifiers go on with `ID_Continue`, a dollar sign or a join control. -/
def isIdentContinue (c : Char) : Bool :=
  Text.isIdContinue c || c == '$' || c == '\u200c' || c == '\u200d'

def isDigitMark (c : Char) : Bool := c.isDigit || c == '_'

def isHexDigit (c : Char) : Bool :=
  c.isDigit || ('a' ≤ c && c ≤ 'f') || ('A' ≤ c && c ≤ 'F')

def isPunct (c : Char) : Bool := c ∈ ".;?!~%^&|*/+-<>=@#".toList

/-- How many characters `p` holds of at the front. -/
def run (p : Char → Bool) (t : Text) : Nat := (t.takeWhile p).length

/-- The length of a quoted literal behind its opening quote, the closing quote included. A
backslash takes the next character with it; only a template runs over lines. -/
def quotedLength? (quote : Char) : Text → Option Nat
  | [] => none
  | ['\\'] => none
  | '\\' :: _ :: cs => (quotedLength? quote cs).map (· + 2)
  | c :: cs =>
    if c = quote then some 1
    else if c = '\n' ∧ quote ≠ '\x60' then none
    else (quotedLength? quote cs).map (· + 1)

/-- The length of a block comment behind its opening, the closing included. -/
def blockLength? : Text → Option Nat
  | [] => none
  | '*' :: '/' :: _ => some 2
  | _ :: cs => (blockLength? cs).map (· + 1)

/-- The length of a decimal exponent, zero if there is none. -/
def exponentLength : Text → Nat
  | [] => 0
  | e :: cs =>
    if e = 'e' ∨ e = 'E' then
      let sign := match cs with
        | s :: _ => if s = '+' ∨ s = '-' then 1 else 0
        | [] => 0
      match run Char.isDigit (cs.drop sign) with
      | 0 => 0
      | n + 1 => 1 + sign + (n + 1)
    else 0

/-- The length of a point and the digits behind it, zero if there is no point. -/
def fractionLength : Text → Nat
  | '.' :: cs => 1 + run isDigitMark cs
  | _ => 0

/-- The length of a number that begins with a digit, in decimal notation. -/
def decimalLength (t : Text) : Nat :=
  let whole := run isDigitMark t
  let part := whole + fractionLength (t.drop whole)
  part + exponentLength (t.drop part)

/-- The length of a hexadecimal number, zero if there is none. -/
def hexLength : Text → Nat
  | '0' :: x :: cs =>
    if x = 'x' ∨ x = 'X' then
      match run (fun c => isHexDigit c || c == '_') cs with
      | 0 => 0
      | n + 1 => 2 + (n + 1)
    else 0
  | _ => 0

/-- The kind of a token that is one character long whatever follows. -/
def singleKind? (c : Char) : Option TokenKind :=
  match c with
  | '(' => some .lparen
  | ')' => some .rparen
  | '[' => some .lbracket
  | ']' => some .rbracket
  | '{' => some .lbrace
  | '}' => some .rbrace
  | ',' => some .comma
  | ':' => some .colon
  | c => if isPunct c then some .punct else none

/-- What begins with a point: a spread, a number or a lone point. -/
def pointLexeme (cs : Text) : TokenKind × Nat :=
  match cs with
  | '.' :: '.' :: _ => (.spread, 3)
  | c :: _ =>
    if c.isDigit then
      let part := 1 + run isDigitMark cs
      (.number, part + exponentLength (cs.drop (part - 1)))
    else (.punct, 1)
  | [] => (.punct, 1)

/-- What begins with a slash: a comment or a lone slash. A block comment that is never closed
is no lexeme. -/
def slashLexeme? (cs : Text) : Option (LexemeKind × Nat) :=
  match cs with
  | '/' :: rest => some (.trivia .lineComment, 2 + run (· != '\n') rest)
  | '*' :: rest => (blockLength? rest).map fun n => (.trivia .blockComment, 2 + n)
  | _ => some (.token .punct, 1)

/-- The kind and the length in characters of the longest lexeme at the front. -/
def firstLexeme? : Text → Option (LexemeKind × Nat)
  | [] => none
  | c :: cs =>
    if isSkipped c then some (.trivia .blank, 1 + run isSkipped cs)
    else if isIdentStart c then some (.token .ident, 1 + run isIdentContinue cs)
    else if c.isDigit then
      some (.token .number, max (decimalLength (c :: cs)) (hexLength (c :: cs)))
    else if c = '/' then slashLexeme? cs
    else if c = '.' then
      let (kind, n) := pointLexeme cs
      some (.token kind, n)
    else if c = '"' ∨ c = '\'' then
      (quotedLength? c cs).map fun n => (.token .str, 1 + n)
    else if c = '\x60' then
      (quotedLength? c cs).map fun n => (.token .template, 1 + n)
    else (singleKind? c).map fun kind => (.token kind, 1)

theorem run_pos {p : Char → Bool} {c : Char} (cs : Text) (h : p c = true) :
    0 < run p (c :: cs) := by
  simp [run, h]

theorem firstLexeme?_length_pos {t : Text} {kind : LexemeKind} {n : Nat}
    (h : firstLexeme? t = some (kind, n)) : 0 < n := by
  cases t with
  | nil => simp [firstLexeme?] at h
  | cons c cs =>
    simp only [firstLexeme?] at h
    split at h
    · simp only [Option.some.injEq, Prod.mk.injEq] at h; omega
    split at h
    · simp only [Option.some.injEq, Prod.mk.injEq] at h; omega
    split at h
    · rename_i hd
      have hr : 0 < run isDigitMark (c :: cs) := run_pos cs (by simp [isDigitMark, hd])
      simp only [decimalLength, Option.some.injEq, Prod.mk.injEq] at h
      omega
    split at h
    · unfold slashLexeme? at h
      split at h
      · simp only [Option.some.injEq, Prod.mk.injEq] at h; omega
      · obtain ⟨m, -, hm⟩ := Option.map_eq_some_iff.1 h
        simp only [Prod.mk.injEq] at hm; omega
      · simp only [Option.some.injEq, Prod.mk.injEq] at h; omega
    split at h
    · unfold pointLexeme at h
      split at h
      · simp only [Option.some.injEq, Prod.mk.injEq] at h; omega
      · split at h <;> simp only [Option.some.injEq, Prod.mk.injEq] at h <;> omega
      · simp only [Option.some.injEq, Prod.mk.injEq] at h; omega
    split at h
    · obtain ⟨m, -, hm⟩ := Option.map_eq_some_iff.1 h
      simp only [Prod.mk.injEq] at hm; omega
    split at h
    · obtain ⟨m, -, hm⟩ := Option.map_eq_some_iff.1 h
      simp only [Prod.mk.injEq] at hm; omega
    · obtain ⟨m, -, hm⟩ := Option.map_eq_some_iff.1 h
      simp only [Prod.mk.injEq] at hm; omega

/-- The lexemes of a text, and the part that begins with none. -/
def scan (t : Text) : List Lexeme × Text :=
  match _h : firstLexeme? t with
  | none => ([], t)
  | some (kind, n) =>
    let (later, rest) := scan (t.drop n)
    (⟨kind, t.take n⟩ :: later, rest)
termination_by t.length
decreasing_by
  have hn := firstLexeme?_length_pos _h
  cases t with
  | nil => simp [firstLexeme?] at _h
  | cons c cs => simp only [List.length_drop, List.length_cons]; omega

/-- Lexemes and the uncut part make up the text. -/
theorem scan_flatten (t : Text) : ((scan t).1.map Lexeme.text).flatten ++ (scan t).2 = t := by
  fun_induction scan t with
  | case1 => simp
  | case2 t kind n h later rest hscan ih =>
    simp only [hscan] at ih
    simp [List.append_assoc, ih]

end PugSize.Script
