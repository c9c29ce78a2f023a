import PugSize.Document.Buffer
import PugSize.Edit.CharClass

/-!
The mixin call around a place in a document. A call begins with `+name(` and extends to where its
parentheses balance, parentheses in quoted strings and in `//` comments apart. Of the calls that
cover the place, the one that begins on the lowest line is taken, and on that line the first.
-/

namespace PugSize

structure MixinCall where
  name : Text
  start : Position
  stop : Position
  /-- From the marker through the closing parenthesis, lines separated by line feeds. -/
  text : Text
  /-- What stands between the parentheses. -/
  arguments : Text
  /-- The offset of `arguments` in `text`. -/
  argumentsOffset : Nat
deriving DecidableEq

namespace MixinCall

def encloses (c : MixinCall) (cursor : Position) : Bool :=
  c.start.le cursor && cursor.le c.stop

/-- The places at which the arguments begin and end. -/
def argumentsExtent (c : MixinCall) : Position × Position :=
  (c.start.advance (c.text.takeBytes c.argumentsOffset),
   c.start.advance (c.text.takeBytes (c.argumentsOffset + c.arguments.width)))

/-- What a character stands in, as far as the end of a call depends on it. -/
inductive Place
  | code
  | quoted (quote : Char)
  | escaped (quote : Char)
  | comment
deriving DecidableEq

/-- Whether each character is code: neither in a string nor in a comment. A line feed ends a
comment and leaves all else as it is. -/
def codeFlags (place : Place) : Text → List Bool
  | [] => []
  | c :: cs =>
    if c = '\n' then false :: codeFlags (if place = .comment then .code else place) cs
    else match place with
      | .comment => false :: codeFlags .comment cs
      | .escaped quote => false :: codeFlags (.quoted quote) cs
      | .quoted quote =>
        if c = '\\' then false :: codeFlags (.escaped quote) cs
        else if c = quote then false :: codeFlags .code cs
        else false :: codeFlags (.quoted quote) cs
      | .code =>
        if CharClass.isQuote c then false :: codeFlags (.quoted c) cs
        else if c = '/' ∧ cs.head? = some '/' then false :: codeFlags .comment cs
        else true :: codeFlags .code cs

/-- The number of characters through the first opening parenthesis in code. -/
def openingEnd? : List (Char × Bool) → Option Nat
  | [] => none
  | (c, isCode) :: rest =>
    if c = '(' ∧ isCode then some 1 else (openingEnd? rest).map (· + 1)

/-- The number of characters through the closing parenthesis of the given depth. -/
def closingEnd? (depth : Nat) : List (Char × Bool) → Option Nat
  | [] => none
  | (c, isCode) :: rest =>
    if c = '(' ∧ isCode then (closingEnd? (depth + 1) rest).map (· + 1)
    else if c = ')' ∧ isCode then
      if depth ≤ 1 then some 1 else (closingEnd? (depth - 1) rest).map (· + 1)
    else (closingEnd? depth rest).map (· + 1)

/-- The call at the front of a text, its parts before, between and through the parentheses. -/
def extent? (t : Text) : Option (Text × Text) := do
  let marked := t.zip (codeFlags .code t)
  let opening ← openingEnd? marked
  let length ← closingEnd? 1 (marked.drop opening)
  pure (t.take opening, (t.drop opening).take (length - 1))

/-- The document from a place on, line terminators made line feeds. -/
def textFrom (b : Buffer) (p : Position) : Text :=
  match (b.rawLines.drop p.line).map Text.stripReturn with
  | [] => []
  | l :: ls => Text.joinLines (l.drop p.character :: ls)

/-- The call of a name that begins at a place, if it balances. -/
def read? (b : Buffer) (start : Position) (name : Text) : Option MixinCall :=
  (extent? (textFrom b start)).map fun (opening, args) =>
    let full := opening ++ args ++ [')']
    { name, start
      stop := start.advance full
      text := full
      arguments := args
      argumentsOffset := opening.width }

/-- What a call of a name begins with. -/
def marker (name : Text) : Text := '+' :: name ++ ['(']

/-- The columns at which a pattern begins, found from the left without overlap; `skip` characters
belong to the one found before. -/
def columnsOf (pattern : Text) (column skip : Nat) : Text → List Nat
  | [] => []
  | c :: cs =>
    match skip with
    | n + 1 => columnsOf pattern (column + 1) n cs
    | 0 =>
      if pattern.isPrefixOf (c :: cs) then
        column :: columnsOf pattern (column + 1) (pattern.length - 1) cs
      else columnsOf pattern (column + 1) 0 cs

/-- The columns and names of the calls that begin on a line, from the left. -/
def candidates (line : Text) (names : List Text) : List (Nat × Text) :=
  let found := (names.filter fun name => !name.isEmpty).flatMap fun name =>
    (columnsOf (marker name) 0 0 line).map fun column => (column, name)
  found.mergeSort fun a b => a.1 ≤ b.1

/-- The first call on a line that encloses a place. -/
def onLine? (b : Buffer) (cursor : Position) (names : List Text) (i : Nat) : Option MixinCall :=
  (b.line? i).bind fun line =>
    (candidates line names).findSome? fun (column, name) =>
      (read? b ⟨i, column⟩ name).filter fun call => call.encloses cursor

/-- The nearest call that encloses a place. -/
def locate? (b : Buffer) (cursor : Position) (names : List Text) : Option MixinCall :=
  let last := min cursor.line (b.lineCount - 1)
  (List.range (last + 1)).reverse.findSome? (onLine? b cursor names)

end MixinCall
end PugSize
