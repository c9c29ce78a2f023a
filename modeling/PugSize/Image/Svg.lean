import PugSize.Text.Blank
import PugSize.Text.Word
import PugSize.Number.Notation
import PugSize.Image.Size

/-!
The size that an SVG document states in its root tag: its width and height in pixels, or else the
last two numbers of its view box.
-/

namespace PugSize.Svg

/-- The greatest number of pixels. -/
def maxPixels : Nat := 0xFFFFFFFF

/-- Whether a text begins with a name in either case, and what follows it. The letter s has a
second small form. -/
def afterName? : Text → Text → Option Text
  | [], t => some t
  | _ :: _, [] => none
  | n :: ns, c :: cs =>
    if c.toLower = n.toLower ∨ (n.toLower = 's' ∧ c = 'ſ') then afterName? ns cs else none

/-- The attributes of the root tag, from behind its name through the closing bracket. -/
def rootTag? : Text → Option Text
  | [] => none
  | c :: cs =>
    match afterName? "<svg".toList (c :: cs) with
    | none => rootTag? cs
    | some rest =>
      if rest.head?.all fun next => !Text.isWord next then
        if '>' ∈ rest then some (rest.takeWhile (· != '>') ++ ['>']) else rootTag? cs
      else rootTag? cs

def isQuote (c : Char) : Bool := c == '"' || c == '\''

/-- The value of an attribute that begins here: white space, the name, an equals sign and a text
between quotes. -/
def attributeHere? (name t : Text) : Option Text :=
  match t with
  | [] => none
  | c :: cs =>
    if Text.isBlank c then
      match (afterName? name cs).map fun rest => rest.dropWhile Text.isBlank with
      | some ('=' :: rest) =>
        match rest.dropWhile Text.isBlank with
        | q :: more =>
          let value := more.takeWhile fun x => !isQuote x
          if isQuote q && !value.isEmpty && value.length < more.length then some value else none
        | [] => none
      | _ => none
    else none

/-- The trimmed value of the first attribute with a name. -/
def attribute? (name : Text) : Text → Option Text
  | [] => none
  | c :: cs =>
    match attributeHere? name (c :: cs) with
    | some value => some (Text.trim value)
    | none => attribute? name cs

/-- Digits with digits behind a point, if there is one. -/
def isPlainNumber (t : Text) : Bool :=
  match t.dropWhile Char.isDigit with
  | [] => !t.isEmpty
  | '.' :: part => t.head? != some '.' && !part.isEmpty && part.all Char.isDigit
  | _ => false

/-- A text without the unit of pixels. -/
def withoutUnit (t : Text) : Text :=
  let n := t.length - 2
  if String.ofList ((t.drop n).map Char.toLower) = "px" then t.take n else t

/-- The pixels of a length without a unit or in pixels, rounded. -/
def pixels? (t : Text) : Option Nat :=
  let number := withoutUnit t
  if isPlainNumber number then
    match (Binary.read? number).bind Binary.round? with
    | some n => if 1 ≤ n ∧ n ≤ maxPixels then some n.toNat else none
    | none => none
  else none

/-- The parts of a list that is separated by commas or white space. -/
def splitList (t : Text) : List Text :=
  (t.splitBy fun a b => (a == ',' || Text.isBlank a) == (b == ',' || Text.isBlank b)).filter
    fun part => part.head?.any fun c => !(c == ',' || Text.isBlank c)

/-- A side of a view box, rounded and not greater than the greatest number of pixels. -/
def side? (x : Binary) : Option Nat :=
  match x.round? with
  | some n => if 1 ≤ n then some (min n.toNat maxPixels) else none
  | none => none

def viewBoxSize? (t : Text) : Option Size := do
  let numbers ← (splitList t).mapM Binary.read?
  match numbers with
  | [_, _, w, h] => return ⟨← side? w, ← side? h⟩
  | _ => none

/-- The size of a document. -/
def size? (svg : Text) : Option Size := do
  let tag ← rootTag? svg
  let stated name := (attribute? name tag).bind pixels?
  match stated "width".toList, stated "height".toList with
  | some width, some height => some ⟨width, height⟩
  | _, _ => (attribute? "viewBox".toList tag).bind viewBoxSize?

end PugSize.Svg
