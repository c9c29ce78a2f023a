import PugSize.Text.Blank
import PugSize.Edit.Replacement
import PugSize.Image.Size

/-!
Sizes written into arguments by position: the width is the third argument and the height the
fourth. Missing arguments are added behind the last one.
-/

namespace PugSize

/-- Values that stand for no value, and are filled in even where values are kept. -/
def isVacant (t : Text) : Bool :=
  String.ofList t.trim ∈ ["", "null", "undefined", "\"\"", "''", "``"]

/-- A number in decimal notation. -/
def decimal (n : Nat) : Text := (toString n).toList

namespace Slots

/-- The value of a slot, if it is to be written. -/
def fill (t : Text) (overwrite : Bool) (slot : Span) (value : Text) : List Replacement :=
  if overwrite || isVacant (t.slice slot) then [⟨slot, value⟩] else []

/-- The quote character of the file argument. -/
def quoteOf (t : Text) (file : Span) : Char :=
  if (t.slice file).head? = some '\'' then '\'' else '"'

/-- The replacements for the arguments with the given spans. A lone file is followed by an
empty alternative text in the quotes of the file. -/
def replacements (t : Text) (spans : List Span) (size : Size) (overwrite : Bool) :
    List Replacement :=
  let width := decimal size.width
  let height := decimal size.height
  let comma := ", ".toList
  match spans with
  | [] => []
  | [file] =>
    let quote := quoteOf t file
    [.insertion file.stop (comma ++ [quote, quote] ++ comma ++ width ++ comma ++ height)]
  | [_, alt] => [.insertion alt.stop (comma ++ width ++ comma ++ height)]
  | [_, _, w] => fill t overwrite w width ++ [.insertion w.stop (comma ++ height)]
  | _ :: _ :: w :: h :: _ => fill t overwrite w width ++ fill t overwrite h height

/-- The argument text with the size written into its slots. -/
def write (t : Text) (spans : List Span) (size : Size) (overwrite : Bool) : Text :=
  Replacement.applyAll t (replacements t spans size overwrite)

end Slots
end PugSize
