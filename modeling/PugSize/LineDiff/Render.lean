import PugSize.Text.Lines
import PugSize.LineDiff.Hunk

/-!
The changes between two texts as they are shown: one line for each line of a hunk, with its number
and a mark, and a line of dots between hunks.
-/

namespace PugSize.LineDiff

/-- The lines of a text without their terminators; a text that ends with a terminator has no empty
line behind it. -/
def textLines (t : Text) : List Text :=
  let parts := Text.splitLines t
  let ended := parts.dropLast.map Text.stripReturn
  match parts.getLast? with
  | some [] | none => ended
  | some l => ended ++ [l]

/-- A number right-aligned in four columns. -/
def padded (n : Nat) : String :=
  let digits := toString n
  String.ofList (List.replicate (4 - digits.length) ' ') ++ digits

def mark : Change → String
  | .keep => " "
  | .remove => "-"
  | .add => "+"

/-- A text between the codes that switch a terminal to a color and back. -/
def inColor (code : String) (s : String) : String := s!"\x1b[{code}m{s}\x1b[0m"

def renderLine (color : Bool) (l : HunkLine Text) : String :=
  let s := s!"{mark l.change} {padded (l.index + 1)}: {String.ofList l.line}"
  match color, l.change with
  | true, .remove => inColor "31" s
  | true, .add => inColor "32" s
  | _, _ => s

/-- Hunks with a line of dots between two of them. -/
def renderHunks (color : Bool) (hs : List (List (HunkLine Text))) : List String :=
  List.intercalate ["..."] (hs.map fun h => h.map (renderLine color))

/-- The changes between two texts. -/
def render (color : Bool) (old new : Text) : String :=
  if old = new then "No changes detected."
  else "\n".intercalate (renderHunks color (hunks (textLines old) (textLines new)))

end PugSize.LineDiff
