import PugSize.Text.Lowercase

/-!
Paths. A written path is a string; a place in a file tree is the list of the names that lead to it.
-/

namespace PugSize

/-- The names that lead from the top of a file tree to a place in it. -/
abbrev Place := List String

namespace Path

/-- The parts of a written path between its slashes. -/
def parts (path : String) : List String := (path.toList.splitOn '/').map String.ofList

/-- The parts of a written path that name something. -/
def names (path : String) : List String :=
  (parts path).filter fun part => part ≠ "" && part ≠ "." && part ≠ ".."

def isAbsolute (path : String) : Bool := path.toList.head? == some '/'

/-- A path written relative to another one. -/
def join (base path : String) : String :=
  if isAbsolute path then path
  else if base = "" || base.toList.getLast? = some '/' then base ++ path
  else base ++ "/" ++ path

/-- A path without the slashes at its beginning. -/
def withoutLeadingSlashes (path : String) : String :=
  String.ofList (path.toList.dropWhile (· == '/'))

/-- A place written as a relative path. -/
def ofPlace (p : Place) : String := "/".intercalate p

/-- A place written as a path from the top. -/
def absolute (p : Place) : String := "/" ++ ofPlace p

/-- The place that a written path leads to from a directory, whatever is on the way. -/
def target (home : Place) (path : String) : Place :=
  (parts path).foldl
    (fun place part =>
      if part = "" ∨ part = "." then place
      else if part = ".." then place.dropLast
      else place ++ [part])
    (if isAbsolute path then [] else home)

/-- The name of the file that a path leads to. -/
def fileName? (path : String) : Option String :=
  ((parts path).filter fun part => part ≠ "" && part ≠ ".").getLast?.filter fun name => name ≠ ".."

/-- What stands behind the last point of a file name. A name that only begins with a point has no
extension. -/
def extension (path : String) : String :=
  let name := ((fileName? path).getD "").toList
  let behind := (name.reverse.takeWhile (· != '.')).reverse
  if behind.length + 1 < name.length then String.ofList (Text.lowercase behind) else ""

end Path
end PugSize
