import PugSize.Workspace.FileTree

/-!
Files that are found by the ends of their paths. Which entries below a directory are looked at, and in
which order, is up to the walk; what is found is told by the set of its entries.
-/

namespace PugSize

/-- A walk of a directory of a tree: the entries below it that are come to, one after the other, by the
names that lead to them. -/
abbrev Walker := FileTree → Place → List Place

namespace FileTree

def hasFile (t : FileTree) (p : Place) : Bool := (t.files.lookup p).isSome

/-- The files below a directory that a walk comes to and whose paths end with the names of a written
path, each of them once and in order. -/
def filesEndingInBy (t : FileTree) (walk : Walker) (directory : Place) (path : String) :
    List Place :=
  let wanted := Path.names path
  if wanted.isEmpty then []
  else
    let found := (walk t directory).filter fun p =>
      t.hasFile (directory ++ p) && wanted.isSuffixOf p
    found.eraseDups.mergeSort fun a b => !decide (b < a)

end FileTree
end PugSize
