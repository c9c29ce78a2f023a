import PugSize.Insert
import PugSize.Image.Measure
import PugSize.Workspace.Ignore

/-!
Images looked up in a workspace. A path leads to a file below the directory of images, or else to
the file anywhere in the workspace whose path ends with it; if there are several, somebody chooses.
-/

namespace PugSize

/-- Where images are looked for. -/
structure ImageSearch where
  tree : FileTree
  /-- The directory that relative paths lead on from. -/
  home : Place
  root : String
  imagesRoot : String
  searchesWorkspace : Bool
  refused : List String

/-- Chooses one of several files that match a path, by its index. -/
abbrev Chooser (σ : Type) := String → List Place → StateM σ (Option Nat)

namespace ImageSearch

variable {σ : Type}

/-- The directory of images at a path that may be relative to the workspace. -/
def inWorkspace (tree : FileTree) (home : Place) (root imagesRoot : String)
    (searchesWorkspace : Bool) (refused : List String) : ImageSearch where
  tree
  home
  root
  imagesRoot := Path.join root imagesRoot
  searchesWorkspace
  refused := refused.map fun e =>
    String.ofList (Text.lowercase (e.toList.dropWhile (· == '.')))

/-- The files of the workspace that match a path. -/
def matchingBy (s : ImageSearch) (walk : Walker) (path : String) : List Place :=
  match s.tree.locate s.home s.root with
  | .ok root => s.tree.filesEndingInBy walk root path
  | .error _ => []

/-- The path of the file that a written path stands for. -/
def locateBy (s : ImageSearch) (walk : Walker) (choose : Chooser σ) (file : String) :
    StateM σ (Option String) := do
  let relative := Path.withoutLeadingSlashes file
  let direct := Path.join s.imagesRoot relative
  let inRoot (p : Place) := Path.join s.root (Path.ofPlace p)
  if s.tree.isFile s.home direct then return some direct
  else if !s.searchesWorkspace then return none
  else match s.matchingBy walk relative with
    | [] => return none
    | [only] => return some (inRoot only)
    | several =>
      match ← choose file several with
      | none => return none
      | some i => return several[i]?.map inRoot

/-- Looks an image up with a walk of the workspace, and measures it with `raster?` if it is none of text. -/
def resolverBy (s : ImageSearch) (raster? : RasterReader) (walk : Walker) (choose : Chooser σ) :
    Resolver σ := fun image => do
  let file := String.ofList image
  match ← s.locateBy walk choose file with
  | none => return .error (.notFound file)
  | some path => return s.tree.imageSizeBy raster? s.home path file s.refused

def resolver (s : ImageSearch) (choose : Chooser σ) : Resolver σ :=
  s.resolverBy Raster.size? FileTree.walked choose

end ImageSearch
end PugSize
