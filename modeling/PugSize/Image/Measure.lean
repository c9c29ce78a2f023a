import PugSize.Image.Svg
import PugSize.Image.Raster.Format
import PugSize.Workspace.FileTree

/-!
The size of the image in a file. Files with certain extensions are refused, whether they are there
or not; an SVG document states its size as text, and all other files are taken for raster images.
-/

namespace PugSize

/-- The size of an image, if it has one at all. -/
def nonEmptySize (file : String) (size : Size) : Except ImageError Size :=
  if size.width = 0 ∨ size.height = 0 then .error (.emptyImage file size) else .ok size

/-- Reads the size of a raster image from a file with the given extension. -/
abbrev RasterReader := String → ByteArray → Option Size

/-- The size of the image at a path, if `raster?` reads the raster images; `file` is the name that errors
give. -/
def FileTree.imageSizeBy (t : FileTree) (raster? : RasterReader) (home : Place) (path file : String)
    (refused : List String) : Except ImageError Size := do
  let extension := Path.extension path
  if refused.contains extension then throw (.unsupportedExtension extension file)
  let unreadable {α : Type} (result : Except ReadFailure α) : Except ImageError α :=
    result.mapError (.unreadable path)
  if extension = "svg" then
    match Svg.size? (← unreadable (t.readText home path)).toList with
    | some size => return size
    | none => throw (.svgWithoutSize file)
  else
    match raster? extension (← unreadable (t.read home path)) with
    | some size => nonEmptySize file size
    | none => throw (.notAnImage file)

def FileTree.imageSize (t : FileTree) (home : Place) (path file : String) (refused : List String) :
    Except ImageError Size :=
  t.imageSizeBy Raster.size? home path file refused

end PugSize
