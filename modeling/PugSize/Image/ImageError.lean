import PugSize.Image.Size

/-!
Why the size of an image is not known.
-/

namespace PugSize

/-- Why a file cannot be read. -/
inductive ReadFailure
  | notFound
  | notADirectory
  | isADirectory
  | notText
deriving DecidableEq

def ReadFailure.message : ReadFailure → String
  | .notFound => "No such file or directory (os error 2)"
  | .notADirectory => "Not a directory (os error 20)"
  | .isADirectory => "Is a directory (os error 21)"
  | .notText => "stream did not contain valid UTF-8"

inductive ImageError
  | notFound (file : String)
  | unsupportedExtension (extension file : String)
  | svgWithoutSize (file : String)
  /-- The file holds no image that can be read. -/
  | notAnImage (file : String)
  | emptyImage (file : String) (size : Size)
  | unreadable (path : String) (cause : ReadFailure)
deriving DecidableEq

def ImageError.message : ImageError → String
  | .notFound file => s!"Image not found: {file}"
  | .unsupportedExtension extension file =>
    s!"Reading the size of .{extension} files is not supported: {file}"
  | .svgWithoutSize file =>
    s!"Could not determine the SVG size (width/height or viewBox required): {file}"
  | .notAnImage file => s!"Failed to read the image size of {file}"
  | .emptyImage file size =>
    s!"Failed to read the image size of {file}: image reports a size of {size.width}x{size.height}"
  | .unreadable path cause => s!"Failed to read '{path}': {cause.message}"

end PugSize
