import PugSize.Image.Raster.Png
import PugSize.Image.Raster.Gif
import PugSize.Image.Raster.Bmp
import PugSize.Image.Raster.Jpeg
import PugSize.Image.Raster.WebP

/-!
The size of a raster image. Its format is told from the first bytes, whatever the file is called;
the name only counts where the bytes say nothing.
-/

namespace PugSize.Raster

inductive Format
  | png | gif | bmp | jpeg | webp
deriving DecidableEq

/-- The format that the first bytes tell. -/
def Format.ofBytes? (b : ByteArray) : Option Format :=
  if hasBytes b 0 Png.signature then some .png
  else if hasBytes b 0 [0xFF, 0xD8, 0xFF] then some .jpeg
  else if Gif.isGif b then some .gif
  else if WebP.isWebP b then some .webp
  else if hasText b 0 "BM" then some .bmp
  else none

/-- The format that a lower-case extension tells. -/
def Format.ofExtension? (extension : String) : Option Format :=
  match extension with
  | "png" | "apng" => some .png
  | "gif" => some .gif
  | "bmp" | "dib" => some .bmp
  | "jpg" | "jpeg" | "jfif" => some .jpeg
  | "webp" => some .webp
  | _ => none

def Format.size? (b : ByteArray) : Format → Option Size
  | .png => Png.size? b
  | .gif => Gif.size? b
  | .bmp => Bmp.size? b
  | .jpeg => Jpeg.size? b
  | .webp => WebP.size? b

/-- The size of the image in a file with the given extension. -/
def size? (extension : String) (b : ByteArray) : Option Size :=
  ((Format.ofBytes? b).or (Format.ofExtension? extension)).bind (Format.size? b)

end PugSize.Raster
