import PugSize.Image.Raster.Bytes
import PugSize.Image.Size

/-!
The size of a GIF image: that of its screen. The screen and its palette must be there, and
something must follow.
-/

namespace PugSize.Raster.Gif

def isGif (b : ByteArray) : Bool := hasText b 0 "GIF87a" || hasText b 0 "GIF89a"

/-- The bytes of the palette that the flags of a screen announce. -/
def paletteLength (flags : Nat) : Nat :=
  if flags < 128 then 0 else 3 * Nat.pow 2 (flags % 8 + 1)

def size? (b : ByteArray) : Option Size := do
  guard (isGif b)
  let width ← little? b 6 2
  let height ← little? b 8 2
  let flags ← byte? b 10
  guard (holds b 0 (13 + paletteLength flags + 1))
  pure ⟨width, height⟩

end PugSize.Raster.Gif
