/-!
The size of an image in pixels, and the size it is displayed at.
-/

namespace PugSize

structure Size where
  width : Nat
  height : Nat
deriving DecidableEq, Repr

/-- The display size: that of the image, or half of it for images of doubled density. -/
inductive Display
  | full | half
deriving DecidableEq, Repr

/-- Half of a number of pixels, a remaining half pixel counting as a whole one. -/
def halfPixels (n : Nat) : Nat := (n + 1) / 2

def Size.scale (s : Size) : Display → Size
  | .full => s
  | .half => ⟨halfPixels s.width, halfPixels s.height⟩

end PugSize
