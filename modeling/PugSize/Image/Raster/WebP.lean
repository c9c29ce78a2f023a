import PugSize.Image.Raster.Bytes
import PugSize.Image.Size

/-!
The size of a WebP image. A file with a simple image states it with the image; an extended file
states it first and needs an image, or the parts of an animation, behind.
-/

namespace PugSize.Raster.WebP

def isWebP (b : ByteArray) : Bool := hasText b 0 "RIFF" && hasText b 8 "WEBP"

/-- A lossy image: a key frame with its start code. -/
def lossySize? (b : ByteArray) (i : Nat) : Option Size := do
  let tag ← little? b i 3
  guard (tag % 2 = 0 && hasBytes b (i + 3) [0x9D, 0x01, 0x2A])
  let width := (← little? b (i + 6) 2) % 0x4000
  let height := (← little? b (i + 8) 2) % 0x4000
  guard (width ≠ 0 && height ≠ 0)
  pure ⟨width, height⟩

/-- An image without loss: its width and height are stored less one. -/
def losslessSize? (b : ByteArray) (i : Nat) : Option Size := do
  guard ((← byte? b i) = 0x2F)
  let header ← little? b (i + 1) 4
  guard (header / 0x20000000 = 0)
  pure ⟨header % 0x4000 + 1, header / 0x4000 % 0x4000 + 1⟩

/-- The names of the chunks from an offset on. -/
def chunkNames (b : ByteArray) (i stop : Nat) : Nat → List String
  | 0 => []
  | fuel + 1 =>
    match little? b (i + 4) 4 with
    | none => []
    | some length =>
      if stop ≤ i then []
      else
        let name := ["VP8 ", "VP8L", "ANIM", "ANMF"].filter (hasText b i)
        name ++ chunkNames b (i + 8 + length + length % 2) stop fuel

def extendedSize? (b : ByteArray) (i : Nat) : Option Size := do
  let flags ← byte? b i
  let width := (← little? b (i + 4) 3) + 1
  let height := (← little? b (i + 7) 3) + 1
  guard (width * height < 0x100000000)
  let stop := (← little? b 4 4) + 8
  let names := chunkNames b (i + 10) stop b.size
  let isAnimated := flags / 2 % 2 = 1
  guard
    (if isAnimated then names.contains "ANIM" && names.contains "ANMF"
     else names.contains "VP8 " || names.contains "VP8L")
  pure ⟨width, height⟩

def size? (b : ByteArray) : Option Size :=
  if !isWebP b then none
  else if hasText b 12 "VP8 " then lossySize? b 20
  else if hasText b 12 "VP8L" then losslessSize? b 20
  else if hasText b 12 "VP8X" then extendedSize? b 20
  else none

end PugSize.Raster.WebP
