import PugSize.Image.Raster.Bytes
import PugSize.Image.Size

/-!
The size of a BMP image. A negative height means that the rows go from the top down.
-/

namespace PugSize.Raster.Bmp

/-- The greatest width and height. -/
def maxSide : Nat := 0xFFFF

/-- The lengths of the headers that begin with a width and a height of 32 bits. -/
def longHeaders : List Nat := [40, 52, 56, 108, 124]

/-- Which numbers of bits go with a kind of compression. -/
def allowedBits (compression : Nat) : List Nat :=
  match compression with
  | 0 => [1, 2, 4, 8, 16, 24, 32]
  | 1 => [8]
  | 2 => [4]
  | 3 => [16, 32]
  | _ => []

/-- The height of a number of 32 bits with a sign. -/
def height? (n : Nat) : Option Nat :=
  if n ≤ maxSide then some n
  else if 0x80000000 < n then some (0x100000000 - n)
  else none

def shortSize? (b : ByteArray) : Option Size := do
  let width ← little? b 18 2
  let height ← little? b 20 2
  guard ((← little? b 22 2) = 1 && [1, 4, 8, 24].contains (← little? b 24 2))
  pure ⟨width, height⟩

def longSize? (b : ByteArray) : Option Size := do
  let width ← little? b 18 4
  guard (width ≤ maxSide)
  let stated ← little? b 22 4
  let height ← height? stated
  guard ((← little? b 26 2) = 1)
  let bits ← little? b 28 2
  let compression ← little? b 30 4
  guard ((allowedBits compression).contains bits)
  guard (stated ≤ maxSide || compression = 0 || compression = 3)
  guard (holds b 0 54)
  pure ⟨width, height⟩

def size? (b : ByteArray) : Option Size := do
  guard (hasText b 0 "BM")
  let header ← little? b 14 4
  let size ←
    if header = 12 then shortSize? b
    else if longHeaders.contains header then longSize? b
    else none
  guard (size.width ≠ 0 && size.height ≠ 0)
  pure size

end PugSize.Raster.Bmp
