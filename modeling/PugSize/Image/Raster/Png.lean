import PugSize.Image.Raster.Bytes
import PugSize.Image.Size

/-!
The size of a PNG image: it is stated by the first chunk, and the chunks up to the image data must
be there.
-/

namespace PugSize.Raster.Png

def signature : List Nat := [0x89, 0x50, 0x4E, 0x47, 0x0D, 0x0A, 0x1A, 0x0A]

/-- The check sum with one more bit of a byte taken in. -/
def checkBit (crc : UInt32) : UInt32 :=
  if crc &&& 1 = 1 then (crc >>> 1) ^^^ 0xEDB88320 else crc >>> 1

def checkByte (crc : UInt32) (byte : UInt8) : UInt32 :=
  (List.range 8).foldl (fun c _ => checkBit c) (crc ^^^ byte.toUInt32)

/-- The check sum of a stretch of bytes. -/
def checkSum (b : ByteArray) (start length : Nat) : Nat :=
  ((b.extract start (start + length)).foldl checkByte 0xFFFFFFFF ^^^ 0xFFFFFFFF).toNat

/-- Whether the chunk at an offset ends with the check sum of its type and data. -/
def isSound (b : ByteArray) (i length : Nat) : Bool :=
  big? b (i + 8 + length) 4 == some (checkSum b (i + 4) (length + 4))

/-- The color types with the bit depths that each can have. -/
def depths : List (Nat × List Nat) :=
  [(0, [1, 2, 4, 8, 16]), (2, [8, 16]), (3, [1, 2, 4, 8]), (4, [8, 16]), (6, [8, 16])]

/-- The color type of images with a palette. -/
def indexedColor : Nat := 3

/-- Whether image data follows at an offset, behind other chunks. Images with a palette need it
before. -/
def reachesData (b : ByteArray) (needsPalette : Bool) (i : Nat) : Nat → Bool
  | 0 => false
  | fuel + 1 =>
    match big? b i 4 with
    | none => false
    | some length =>
      if !holds b i 8 || hasText b (i + 4) "IEND" || hasText b (i + 4) "IHDR" then false
      else if hasText b (i + 4) "IDAT" then !needsPalette
      else
        let isPalette := hasText b (i + 4) "PLTE"
        if !holds b i (length + 12) || (isPalette && !isSound b i length) then false
        else reachesData b (needsPalette && !isPalette) (i + length + 12) fuel

def size? (b : ByteArray) : Option Size := do
  guard (hasBytes b 0 signature && hasText b 12 "IHDR")
  guard ((← big? b 8 4) = 13 && isSound b 8 13)
  let width ← big? b 16 4
  let height ← big? b 20 4
  guard (width ≠ 0 && height ≠ 0)
  let depth ← byte? b 24
  let color ← byte? b 25
  guard (((depths.lookup color).getD []).contains depth)
  guard ((← byte? b 26) = 0 && (← byte? b 27) = 0 && (← byte? b 28) ≤ 1)
  guard (reachesData b (color == indexedColor) 33 b.size)
  pure ⟨width, height⟩

end PugSize.Raster.Png
