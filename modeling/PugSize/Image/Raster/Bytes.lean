/-!
Numbers in the bytes of a file.
-/

namespace PugSize.Raster

def byte? (b : ByteArray) (i : Nat) : Option Nat := b.data[i]?.map UInt8.toNat

/-- The number of `n` bytes, the highest first. -/
def big? (b : ByteArray) (i : Nat) : Nat → Option Nat
  | 0 => some 0
  | n + 1 => do
    let high ← big? b i n
    let low ← byte? b (i + n)
    pure (256 * high + low)

/-- The number of `n` bytes, the lowest first. -/
def little? (b : ByteArray) (i : Nat) : Nat → Option Nat
  | 0 => some 0
  | n + 1 => do
    let low ← byte? b i
    let high ← little? b (i + 1) n
    pure (low + 256 * high)

/-- Whether the given bytes stand at an offset. -/
def hasBytes (b : ByteArray) (i : Nat) (wanted : List Nat) : Bool :=
  (List.range wanted.length).map (fun k => byte? b (i + k)) == wanted.map some

def hasText (b : ByteArray) (i : Nat) (wanted : String) : Bool :=
  hasBytes b i (wanted.toList.map Char.toNat)

/-- Whether `n` bytes stand at an offset. -/
def holds (b : ByteArray) (i n : Nat) : Bool := i + n ≤ b.size

end PugSize.Raster
