import PugSize.Image.Raster.Bytes
import PugSize.Image.Size

/-!
The size of a JPEG image: it is stated by the frame header, which stands before the start of the
first scan.
-/

namespace PugSize.Raster.Jpeg

/-- What the frame header states. -/
structure Frame where
  size : Size
  components : List Nat

/-- The identifiers of `n` components, three bytes apart. -/
def componentIds? (b : ByteArray) (i : Nat) : Nat → Option (List Nat)
  | 0 => some []
  | n + 1 => do
    let id ← byte? b i
    let sampling ← byte? b (i + 1)
    guard (sampling / 16 ≠ 0 && sampling % 16 ≠ 0)
    let later ← componentIds? b (i + 3) n
    pure (id :: later)

/-- The frame header whose length stands at an offset. -/
def frame? (b : ByteArray) (i : Nat) : Option Frame := do
  let length ← big? b i 2
  guard ((← byte? b (i + 2)) = 8)
  let height ← big? b (i + 3) 2
  let width ← big? b (i + 5) 2
  let count ← byte? b (i + 7)
  guard (width ≠ 0 && height ≠ 0 && count ≠ 0 && count ≤ 4 && length = 8 + 3 * count)
  let components ← componentIds? b (i + 8) count
  guard (holds b i length)
  pure ⟨⟨width, height⟩, components⟩

/-- Whether a scan of components of the frame begins at an offset. -/
def isScan (b : ByteArray) (i : Nat) (frame : Frame) : Bool :=
  match big? b i 2, byte? b (i + 2) with
  | some length, some count =>
    let ids := (List.range count).map fun k => byte? b (i + 3 + 2 * k)
    1 ≤ count && count ≤ 4 && length == 6 + 2 * count && holds b i length &&
      ids.all (fun id => id.any frame.components.contains) && ids.eraseDups.length == count
  | _, _ => false

/-- The frame behind the markers from an offset on. -/
def search? (b : ByteArray) (i : Nat) (frame : Option Frame) : Nat → Option Frame
  | 0 => none
  | fuel + 1 =>
    if byte? b i != some 0xFF then
      if holds b i 1 then search? b (i + 1) frame fuel else none
    else
      match byte? b (i + 1) with
      | none => none
      | some m =>
        let length := (big? b (i + 2) 2).getD 0
        let skipped := i + 2 + length
        if m = 0xFF ∨ m = 0 then search? b (i + 1) frame fuel
        else if 0xC0 ≤ m ∧ m ≤ 0xC2 then
          match frame? b (i + 2) with
          | some found => search? b skipped (some found) fuel
          | none => none
        else if m = 0xDA then frame.filter (isScan b (i + 2))
        else if m = 0xD9 ∨ m = 0xCC ∨ m = 0xDC then none
        else if length < 2 ∨ !holds b (i + 2) length then none
        else search? b skipped frame fuel

def size? (b : ByteArray) : Option Size := do
  guard (hasBytes b 0 [0xFF, 0xD8])
  let frame ← search? b 2 none b.size
  pure frame.size

end PugSize.Raster.Jpeg
