import Mathlib
import PugSize.Image.Measure

/-!
How large an image can be. Every raster format states width and height in at most four bytes each, and a
document states numbers that are rounded and kept within the same bounds; so whatever is measured has at
least one pixel and fits in 32 bits, and halving it keeps a pixel.
-/

namespace PugSize.Raster

variable {b : ByteArray} {i n v : Nat} {s : Size}

theorem byte?_lt (h : byte? b i = some v) : v < 256 := by
  obtain ⟨byte, -, rfl⟩ := Option.map_eq_some_iff.1 h
  exact byte.toNat_lt

theorem big?_lt (h : big? b i n = some v) : v < 256 ^ n := by
  induction n generalizing v with
  | zero =>
      cases h
      decide
  | succ n ih =>
      obtain ⟨high, hhigh, h⟩ := Option.bind_eq_some_iff.1 h
      obtain ⟨low, hlow, h⟩ := Option.bind_eq_some_iff.1 h
      cases h
      have hhigh := ih hhigh
      have hlow := byte?_lt hlow
      rw [Nat.pow_succ]
      omega

theorem little?_lt (h : little? b i n = some v) : v < 256 ^ n := by
  induction n generalizing i v with
  | zero =>
      cases h
      decide
  | succ n ih =>
      obtain ⟨low, hlow, h⟩ := Option.bind_eq_some_iff.1 h
      obtain ⟨high, hhigh, h⟩ := Option.bind_eq_some_iff.1 h
      cases h
      have hhigh := ih hhigh
      have hlow := byte?_lt hlow
      rw [Nat.pow_succ]
      omega

/-- Whether the sides of an image are numbers of 32 bits. -/
def IsNarrow (s : Size) : Prop := s.width < 2 ^ 32 ∧ s.height < 2 ^ 32

theorem isNarrow_png (h : Png.size? b = some s) : IsNarrow s := by
  simp only [Png.size?, Option.bind_eq_bind, Option.bind_eq_some_iff] at h
  obtain ⟨-, -, -, -, -, -, width, hwidth, height, hheight, h⟩ := h
  obtain rfl : s = ⟨width, height⟩ := by grind
  exact ⟨big?_lt hwidth, big?_lt hheight⟩

theorem isNarrow_gif (h : Gif.size? b = some s) : IsNarrow s := by
  simp only [Gif.size?, Option.bind_eq_bind, Option.bind_eq_some_iff] at h
  obtain ⟨-, -, width, hwidth, height, hheight, -, -, -, -, h⟩ := h
  cases h
  exact ⟨Nat.lt_trans (little?_lt hwidth) (by decide), Nat.lt_trans (little?_lt hheight) (by decide)⟩

theorem isNarrow_bmpShort (h : Bmp.shortSize? b = some s) : IsNarrow s := by
  simp only [Bmp.shortSize?, Option.bind_eq_bind, Option.bind_eq_some_iff] at h
  obtain ⟨width, hwidth, height, hheight, -, -, -, -, -, -, h⟩ := h
  cases h
  exact ⟨Nat.lt_trans (little?_lt hwidth) (by decide), Nat.lt_trans (little?_lt hheight) (by decide)⟩

theorem isNarrow_bmpLong (h : Bmp.longSize? b = some s) : IsNarrow s := by
  simp only [Bmp.longSize?, Option.bind_eq_bind, Option.bind_eq_some_iff] at h
  obtain ⟨width, hwidth, -, -, stated, hstated, height, hheight, h⟩ := h
  obtain rfl : s = ⟨width, height⟩ := by grind
  refine ⟨little?_lt hwidth, ?_⟩
  have hlt : stated < 2 ^ 32 := little?_lt hstated
  unfold Bmp.height? at hheight
  split at hheight
  · cases hheight
    exact hlt
  split at hheight
  · cases hheight
    change 0x100000000 - stated < 2 ^ 32
    omega
  · cases hheight

theorem isNarrow_bmp (h : Bmp.size? b = some s) : IsNarrow s := by
  have hstated {stated? : Option Size}
      (h : (stated?.bind fun size => (guard (size.width ≠ 0 && size.height ≠ 0) : Option Unit).bind
        fun _ => some size) = some s) : stated? = some s := by
    obtain ⟨size, hsize, h⟩ := Option.bind_eq_some_iff.1 h
    obtain ⟨-, -, h⟩ := Option.bind_eq_some_iff.1 h
    exact hsize.trans h
  simp only [Bmp.size?, Option.bind_eq_bind, Option.bind_eq_some_iff] at h
  obtain ⟨-, -, header, -, h⟩ := h
  split at h
  · exact isNarrow_bmpShort (hstated h)
  split at h
  · exact isNarrow_bmpLong (hstated h)
  · cases hstated h

theorem isNarrow_frame {frame : Jpeg.Frame} (h : Jpeg.frame? b i = some frame) :
    IsNarrow frame.size := by
  simp only [Jpeg.frame?, Option.bind_eq_bind, Option.bind_eq_some_iff] at h
  obtain ⟨length, _, -, -, -, -, height, hheight, width, hwidth, count, _, -, -, components, _, -, -, h⟩ := h
  cases h
  exact ⟨Nat.lt_trans (big?_lt hwidth) (by decide), Nat.lt_trans (big?_lt hheight) (by decide)⟩

/-- The frame that a search ends with is one that it began with or came to. -/
theorem isNarrow_search {fuel : Nat} {before : Option Jpeg.Frame} {frame : Jpeg.Frame}
    (hbefore : ∀ f, before = some f → IsNarrow f.size)
    (h : Jpeg.search? b i before fuel = some frame) : IsNarrow frame.size := by
  induction fuel generalizing i before with
  | zero => cases h
  | succ fuel ih =>
      rw [Jpeg.search?] at h
      split at h
      · split at h
        · exact ih hbefore h
        · cases h
      split at h
      · cases h
      dsimp only at h
      split at h
      · exact ih hbefore h
      split at h
      · split at h
        · rename_i found hfound
          refine ih (fun f hf => ?_) h
          cases hf
          exact isNarrow_frame hfound
        · cases h
      split at h
      · exact hbefore frame (Option.filter_eq_some_iff.1 h).1
      split at h
      · cases h
      split at h
      · cases h
      · exact ih hbefore h

theorem isNarrow_jpeg (h : Jpeg.size? b = some s) : IsNarrow s := by
  simp only [Jpeg.size?, Option.bind_eq_bind, Option.bind_eq_some_iff] at h
  obtain ⟨-, -, frame, hframe, h⟩ := h
  cases h
  refine isNarrow_search (fun f hf => ?_) hframe
  cases hf

theorem isNarrow_lossy (h : WebP.lossySize? b i = some s) : IsNarrow s := by
  simp only [WebP.lossySize?, Option.bind_eq_bind, Option.bind_eq_some_iff] at h
  obtain ⟨-, -, -, -, width, -, height, -, -, -, h⟩ := h
  cases h
  exact ⟨Nat.lt_trans (Nat.mod_lt width (by decide)) (by decide),
    Nat.lt_trans (Nat.mod_lt height (by decide)) (by decide)⟩

theorem isNarrow_lossless (h : WebP.losslessSize? b i = some s) : IsNarrow s := by
  simp only [WebP.losslessSize?, Option.bind_eq_bind, Option.bind_eq_some_iff] at h
  obtain ⟨-, -, -, -, header, -, -, -, h⟩ := h
  cases h
  constructor <;> dsimp only <;> omega

theorem isNarrow_extended (h : WebP.extendedSize? b i = some s) : IsNarrow s := by
  simp only [WebP.extendedSize?, Option.bind_eq_bind, Option.bind_eq_some_iff] at h
  obtain ⟨-, -, width, hwidth, height, hheight, -, -, -, -, -, -, h⟩ := h
  cases h
  have hwidth : width < 2 ^ 24 := little?_lt hwidth
  have hheight : height < 2 ^ 24 := little?_lt hheight
  constructor <;> dsimp only <;> omega

theorem isNarrow_webP (h : WebP.size? b = some s) : IsNarrow s := by
  unfold WebP.size? at h
  split at h
  · cases h
  split at h
  · exact isNarrow_lossy h
  split at h
  · exact isNarrow_lossless h
  split at h
  · exact isNarrow_extended h
  · cases h

/-- The sides of an image are numbers of 32 bits, whatever its format. -/
theorem isNarrow_size? {extension : String} (h : size? extension b = some s) : IsNarrow s := by
  obtain ⟨format, -, h⟩ := Option.bind_eq_some_iff.1 h
  cases format with
  | png => exact isNarrow_png h
  | gif => exact isNarrow_gif h
  | bmp => exact isNarrow_bmp h
  | jpeg => exact isNarrow_jpeg h
  | webp => exact isNarrow_webP h

end PugSize.Raster

namespace PugSize

/-- A number of pixels that an image can have: one at least, and within 32 bits. -/
def IsPixels (n : Nat) : Prop := 1 ≤ n ∧ n ≤ 2 ^ 32 - 1

/-- Whether both sides of a size are numbers of pixels. -/
def Size.InPixels (s : Size) : Prop := IsPixels s.width ∧ IsPixels s.height

namespace Svg

variable {t : Text} {size : Size}

theorem isPixels_pixels? {n : Nat} (h : pixels? t = some n) : IsPixels n := by
  unfold pixels? at h
  dsimp only at h
  split at h
  · split at h
    · split at h
      · rename_i hbounds
        cases h
        have hmost : maxPixels = 2 ^ 32 - 1 := rfl
        constructor <;> omega
      · cases h
    · cases h
  · cases h

theorem isPixels_side? {x : Binary} {n : Nat} (h : side? x = some n) : IsPixels n := by
  unfold side? at h
  split at h
  · split at h
    · cases h
      have hmost : maxPixels = 2 ^ 32 - 1 := rfl
      constructor <;> omega
    · cases h
  · cases h

theorem inPixels_viewBox (h : viewBoxSize? t = some size) : size.InPixels := by
  obtain ⟨numbers, -, h⟩ := Option.bind_eq_some_iff.1 h
  split at h
  · obtain ⟨width, hwidth, h⟩ := Option.bind_eq_some_iff.1 h
    obtain ⟨height, hheight, h⟩ := Option.bind_eq_some_iff.1 h
    cases h
    exact ⟨isPixels_side? hwidth, isPixels_side? hheight⟩
  · cases h

/-- The size that a document states, in whichever way. -/
theorem inPixels_size? (h : size? t = some size) : size.InPixels := by
  obtain ⟨tag, -, h⟩ := Option.bind_eq_some_iff.1 h
  dsimp only at h
  split at h
  · rename_i width height hwidth hheight
    cases h
    obtain ⟨_, -, hwidth⟩ := Option.bind_eq_some_iff.1 hwidth
    obtain ⟨_, -, hheight⟩ := Option.bind_eq_some_iff.1 hheight
    exact ⟨isPixels_pixels? hwidth, isPixels_pixels? hheight⟩
  · obtain ⟨_, -, h⟩ := Option.bind_eq_some_iff.1 h
    exact inPixels_viewBox h

end Svg

/-- Whether a reader of raster images gives numbers of 32 bits, zero among them. -/
def RasterReader.IsNarrow (raster? : RasterReader) : Prop :=
  ∀ extension content size, raster? extension content = some size → Raster.IsNarrow size

theorem Raster.size?_isNarrow : RasterReader.IsNarrow Raster.size? := fun _ _ _ => Raster.isNarrow_size?

/-- A size that is not empty is taken as it is. -/
theorem inPixels_nonEmptySize {file : String} {read size : Size} (hread : Raster.IsNarrow read)
    (h : nonEmptySize file read = .ok size) : size.InPixels := by
  obtain ⟨hwidth, hheight⟩ := hread
  unfold nonEmptySize at h
  split at h
  · cases h
  · cases h
    exact ⟨⟨by omega, by omega⟩, by omega, by omega⟩

/-- What is measured has pixels, whatever the file holds and however raster images are read. -/
theorem FileTree.inPixels_imageSizeBy {t : FileTree} {raster? : RasterReader} {home : Place}
    {path file : String} {refused : List String} {size : Size} (hraster : raster?.IsNarrow)
    (h : t.imageSizeBy raster? home path file refused = .ok size) : size.InPixels := by
  unfold imageSizeBy at h
  dsimp only at h
  split at h
  · cases h
  simp only [bind, Except.bind] at h
  split at h
  · split at h
    · cases h
    split at h
    · rename_i hsize
      cases h
      exact Svg.inPixels_size? hsize
    · cases h
  · split at h
    · cases h
    split at h
    · rename_i hsize
      exact inPixels_nonEmptySize (hraster _ _ _ hsize) h
    · cases h

/-- How a number of pixels is displayed: all of them, or half of them to the pixel. -/
def Display.Shows : Display → Nat → Nat → Prop
  | .full, n, shown => shown = n
  | .half, n, shown => 2 * shown = n ∨ 2 * shown = n + 1

theorem Display.shows_scale (display : Display) (s : Size) :
    display.Shows s.width (s.scale display).width ∧ display.Shows s.height (s.scale display).height := by
  cases display with
  | full => exact ⟨rfl, rfl⟩
  | half =>
      have hhalf (n : Nat) : 2 * halfPixels n = n ∨ 2 * halfPixels n = n + 1 := by
        rw [halfPixels]
        omega
      exact ⟨hhalf s.width, hhalf s.height⟩

/-- What is displayed of pixels is pixels, and not more of them. -/
theorem Display.Shows.isPixels {display : Display} {n shown : Nat} (h : display.Shows n shown)
    (hn : IsPixels n) : IsPixels shown ∧ shown ≤ n := by
  obtain ⟨hleast, hmost⟩ := hn
  cases display with
  | full =>
      cases h
      exact ⟨⟨hleast, hmost⟩, Nat.le_refl n⟩
  | half =>
      change 2 * shown = n ∨ 2 * shown = n + 1 at h
      exact ⟨⟨by omega, by omega⟩, by omega⟩

theorem Size.inPixels_scale {s : Size} (h : s.InPixels) (display : Display) :
    (s.scale display).InPixels := by
  obtain ⟨hwidth, hheight⟩ := display.shows_scale s
  exact ⟨(hwidth.isPixels h.1).1, (hheight.isPixels h.2).1⟩

end PugSize
