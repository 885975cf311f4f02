/-
  TilePaint/Image.lean
  ====================
  **Images and the canvas they are drawn on.**

  An image is a block of pixels in row-major order, four bytes each.  Drawing one
  image on another replaces the pixels it covers; what falls outside is cut off
  (`Image.paste`).  A `Canvas` is an image that counts how often it was drawn on.
-/

namespace TilePaint

/-! ### Pixels -/

/-- One pixel, its bytes packed as red, green, blue, alpha from the highest to the
    lowest. -/
structure Pixel where
  rgba : UInt32
deriving DecidableEq, Repr

namespace Pixel

def clear : Pixel := ⟨0⟩

instance : Inhabited Pixel := ⟨clear⟩

def ofBytes (red green blue alpha : UInt8) : Pixel :=
  ⟨red.toUInt32 <<< 24 ||| green.toUInt32 <<< 16 ||| blue.toUInt32 <<< 8 ||| alpha.toUInt32⟩

end Pixel

/-! ### Images -/

/-- `width * height` pixels, row by row. -/
structure Image where
  width : Nat
  height : Nat
  pixels : Array Pixel
  size_pixels : pixels.size = width * height

/-- Write `count` pixels of `source`, from position `start` on, to the positions
    `target`, `target + 1`, … of `pixels`; positions that one of the two does not
    have are left out. -/
def copyPixels (pixels : Array Pixel) (target : Nat) (source : Array Pixel) (start : Nat) :
    Nat → Array Pixel
  | 0 => pixels
  | count + 1 =>
      copyPixels (pixels.setIfInBounds target (source.getD start Pixel.clear)) (target + 1)
        source (start + 1) count

@[simp] theorem size_copyPixels (pixels : Array Pixel) (target : Nat) (source : Array Pixel)
    (start count : Nat) : (copyPixels pixels target source start count).size = pixels.size := by
  induction count generalizing pixels target start with
  | zero => rfl
  | succ count ih => rw [copyPixels, ih, Array.size_setIfInBounds]

theorem getD_copyPixels {pixels : Array Pixel} {target : Nat} {source : Array Pixel}
    {start count i : Nat} (h : i < pixels.size) :
    (copyPixels pixels target source start count).getD i Pixel.clear =
      if target ≤ i ∧ i < target + count then source.getD (start + (i - target)) Pixel.clear
      else pixels.getD i Pixel.clear := by
  induction count generalizing pixels target start with
  | zero => rw [copyPixels, if_neg (by omega)]
  | succ count ih =>
    rw [copyPixels, ih (by rwa [Array.size_setIfInBounds])]
    by_cases hi : target = i
    · subst hi
      rw [if_neg (by omega), if_pos (by omega), Nat.sub_self, Nat.add_zero]
      simp only [Array.getD_eq_getD_getElem?, Array.getElem?_setIfInBounds, if_pos h, if_true,
        Option.getD_some]
    · have other : (pixels.setIfInBounds target (source.getD start Pixel.clear)).getD i
          Pixel.clear = pixels.getD i Pixel.clear := by
        simp only [Array.getD_eq_getD_getElem?, Array.getElem?_setIfInBounds, if_neg hi]
      rw [other]
      by_cases hr : target ≤ i ∧ i < target + (count + 1)
      · rw [if_pos (by omega), if_pos hr]
        congr 1
        omega
      · rw [if_neg (by omega), if_neg hr]

/-- Copy `count` rows of an image into rows of length `stride`: of each row, from
    row `top` on, the `width` pixels from column `left` on, to the place with
    corner `(x, y)`. -/
def copyRows (pixels : Array Pixel) (stride : Nat) (source : Array Pixel)
    (sourceStride x y left top width : Nat) : Nat → Array Pixel
  | 0 => pixels
  | count + 1 =>
      copyRows (copyPixels pixels (y * stride + x) source (top * sourceStride + left) width)
        stride source sourceStride x (y + 1) left (top + 1) width count

@[simp] theorem size_copyRows (pixels : Array Pixel) (stride : Nat) (source : Array Pixel)
    (sourceStride x y left top width count : Nat) :
    (copyRows pixels stride source sourceStride x y left top width count).size = pixels.size := by
  induction count generalizing pixels y top with
  | zero => rfl
  | succ count ih => rw [copyRows, ih, size_copyPixels]

theorem getD_copyRows {pixels source : Array Pixel}
    {stride sourceStride x y left top width count px py : Nat} (hpx : px < stride)
    (hin : py * stride + px < pixels.size) (hfit : 0 < width → x + width ≤ stride) :
    (copyRows pixels stride source sourceStride x y left top width count).getD
        (py * stride + px) Pixel.clear =
      if (x ≤ px ∧ px < x + width) ∧ y ≤ py ∧ py < y + count then
        source.getD ((top + (py - y)) * sourceStride + (left + (px - x))) Pixel.clear
      else pixels.getD (py * stride + px) Pixel.clear := by
  induction count generalizing pixels y top with
  | zero => rw [copyRows, if_neg (by omega)]
  | succ count ih =>
    rw [copyRows, ih (by rwa [size_copyPixels]), getD_copyPixels hin]
    -- above, on and below the first row that is copied
    rcases Nat.lt_trichotomy py y with h | h | h
    · have : (py + 1) * stride ≤ y * stride := Nat.mul_le_mul_right _ h
      rw [Nat.add_mul, Nat.one_mul] at this
      rw [if_neg (by omega), if_neg (by omega), if_neg (by omega)]
    · subst h
      rw [if_neg (by omega)]
      by_cases hx : x ≤ px ∧ px < x + width
      · rw [if_pos (by omega), if_pos ⟨hx, by omega⟩, Nat.sub_self, Nat.add_zero]
        congr 1
        omega
      · rw [if_neg (by omega), if_neg (by omega)]
    · have : (y + 1) * stride ≤ py * stride := Nat.mul_le_mul_right _ h
      rw [Nat.add_mul, Nat.one_mul] at this
      by_cases hr : (x ≤ px ∧ px < x + width) ∧ y ≤ py ∧ py < y + (count + 1)
      · rw [if_pos (by omega), if_pos hr]
        congr 3
        omega
      · rw [if_neg (by omega), if_neg (by omega), if_neg hr]

namespace Image

def blank (width height : Nat) : Image where
  width := width
  height := height
  pixels := Array.replicate (width * height) Pixel.clear
  size_pixels := Array.size_replicate

instance : Inhabited Image := ⟨blank 0 0⟩

def ofPixels? (width height : Nat) (pixels : Array Pixel) : Option Image :=
  if h : pixels.size = width * height then some ⟨width, height, pixels, h⟩ else none

def pixel (img : Image) (x y : Nat) : Pixel := img.pixels.getD (y * img.width + x) Pixel.clear

/-- The overlap of the interval of length `inner` that starts at `offset` with the
    interval of length `outer` that starts at zero: its start, the part of the inner
    interval before it, and its length. -/
def overlap (outer inner : Nat) (offset : Int) : Nat × Nat × Nat :=
  let start := offset.toNat
  let skip := (-offset).toNat
  (start, skip, min (outer - start) (inner - skip))

/-- Draw `img` with its top left corner at `(x, y)`: the covered pixels are
    replaced, and the part outside is cut off. -/
def paste : Image → Image → Int → Int → Image
  | ⟨baseWidth, baseHeight, basePixels, sized⟩, img, x, y =>
      let (startX, skipX, width) := overlap baseWidth img.width x
      let (startY, skipY, height) := overlap baseHeight img.height y
      { width := baseWidth
        height := baseHeight
        pixels := copyRows basePixels baseWidth img.pixels img.width startX startY skipX skipY
          width height
        size_pixels := by rw [size_copyRows, sized] }

/-- What drawing an image does to each pixel of the base. -/
theorem pixel_paste {base img : Image} {x y : Int} {px py : Nat} (hpx : px < base.width)
    (hpy : py < base.height) :
    (base.paste img x y).pixel px py =
      if (x ≤ px ∧ px < x + img.width) ∧ y ≤ py ∧ py < y + img.height then
        img.pixel (px - x).toNat (py - y).toNat
      else base.pixel px py := by
  obtain ⟨baseWidth, baseHeight, basePixels, sized⟩ := base
  simp only at hpx hpy
  have hin : py * baseWidth + px < basePixels.size := by
    have : (py + 1) * baseWidth ≤ baseHeight * baseWidth := Nat.mul_le_mul_right _ hpy
    rw [Nat.add_mul, Nat.one_mul] at this
    rw [sized, Nat.mul_comm baseWidth]
    omega
  simp only [paste, overlap, pixel]
  rw [getD_copyRows hpx hin (by omega)]
  by_cases h : (x ≤ px ∧ px < x + img.width) ∧ y ≤ py ∧ py < y + img.height
  · rw [if_pos h, if_pos (by omega)]
    congr 2
    · congr 1
      omega
    · omega
  · rw [if_neg h, if_neg (by omega)]

@[simp] theorem width_paste (base img : Image) (x y : Int) :
    (base.paste img x y).width = base.width := rfl

@[simp] theorem height_paste (base img : Image) (x y : Int) :
    (base.paste img x y).height = base.height := rfl

end Image

/-! ### Canvases -/

/-- An image to draw on, and the number of drawings so far. -/
structure Canvas where
  image : Image
  draws : Nat

namespace Canvas

def ofSize (width height : Nat) : Canvas := ⟨Image.blank width height, 0⟩

def draw (c : Canvas) (img : Image) (x y : Int) : Canvas :=
  ⟨c.image.paste img x y, c.draws + 1⟩

end Canvas

end TilePaint
