/-
  TilePaint/Rect.lean
  ===================
  **Rectangles on the document surface.**

  A `Rect` lies in device pixels or in any other single precision unit, a
  `TwipRect` in whole twips.  A rectangle is empty when one of its sides is zero
  or negative; a side that is not a number does not make it empty.
-/
import TilePaint.Binary32

namespace TilePaint

/-! ### Rectangles in single precision -/

structure Rect where
  x : Float32
  y : Float32
  width : Float32
  height : Float32

namespace Rect

def right (r : Rect) : Float32 := r.x + r.width

def bottom (r : Rect) : Float32 := r.y + r.height

def isEmpty (r : Rect) : Bool := r.width ≤ 0 || r.height ≤ 0

def offset (r : Rect) (dx dy : Float32) : Rect :=
  { r with x := r.x + dx, y := r.y + dy }

/-- The common part of two rectangles, unless it is empty. -/
def intersect (a b : Rect) : Option Rect :=
  let x := maxNumber a.x b.x
  let y := maxNumber a.y b.y
  let right := minNumber a.right b.right
  let bottom := minNumber a.bottom b.bottom
  let common : Rect := ⟨x, y, right - x, bottom - y⟩
  if common.isEmpty then none else some common

end Rect

/-! ### Rectangles in twips -/

@[ext] structure TwipRect where
  x : Int
  y : Int
  width : Int
  height : Int
deriving DecidableEq, Repr, Inhabited

namespace TwipRect

def isEmpty (r : TwipRect) : Bool := r.width ≤ 0 || r.height ≤ 0

/-- The same rectangle in single precision, each number rounded to the nearest. -/
def toRect (r : TwipRect) : Rect :=
  ⟨Float32.ofInt r.x, Float32.ofInt r.y, Float32.ofInt r.width, Float32.ofInt r.height⟩

end TwipRect

end TilePaint
