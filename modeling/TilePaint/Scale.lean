/-
  TilePaint/Scale.lean
  ====================
  **Twips, pixels and the scale between them.**

  A document is measured in twips, the screen in device pixels.  At scale one a
  pixel is fifteen twips wide, at scale two it is half as wide.  All conversions
  are in single precision and round after each operation.

  Two scales are close when they differ by at most `scaleTolerance`; a scale that
  is not a number is close to nothing, and nothing is far from it either
  (`scalesClose` and `scalesFar` are not each other's negation).
-/

namespace TilePaint

def twipsPerPixel : Float32 := 15

/-- Scales that differ by no more than this count as one: 0.001, in binary. -/
def scaleTolerance : Float32 := Float32.ofBits 0x3a83126f

def pixelsToTwips (pixels scale : Float32) : Float32 := pixels / scale * twipsPerPixel

def twipsToPixels (twips scale : Float32) : Float32 := twips / twipsPerPixel * scale

def scaleDistance (a b : Float32) : Float32 := (a - b).abs

def scalesClose (a b : Float32) : Bool := scaleDistance a b ≤ scaleTolerance

def scalesFar (a b : Float32) : Bool := scaleTolerance < scaleDistance a b

end TilePaint
