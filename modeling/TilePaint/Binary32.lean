/-
  TilePaint/Binary32.lean
  =======================
  **Whole numbers from single precision lengths.**

  Lengths and positions on the document surface are binary32 numbers; tiles are
  counted in whole numbers.  This file takes a binary32 value apart into sign,
  significand and exponent and computes the whole numbers next to it exactly, in
  natural numbers: `floorIndex`, `ceilIndex` and `roundLong`.  A result that its
  word cannot hold becomes the nearest number that it can; a value that is not a
  number becomes zero.

  `tilesAcross` counts the tiles along a length.  Its quotient is rounded to 53
  significant binary digits before the ceiling is taken (`nearestQuotient`), which
  is visible for lengths of some 2 ^ 50 pixels and more.
-/
import TilePaint.Fault

namespace TilePaint

/-! ### Taking a value apart -/

/-- What a binary32 word stands for; a finite value is
    `± significand * 2 ^ exponent`. -/
inductive Binary32 where
  | finite (negative : Bool) (significand : Nat) (exponent : Int)
  | infinite (negative : Bool)
  | notANumber
deriving DecidableEq, Repr

namespace Binary32

/-- The value of a word: one sign bit, eight bits of exponent, 23 bits of
    fraction.  The leading one of a normal number is not stored. -/
def ofFloat (x : Float32) : Binary32 :=
  let bits := x.toBits.toNat
  let negative := decide (1 <<< 31 ≤ bits)
  let exponent : Nat := bits / (1 <<< 23) % 256
  let fraction := bits % (1 <<< 23)
  if exponent = 255 then
    if fraction = 0 then .infinite negative else .notANumber
  -- the exponent zero is kept for the numbers without a leading one
  else if exponent = 0 then .finite negative fraction (-149)
  else .finite negative ((1 <<< 23) + fraction) ((exponent : Int) - 150)

/-- `significand * 2 ^ exponent` as a fraction. -/
def toFraction (significand : Nat) (exponent : Int) : Nat × Nat :=
  (significand <<< exponent.toNat, 1 <<< (-exponent).toNat)

end Binary32

/-! ### Rounding a fraction -/

def ceilDiv (n d : Nat) : Nat := (n + d - 1) / d

/-- The whole number nearest to `n / d`; a half goes up. -/
def roundHalfUp (n d : Nat) : Nat := (2 * n + d) / (2 * d)

/-- The whole number nearest to `n / d`; a half goes to the even neighbour. -/
def roundHalfEven (n d : Nat) : Nat :=
  let q := n / d
  let r := n % d
  if d < 2 * r ∨ d = 2 * r ∧ q % 2 = 1 then q + 1 else q

/-- `n / d` rounded to `digits` significant binary digits, again as a fraction. -/
def nearestQuotient (digits n d : Nat) : Nat × Nat :=
  if n = 0 then (0, 1)
  else
    let guess : Int := (n.log2 : Int) - d.log2
    -- the difference of the two logarithms is at most one too great
    let (gn, gd) := Binary32.toFraction d guess
    let leading := if gn ≤ n * gd then guess else guess - 1
    let shift : Int := digits - 1 - leading
    let significand := roundHalfEven (n <<< shift.toNat) (d <<< (-shift).toNat)
    (significand <<< (-shift).toNat, 1 <<< shift.toNat)

/-! ### Whole numbers -/

def floorIndex (x : Float32) : Nat :=
  match Binary32.ofFloat x with
  | .finite false m e => let (n, d) := Binary32.toFraction m e; min maxIndex (n / d)
  | .infinite false => maxIndex
  | _ => 0

def ceilIndex (x : Float32) : Nat :=
  match Binary32.ofFloat x with
  | .finite false m e => let (n, d) := Binary32.toFraction m e; min maxIndex (ceilDiv n d)
  | .infinite false => maxIndex
  | _ => 0

def minLong : Int := -0x8000000000000000

def maxLong : Int := 0x7FFFFFFFFFFFFFFF

/-- The signed 64-bit number nearest to a value; a half goes away from zero. -/
def roundLong (x : Float32) : Int :=
  match Binary32.ofFloat x with
  | .finite negative m e =>
      let (n, d) := Binary32.toFraction m e
      let magnitude : Int := roundHalfUp n d
      if negative then max minLong (-magnitude) else min maxLong magnitude
  | .infinite negative => if negative then minLong else maxLong
  | .notANumber => 0

/-- The number of tiles of edge `edge` along a length of `length` pixels, the
    last one possibly cut.  A length that is negative or not a number has none. -/
def tilesAcross (length : Float32) (edge : Nat) : Nat :=
  match Binary32.ofFloat length with
  | .finite false m e =>
      let (n, d) := Binary32.toFraction m e
      let (qn, qd) := nearestQuotient 53 n (d * edge)
      min maxIndex (ceilDiv qn qd)
  | .infinite false => maxIndex
  | _ => 0

/-! ### The greater and the smaller of two values

When one of the two is not a number, the other one is taken. -/

def maxNumber (a b : Float32) : Float32 :=
  if a.isNaN then b else if b.isNaN then a else if a < b then b else a

def minNumber (a b : Float32) : Float32 :=
  if a.isNaN then b else if b.isNaN then a else if b < a then b else a

end TilePaint
