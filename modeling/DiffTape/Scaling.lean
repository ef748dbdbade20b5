/-
  SCALING BY POWERS OF TWO.

  `scalePow2 x e` is `x · 2 ^ e` computed without forming `2 ^ e`, which may be out of range
  although the product is not.  It multiplies by `2 ^ ±64` until the exponent that is left is at
  most 64 in magnitude, and multiplies by that power last.

  It stops early when the value has become zero, infinite or NaN, because further scaling cannot
  change it.  This also bounds the number of steps: a binary format leaves its range after a few
  of them, whatever the exponent.

  `frexpExponent x` is the `e` for which `x · 2 ^ -e` has magnitude in `[1/2, 1)`.  It takes the
  floor of a logarithm that may be off, and corrects it by one comparison of the scaled value.
-/
import DiffTape.Scalar

namespace DiffTape

variable {F : Type} [Scalar F]

open Scalar

/-- The largest exponent that is applied in one multiplication. -/
def scaleStride : Int := 64

/-- `2 ^ 64`, a normal number of both formats. -/
def strideUp : F := powi two scaleStride

/-- `2 ^ -64`. -/
def strideDown : F := 1 / strideUp

/-- Scaling can change `x` no further if it is zero, infinite or NaN. -/
def canScale (x : F) : Bool := x != 0 && isFinite x

/-- Takes strides of `2 ^ ±64` while the exponent is larger than one stride and the value can
    change.  The product of value and power is what each stride keeps. -/
def takeStrides (x : F) (e : Int) : F × Int :=
  if scaleStride < e ∧ canScale x then
    takeStrides (x * strideUp) (e - scaleStride)
  else if e < -scaleStride ∧ canScale x then
    takeStrides (x * strideDown) (e + scaleStride)
  else
    (x, e)
termination_by e.natAbs
decreasing_by
  all_goals
    simp only [scaleStride] at *
    omega

/-- `x · 2 ^ e`.  If more than a stride is left over, the strides ended at a value that
    scaling cannot change. -/
def scalePow2 (x : F) (e : Int) : F :=
  let (x, e) := takeStrides x e
  if scaleStride < e.natAbs then x else x * powi two e

variable [Elementary F]

/-- The floor of the binary logarithm as far as the `log2` of `F` can tell; `0` if that is not
    a 32-bit integer. -/
def log2Floor (x : F) : Int :=
  match floorInt? (Elementary.log2 x) with
  | some k => if Int32.minValue.toInt ≤ k ∧ k ≤ Int32.maxValue.toInt then k else 0
  | none => 0

/-- The exponent `e` for which `x · 2 ^ -e` lies in `[1/2, 1)` in magnitude; `0` for zero,
    infinities and NaN. -/
def frexpExponent (x : F) : Int :=
  if canScale x then
    let e := log2Floor (abs x) + 1
    let m := scalePow2 (abs x) (-e)
    -- The logarithm may have been rounded across an integer, in either direction.
    if 1 < m ∨ m == 1 then e + 1
    else if m < 1 / two then e - 1
    else e
  else
    0

end DiffTape
