/-
  THE NUMBERS A TAPE IS RECORDED OVER.

  Everything in this library is generic in the number type `F`.  What it needs of `F` is
  bundled in two classes:

  * `Scalar F`     — arithmetic, comparison and classification;
  * `Elementary F` — the elementary functions (`exp`, `sin`, `pow`, …).

  NEITHER CLASS HAS A LAW.  Replaying a tape repeats the recorded operations in the recorded
  order, so most of what holds of a tape holds bit for bit for whatever the operations do,
  rounding and NaN included.  Where a law is needed (derivatives, linearity) `F` is taken to be
  a field or the reals, and the class is given the operations of that field.

  The two classes are apart because the arithmetic of a binary format is exactly specified and
  its elementary functions are not: statements about rounding fix a `Scalar` and leave the
  `Elementary` functions arbitrary.
-/

namespace DiffTape

/-- Arithmetic, comparison and classification of the numbers on a tape. -/
class Scalar (F : Type) extends Zero F, One F, Add F, Sub F, Mul F, Div F, Neg F, BEq F, LT F where
  /-- The strict order can be tested.  No value is below or above a NaN. -/
  decLt : DecidableLT F
  /-- The magnitude; of a signed format, the value with its sign bit cleared. -/
  abs : F → F
  /-- Neither infinite nor NaN. -/
  isFinite : F → Bool
  isNaN : F → Bool
  /-- The number nearest to an integer. -/
  ofInt : Int → F
  /-- The greatest integer that is not above a finite number. -/
  floorInt? : F → Option Int

attribute [reducible, instance] Scalar.decLt

/-- The elementary functions, and the one constant their derivatives mention. -/
class Elementary (F : Type) where
  exp : F → F
  /-- Natural logarithm. -/
  ln : F → F
  log10 : F → F
  log2 : F → F
  sqrt : F → F
  sin : F → F
  cos : F → F
  tan : F → F
  asin : F → F
  acos : F → F
  atan : F → F
  /-- `atan2 a b` is the angle of the point with abscissa `b` and ordinate `a`. -/
  atan2 : F → F → F
  sinh : F → F
  cosh : F → F
  tanh : F → F
  asinh : F → F
  acosh : F → F
  atanh : F → F
  /-- `pow a b` is `a` to the power `b`. -/
  pow : F → F → F
  /-- The natural logarithm of ten. -/
  ln10 : F

namespace Scalar

variable {F : Type} [Scalar F]

/-- Two, as a sum of ones. -/
def two : F := 1 + 1

/-! ## Integer powers

  `powi` squares and multiplies from the lowest bit of the exponent.  The order of the
  multiplications is part of the definition: in floating point another order gives other
  roundings. -/

/-- `m · a ^ p`, where `m` holds the factors of the bits already read. -/
def powLoop (m a : F) (p : Nat) : F :=
  if p / 2 = 0 then
    if p % 2 = 1 then m * a else m
  else
    powLoop (if p % 2 = 1 then m * a else m) (a * a) (p / 2)
termination_by p
decreasing_by omega

/-- `a ^ n`.  A negative power is the reciprocal of the positive one. -/
def powi (a : F) (n : Int) : F :=
  if n < 0 then 1 / powLoop 1 a n.natAbs else powLoop 1 a n.natAbs

/-- How two numbers compare; `none` if they do not (one of them is NaN). -/
def compare? (a b : F) : Option Ordering :=
  if a < b then some .lt else if a == b then some .eq else if b < a then some .gt else none

end Scalar

end DiffTape
