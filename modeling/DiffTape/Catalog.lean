/-
  THE CATALOG: WHAT EACH OPERATION COMPUTES.

  Each operation has a value formula (`evalValue`) and a formula for its local partial
  derivatives (`partials`).  Recording and replaying both go through these two functions, so a
  replay at the recording point repeats the very operations that were recorded.

  The formulas are meant to the last bit.  `-r * (1 / b)` is not `-r / b` in floating point, and
  a formula in terms of the result `r` is not the one in terms of the operand.
-/
import DiffTape.Opcode
import DiffTape.Scaling

namespace DiffTape

open Scalar Elementary

variable {F : Type} [Scalar F] [Elementary F]

/-- The value of an operation at the operand values `a` and `b`.  Unary operations ignore `b`. -/
def evalValue (op : Opcode) (a b : F) (aux : Aux) : F :=
  match op with
  | .const => a
  | .add => a + b
  | .sub => a - b
  | .mul => a * b
  | .div => a / b
  | .atan2 => atan2 a b
  | .pow => pow a b
  | .pos => a
  | .neg => -a
  | .incr => a + 1
  | .decr => a - 1
  | .powi => powi a aux.exponentD
  | .ldexp => scalePow2 a aux.exponentD
  | .frexp => scalePow2 a aux.negExponent
  | .exp => exp a
  | .ln => ln a
  | .log10 => log10 a
  | .sqrt => sqrt a
  | .sin => sin a
  | .cos => cos a
  | .tan => tan a
  | .asin => asin a
  | .acos => acos a
  | .atan => atan a
  | .sinh => sinh a
  | .cosh => cosh a
  | .tanh => tanh a
  | .asinh => asinh a
  | .acosh => acosh a
  | .atanh => atanh a
  | .abs => abs a
  | .signum => if isNaN a then a else (Branch.of a).sign

/-- The derivative `n · a ^ (n - 1)` of an integer power.  The power `n - 1` is an integer power
    again unless `n - 1` is no 32-bit integer; then it is computed as a real one. -/
def powiPartial (a : F) (n : Int) : F :=
  if n = 0 then 0
  else if n = Int32.minValue.toInt then ofInt n * pow a (ofInt n - 1)
  else ofInt n * powi a (n - 1)

/-- The partial derivatives of an operation after `a` and after `b`, where `r` is its value.
    Unary operations have a zero second partial.

    The partial of `abs` is the sign of the operand as it is now.  A replay overrides it on the
    kink, and wherever its policy keeps the recorded branch. -/
def partials (op : Opcode) (a b r : F) (aux : Aux) : F × F :=
  match op with
  | .const => (0, 0)
  | .add => (1, 1)
  | .sub => (1, -1)
  | .mul => (b, a)
  | .div =>
    let inv := 1 / b
    (inv, -r * inv)
  | .atan2 =>
    let d := a * a + b * b
    (b / d, -a / d)
  | .pow => (b * pow a (b - 1), ln a * r)
  | .pos | .incr | .decr => (1, 0)
  | .neg => (-1, 0)
  | .powi => (powiPartial a aux.exponentD, 0)
  | .ldexp => (scalePow2 1 aux.exponentD, 0)
  | .frexp => (scalePow2 1 aux.negExponent, 0)
  | .exp => (r, 0)
  | .ln => (1 / a, 0)
  | .log10 => (1 / (a * ln10), 0)
  | .sqrt => (1 / (two * r), 0)
  | .sin => (cos a, 0)
  | .cos => (-sin a, 0)
  | .tan => (1 + r * r, 0)
  | .asin => (1 / sqrt (1 - a * a), 0)
  | .acos => (-1 / sqrt (1 - a * a), 0)
  | .atan => (1 / (1 + a * a), 0)
  | .sinh => (cosh a, 0)
  | .cosh => (sinh a, 0)
  | .tanh => (1 - r * r, 0)
  | .asinh => (1 / sqrt (a * a + 1), 0)
  | .acosh => (1 / sqrt (a * a - 1), 0)
  | .atanh => (1 / (1 - a * a), 0)
  | .abs => ((Branch.of a).sign, 0)
  | .signum => (0, 0)

end DiffTape
