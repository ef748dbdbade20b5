/-
  THE ELEMENTARY OPERATIONS, AS DATA.

  A tape entry names its operation by an `Opcode`.  What an operation carries beside its
  operands is its `Aux` data: the integer exponent of a power or a scaling, or the `Branch` of
  its kink on which a nonsmooth operation was while the tape was recorded.
-/
import DiffTape.Scalar

namespace DiffTape

/-- The elementary operations. -/
inductive Opcode where
  /-- A literal brought to a location of its own. -/
  | const
  | add
  | sub
  | mul
  | div
  | atan2
  /-- `a ^ b`; either operand may be a literal. -/
  | pow
  /-- A copy. -/
  | pos
  | neg
  | incr
  | decr
  /-- Integer power; the exponent is in the aux data. -/
  | powi
  /-- `a · 2 ^ e`; `e` is in the aux data. -/
  | ldexp
  /-- The mantissa `a · 2 ^ -e`; `e` is the binary exponent found while recording. -/
  | frexp
  | exp
  | ln
  | log10
  | sqrt
  | sin
  | cos
  | tan
  | asin
  | acos
  | atan
  | sinh
  | cosh
  | tanh
  | asinh
  | acosh
  | atanh
  | abs
  /-- `1`, `-1` or `0`, with derivative zero. -/
  | signum
  deriving DecidableEq, Repr

namespace Opcode

/-- All operations, in the order of their declaration. -/
def all : List Opcode :=
  [const, add, sub, mul, div, atan2, pow, pos, neg, incr, decr, powi, ldexp, frexp, exp, ln,
    log10, sqrt, sin, cos, tan, asin, acos, atan, sinh, cosh, tanh, asinh, acosh, atanh, abs,
    signum]

/-- How many operands the operation reads. -/
def arity : Opcode → Nat
  | add | sub | mul | div | atan2 | pow => 2
  | _ => 1

/-- The operation has a kink, and records on which side of it the operand was. -/
def isNonsmooth : Opcode → Bool
  | abs | signum => true
  | _ => false

/-- The name under which listings and reports show the operation. -/
def name : Opcode → String
  | const => "Const"
  | add => "Add"
  | sub => "Sub"
  | mul => "Mul"
  | div => "Div"
  | atan2 => "Atan2"
  | pow => "Pow"
  | pos => "Pos"
  | neg => "Neg"
  | incr => "Incr"
  | decr => "Decr"
  | powi => "Powi"
  | ldexp => "Ldexp"
  | frexp => "Frexp"
  | exp => "Exp"
  | ln => "Ln"
  | log10 => "Log10"
  | sqrt => "Sqrt"
  | sin => "Sin"
  | cos => "Cos"
  | tan => "Tan"
  | asin => "Asin"
  | acos => "Acos"
  | atan => "Atan"
  | sinh => "Sinh"
  | cosh => "Cosh"
  | tanh => "Tanh"
  | asinh => "Asinh"
  | acosh => "Acosh"
  | atanh => "Atanh"
  | abs => "Abs"
  | signum => "Signum"

/-- The operation that is listed under a name. -/
def ofName? (s : String) : Option Opcode :=
  all.find? (·.name == s)

/-- No two operations share a name. -/
theorem ofName?_name (op : Opcode) : ofName? op.name = some op := by
  cases op <;> rfl

end Opcode

/-! ## Branches -/

/-- The side of a kink an operand is on. -/
inductive Branch where
  | positive
  | negative
  /-- Exactly on the kink, or on no side at all. -/
  | zero
  deriving DecidableEq, Repr

namespace Branch

/-- The side `x` is on.  A NaN is on neither side of zero and counts as `zero`. -/
def of {F : Type} [Scalar F] (x : F) : Branch :=
  if 0 < x then positive else if x < 0 then negative else zero

/-- `1`, `-1` or `0`. -/
def sign {F : Type} [Scalar F] : Branch → F
  | positive => 1
  | negative => -1
  | zero => 0

/-- The name under which reports show the branch. -/
def name : Branch → String
  | positive => "Positive"
  | negative => "Negative"
  | zero => "Zero"

/-- All branches. -/
def all : List Branch := [positive, negative, zero]

/-- The branch that is shown under a name. -/
def ofName? (s : String) : Option Branch :=
  all.find? (·.name == s)

/-- No two branches share a name. -/
theorem ofName?_name (b : Branch) : ofName? b.name = some b := by
  cases b <;> rfl

end Branch

/-! ## Aux data -/

/-- What a tape entry carries beside its operands. -/
inductive Aux where
  | none
  /-- The side of its kink a nonsmooth operation was on while recording. -/
  | branch (b : Branch)
  /-- The integer exponent of `powi`, `ldexp` or `frexp`. -/
  | exponent (e : Int32)
  deriving DecidableEq, Repr

namespace Aux

/-- The exponent that is carried, or `0` if none is. -/
def exponentD : Aux → Int
  | exponent e => e.toInt
  | _ => 0

/-- The branch that is carried, if one is. -/
def branch? : Aux → Option Branch
  | branch b => some b
  | _ => Option.none

/-- The negated exponent.  The least 32-bit integer has no 32-bit negative, and its negative
    is cut to the greatest one. -/
def negExponent (aux : Aux) : Int :=
  if aux.exponentD = Int32.minValue.toInt then Int32.maxValue.toInt else -aux.exponentD

end Aux

end DiffTape
