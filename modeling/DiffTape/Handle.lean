/-
  HANDLES.

  Traced code computes with handles instead of numbers.  A handle carries the value that the
  computation has while recording, so the code can branch on it.  Unless it is a constant it also
  carries a `Mark`: the location of the value, and the tape and session that own it.

  A constant has no location.  As an operand it is recorded in place, as a literal.
-/
import DiffTape.Tape

namespace DiffTape

/-- Where the value of a handle is recorded. -/
structure Mark where
  loc : Location
  tape : TapeId
  /-- The serial of the session that created the handle. -/
  session : Nat
  deriving DecidableEq, Repr

/-- The number type of traced code. -/
structure Handle (F : Type) where
  /-- The value while recording. -/
  value : F
  /-- Where it is recorded; a constant is nowhere. -/
  mark : Option Mark
  deriving Repr

namespace Handle

variable {F : Type}

/-- A handle that is on no tape. -/
def constant (v : F) : Handle F := ⟨v, none⟩

/-- The greatest location is reserved: a handle placed there is a constant. -/
def reservedLocation : Location := 0xFFFFFFFF

/-- The handle of a recorded value. -/
def place (v : F) (loc : Location) (tape : TapeId) (session : Nat) : Handle F :=
  if loc = reservedLocation then constant v else ⟨v, some ⟨loc, tape, session⟩⟩

def isConstant (h : Handle F) : Bool := h.mark.isNone

/-- The location of the value; a constant has none. -/
def location? (h : Handle F) : Option Location := h.mark.map (·.loc)

/-- The tape of the value; a constant has none. -/
def tape? (h : Handle F) : Option TapeId := h.mark.map (·.tape)

/-- The handle as an operand of an entry. -/
def operand (h : Handle F) : Operand F :=
  match h.mark with
  | some m => .location m.loc
  | none => .literal h.value

/-! ## Comparison

  Handles compare by their values; nothing is recorded. -/

variable [Scalar F]

/-- The order of two handles; `none` if a value is NaN. -/
def compare? (a b : Handle F) : Option Ordering := Scalar.compare? a.value b.value

/-- Two handles are equal if their values are. -/
instance : BEq (Handle F) := ⟨fun a b => a.value == b.value⟩

end Handle

/-! ## The operations of traced code -/

/-- What traced code can apply to one handle.  The mantissa of a handle is apart, because it
    answers an exponent as well. -/
inductive UnaryOp where
  | neg
  | pos
  | incr
  | decr
  | exp
  | ln
  | log10
  | sqrt
  | sin
  | cos
  | tan
  | asin
  | acos
  | atan
  | sinh
  | cosh
  | tanh
  | asinh
  | acosh
  | atanh
  | abs
  | signum
  /-- Integer power. -/
  | powi (n : Int32)
  /-- Scaling by `2 ^ e`. -/
  | ldexp (e : Int32)
  deriving DecidableEq, Repr

namespace UnaryOp

/-- The operation that is recorded. -/
def opcode : UnaryOp → Opcode
  | neg => .neg
  | pos => .pos
  | incr => .incr
  | decr => .decr
  | exp => .exp
  | ln => .ln
  | log10 => .log10
  | sqrt => .sqrt
  | sin => .sin
  | cos => .cos
  | tan => .tan
  | asin => .asin
  | acos => .acos
  | atan => .atan
  | sinh => .sinh
  | cosh => .cosh
  | tanh => .tanh
  | asinh => .asinh
  | acosh => .acosh
  | atanh => .atanh
  | abs => .abs
  | signum => .signum
  | powi _ => .powi
  | ldexp _ => .ldexp

/-- The aux data that are recorded at the value `x`. -/
def aux {F : Type} [Scalar F] (x : F) : UnaryOp → Aux
  | abs | signum => .branch (.of x)
  | powi n => .exponent n
  | ldexp e => .exponent e
  | _ => .none

end UnaryOp

/-- What traced code can apply to two handles. -/
inductive BinaryOp where
  | add
  | sub
  | mul
  | div
  | atan2
  | pow
  deriving DecidableEq, Repr

/-- The operation that is recorded. -/
def BinaryOp.opcode : BinaryOp → Opcode
  | add => .add
  | sub => .sub
  | mul => .mul
  | div => .div
  | atan2 => .atan2
  | pow => .pow

end DiffTape
