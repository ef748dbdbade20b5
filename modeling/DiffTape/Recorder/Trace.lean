/-
  OPERATIONS OF TRACED CODE.

  An operation on handles computes its value, appends one entry to the tape that the calling
  thread is recording, and answers a handle of the new location.  Operations on constants alone
  FOLD: they record nothing and answer a constant.

  A handle works only in its own session.  Ids are used again and again, so the tape id alone
  does not tell the session; the serial does.
-/
import DiffTape.Recorder.Basic

namespace DiffTape

namespace Handle

variable {C : Width → Type} {n : Type → Type} [Monad n] {w : Width}
variable [Scalar (C w)] [Elementary (C w)]

/-! ## One operand -/

/-- Records a unary operation with these aux data. -/
def recordUnary (op : Opcode) (aux : Aux) (x : Handle (C w)) : RecorderT C n (Handle (C w)) :=
  let v := evalValue op x.value 0 aux
  match x.mark with
  | none => return .constant v
  | some owner => do
    let loc ← .ofFunction fun thread r =>
      r.onTape w thread owner.tape owner.session
        (fun t => do
          t.checkOperand x.operand
          return t.nextLocation)
        (fun _ t => t.appendEntry op x.operand .unused aux v)
    return .place v loc owner.tape owner.session

/-- Applies an operation to a handle. -/
def apply (op : UnaryOp) (x : Handle (C w)) : RecorderT C n (Handle (C w)) :=
  recordUnary op.opcode (op.aux x.value) x

/-- Splits a handle into mantissa and binary exponent, `x = m · 2 ^ e`.  The exponent is fixed
    while recording; a replay at another input scales by the same power of two. -/
def frexp (x : Handle (C w)) : RecorderT C n (Handle (C w) × Int32) := do
  let e := Int32.ofInt (frexpExponent x.value)
  return (← recordUnary .frexp (.exponent e) x, e)

/-! ## Two operands -/

omit [Scalar (C w)] [Elementary (C w)] in
/-- The session that an operation on two handles records in: the one that owns them, and none if
    both are constants.  Handles of two sessions do not combine. -/
def owner? (x y : Handle (C w)) : Except Violation (Option Mark) :=
  match x.mark, y.mark with
  | none, none => .ok none
  | some a, none => .ok (some a)
  | none, some b => .ok (some b)
  | some a, some b =>
    if a.tape ≠ b.tape then .error (.mixedTapes a.tape b.tape)
    else if a.session ≠ b.session then .error (.mixedSessions a.tape)
    else .ok (some a)

/-- Records a binary operation.  A constant operand is recorded in place. -/
def recordBinary (op : Opcode) (x y : Handle (C w)) : RecorderT C n (Handle (C w)) :=
  let v := evalValue op x.value y.value .none
  match x.owner? y with
  | .error violation => throw (.violation violation)
  | .ok none => return .constant v
  | .ok (some owner) => do
    let loc ← .ofFunction fun thread r =>
      r.onTape w thread owner.tape owner.session
        (fun t => do
          t.checkOperand x.operand
          t.checkOperand y.operand
          return t.nextLocation)
        (fun _ t => t.appendEntry op x.operand y.operand .none v)
    return .place v loc owner.tape owner.session

/-- Applies an operation to two handles. -/
def combine (op : BinaryOp) (x y : Handle (C w)) : RecorderT C n (Handle (C w)) :=
  recordBinary op.opcode x y

/-- `x ^ c` with a literal exponent. -/
def powLiteral (x : Handle (C w)) (c : C w) : RecorderT C n (Handle (C w)) :=
  combine .pow x (.constant c)

/-- `c ^ x` with a literal base. -/
def literalPow (c : C w) (x : Handle (C w)) : RecorderT C n (Handle (C w)) :=
  combine .pow (.constant c) x

end Handle

end DiffTape
