/-
  WELL-FORMED TAPES.

  The check of the invariant that a replay relies on:

  1. every result is on the tape, above the result before it, and not an independent;
  2. every location an entry reads lies below the result it writes;
  3. the slots in use are those of the operation;
  4. the independents and the dependents are on the tape.

  With it a single pass in recording order finds every operand computed.
-/
import DiffTape.Tape

namespace DiffTape

variable {F : Type}

/-- The operand can be read by an operation that writes `result`. -/
def Operand.readableBelow (result : Location) : Operand F → Bool
  | .location loc => loc < result
  | .literal _ => true
  | .unused => false

/-- The slot is empty. -/
def Operand.isUnused : Operand F → Bool
  | .unused => true
  | _ => false

/-- The first slot is always read, the second one by binary operations only. -/
def Entry.slotsFit (e : Entry F) : Bool :=
  e.lhs.readableBelow e.result &&
    if 1 < e.op.arity then e.rhs.readableBelow e.result else e.rhs.isUnused

/-- The result is on a tape of `n` locations, above the previous result, and no independent. -/
def Entry.resultFits (e : Entry F) (n : Location) (independents : Array Location)
    (last : Option Location) : Bool :=
  e.result < n && last.all (· < e.result) && !independents.contains e.result

/-- The entries fit, one after the other, where `last` is the result before them. -/
def entriesFit (n : Location) (independents : Array Location) :
    Option Location → List (Entry F) → Bool
  | _, [] => true
  | last, e :: rest =>
    e.resultFits n independents last && e.slotsFit &&
      entriesFit n independents (some e.result) rest

/-- The tape can be replayed. -/
def Tape.isWellFormed (t : Tape F) : Bool :=
  let n := t.nextLocation
  entriesFit n t.independents none t.entries.toList &&
    t.independents.all (· < n) && t.dependents.all (· < n)

end DiffTape
