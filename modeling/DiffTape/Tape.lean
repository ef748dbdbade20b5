/-
  THE TAPE.

  A tape lists the operations of one run of traced code in the order in which they were executed,
  and keeps the value that every location had.  Independents and results of entries draw their
  locations from ONE counter, the number of values so far.  So a location is never written twice,
  every operand lies below the result it feeds, and a replay needs a single pass.

  Only the recorder appends to a tape.  A sealed tape is read by the evaluators of
  `DiffTape.Replay`.
-/
import DiffTape.Catalog
import DiffTape.Error

namespace DiffTape

/-- One operand of an entry. -/
inductive Operand (F : Type) where
  /-- The value at an earlier location. -/
  | location (loc : Location)
  /-- A number recorded in place.  It has no location and no derivative. -/
  | literal (c : F)
  /-- A slot the operation does not read. -/
  | unused
  deriving Repr

/-- The location an operand refers to, if it does. -/
def Operand.location? {F : Type} : Operand F → Option Location
  | .location loc => some loc
  | _ => none

/-- One recorded operation. -/
structure Entry (F : Type) where
  op : Opcode
  /-- The location the operation writes. -/
  result : Location
  lhs : Operand F
  rhs : Operand F
  aux : Aux
  deriving Repr

/-- The counts of a tape. -/
structure TapeStats where
  id : TapeId
  independents : Nat
  dependents : Nat
  locations : Nat
  entries : Nat
  /-- Entries that carry a recorded branch. -/
  nonsmooth : Nat
  deriving DecidableEq, Repr

/-- A recorded sequence of operations. -/
structure Tape (F : Type) where
  id : TapeId
  /-- The serial of the recording session, which its handles carry too.  No session has
      serial `0`. -/
  session : Nat := 0
  entries : Array (Entry F) := #[]
  /-- The recorded value of every location. -/
  values : Array F := #[]
  independents : Array Location := #[]
  dependents : Array Location := #[]
  deriving Repr

namespace Tape

variable {F : Type}

/-! ## Room

  A tape grows on demand, so the room it is asked for in advance changes no answer.  But no tape
  is made with room that could not be addressed. -/

/-- The most entries a tape can be asked to have room for.  Its entries, of 48 bytes each, have
    to fit into `2 ^ 63 - 1` bytes. -/
def maxCapacity : Nat := 0x7FFFFFFFFFFFFFFF / 48

/-- An empty tape with room for about `capacity` entries. -/
def withCapacity (id : TapeId) (session capacity : Nat) : Except Violation (Tape F) :=
  if capacity ≤ maxCapacity then .ok { id, session } else .error .capacityOverflow

/-! ## Appending

  What is appended gets the next location.  Checks come first and apart, so that an append that
  is refused leaves the tape alone. -/

/-- The location of the next value.  Locations are 32-bit words, and the count is cut to one. -/
def nextLocation (t : Tape F) : Location := t.values.size.toUInt32

/-- Appends an independent. -/
def appendIndependent (t : Tape F) (v : F) : Tape F :=
  { t with
    independents := t.independents.push t.nextLocation
    values := t.values.push v }

/-- Appends an operation, with the value that the caller has computed for it. -/
def appendEntry (t : Tape F) (op : Opcode) (lhs rhs : Operand F) (aux : Aux) (v : F) : Tape F :=
  { t with
    entries := t.entries.push { op, result := t.nextLocation, lhs, rhs, aux }
    values := t.values.push v }

/-- Appends a literal as a value of its own. -/
def appendConst (t : Tape F) (v : F) : Tape F :=
  t.appendEntry .const (.literal v) .unused .none v

/-- Appends a location to the dependents. -/
def appendDependent (t : Tape F) (loc : Location) : Tape F :=
  { t with dependents := t.dependents.push loc }

/-- Refuses an operand that is not on the tape. -/
def checkOperand (t : Tape F) (o : Operand F) : Except Violation Unit :=
  match o with
  | .location loc =>
    if loc < t.nextLocation then .ok () else .error (.operandOffTape loc t.id)
  | _ => .ok ()

/-- Refuses a dependent that is not on the tape. -/
def checkDependent (t : Tape F) (loc : Location) : Except Violation Unit :=
  if loc.toNat < t.values.size then .ok () else .error (.dependentOffTape loc t.id)

/-! ## Reading -/

/-- The recorded value of a location. -/
def recordedValue? (t : Tape F) (loc : Location) : Option F := t.values[loc.toNat]?

/-- The values the independents had while recording.  `none` if one of them is off the tape. -/
def recordedInputs? (t : Tape F) : Option (Array F) := t.independents.mapM t.recordedValue?

/-- The values the dependents had while recording.  `none` if one of them is off the tape. -/
def recordedOutputs? (t : Tape F) : Option (Array F) := t.dependents.mapM t.recordedValue?

/-- The counts of the tape. -/
def stats (t : Tape F) : TapeStats where
  id := t.id
  independents := t.independents.size
  dependents := t.dependents.size
  locations := t.values.size
  entries := t.entries.size
  nonsmooth := t.entries.countP (·.op.isNonsmooth)

end Tape

end DiffTape
