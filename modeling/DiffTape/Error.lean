/-
  WHAT CAN GO WRONG.

  * An `Error` is an answer: a session could not be opened, a tape is not there, or an argument
    has another shape than the tape.  The caller is expected to handle it.
  * A `Violation` is a broken contract of the recorder: mostly, a handle was used where its tape
    is not recording.  It ends the traced code that caused it.

  Domain errors of the arithmetic are neither; they travel through a replay as NaN and infinity.
-/

namespace DiffTape

/-- Names a recording session and the tape it produces. -/
abbrev TapeId := UInt32

/-- A cell of a tape.  Independents and results of entries draw their cells from one counter. -/
abbrev Location := UInt32

/-- The argument or dimension a shape error is about. -/
inductive ShapeOf where
  | independents
  | dependents
  | directionRows
  | outputDirectionRows
  | directionsPerIndependent
  | directionsPerDependent
  | direction
  | outputDirection
  deriving DecidableEq, Repr

/-- Errors of the recorder and the evaluators. -/
inductive Error where
  /-- The tape asked for is the one that is recording. -/
  | tapeAlreadyOpen (id : TapeId)
  /-- Another tape is recording. -/
  | recordingInProgress (active requested : TapeId)
  /-- There is no sealed tape of this id. -/
  | tapeNotFound (id : TapeId)
  /-- The tape is still being recorded. -/
  | tapeNotSealed (id : TapeId)
  /-- An argument has not the shape that is on the tape. -/
  | shapeMismatch (what : ShapeOf) (expected found : Nat)
  deriving DecidableEq, Repr

/-- Broken contracts of the recorder. -/
inductive Violation where
  /-- A handle was used on a thread on which nothing is recording. -/
  | notRecording (tape : TapeId)
  /-- A handle was used while another tape is recording. -/
  | otherTapeRecording (tape recording : TapeId)
  /-- A handle was used in a later session than its own. -/
  | otherSessionRecording (tape recording : TapeId)
  /-- The two operands of an operation are on different tapes. -/
  | mixedTapes (lhs rhs : TapeId)
  /-- The two operands are of different sessions that record under one id. -/
  | mixedSessions (tape : TapeId)
  /-- An operand lies beyond the end of the tape. -/
  | operandOffTape (loc : Location) (tape : TapeId)
  /-- A dependent lies beyond the end of the tape. -/
  | dependentOffTape (loc : Location) (tape : TapeId)
  /-- A handle of one tape was marked dependent on another. -/
  | foreignDependent (owner tape : TapeId)
  /-- A handle of an earlier session was marked dependent. -/
  | staleDependent (owner : TapeId)
  /-- A tape was asked for with more room than any memory has. -/
  | capacityOverflow
  /-- An entry of the tape addresses a cell that the tape has not. -/
  | brokenTape (tape : TapeId)
  deriving DecidableEq, Repr

/-- Whatever keeps a call from answering. -/
inductive Failure where
  | error (e : Error)
  | violation (v : Violation)
  deriving DecidableEq, Repr

instance : Coe Error Failure := ⟨.error⟩
instance : Coe Violation Failure := ⟨.violation⟩

/-! ## Texts -/

/-- What a shape error calls the argument. -/
def ShapeOf.name : ShapeOf → String
  | independents => "independents"
  | dependents => "dependents"
  | directionRows => "direction rows"
  | outputDirectionRows => "output direction rows"
  | directionsPerIndependent => "directions per independent"
  | directionsPerDependent => "directions per dependent"
  | direction => "direction"
  | outputDirection => "output direction"

/-- The text of an error. -/
def Error.message : Error → String
  | tapeAlreadyOpen id => s!"tape {id} is already open for recording"
  | recordingInProgress active requested =>
    s!"cannot open tape {requested}: tape {active} is still recording"
  | tapeNotFound id => s!"tape {id} does not exist"
  | tapeNotSealed id => s!"tape {id} has not been sealed"
  | shapeMismatch what expected found =>
    s!"shape mismatch for {what.name}: expected {expected}, found {found}"

/-- The text of a violation. -/
def Violation.message : Violation → String
  | notRecording tape =>
    s!"no tape is recording on this thread; a handle of tape {tape} was used outside its session"
  | otherTapeRecording tape recording =>
    s!"handle of tape {tape} used while tape {recording} is recording"
  | otherSessionRecording tape recording =>
    s!"handle of tape {tape} from an earlier session used while tape {recording} is recording"
  | mixedTapes lhs rhs => s!"cannot combine handles of tapes {lhs} and {rhs}"
  | mixedSessions tape => s!"cannot combine handles of tape {tape} from different sessions"
  | operandOffTape loc tape =>
    s!"operand location {loc} is not on tape {tape} (stale handle from an earlier session?)"
  | dependentOffTape loc tape => s!"dependent location {loc} is not on tape {tape}"
  | foreignDependent owner tape => s!"handle of tape {owner} marked dependent on tape {tape}"
  | staleDependent owner => s!"handle of tape {owner} from an earlier session marked dependent"
  | capacityOverflow => "capacity overflow"
  | brokenTape tape => s!"tape {tape} addresses a location beyond its end"

/-- The text of a failure. -/
def Failure.message : Failure → String
  | error e => e.message
  | violation v => v.message

/-! ## Checking a shape -/

/-- Succeeds if and only if an argument has the expected size. -/
def checkSize (what : ShapeOf) (expected found : Nat) : Except Error Unit :=
  if expected = found then .ok () else .error (.shapeMismatch what expected found)

theorem checkSize_eq_ok_iff {what : ShapeOf} {expected found : Nat} :
    checkSize what expected found = .ok () ↔ expected = found := by
  unfold checkSize
  split <;> simp_all

end DiffTape
