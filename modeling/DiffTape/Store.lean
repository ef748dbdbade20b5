/-
  THE STORE OF SEALED TAPES.

  A store maps ids to sealed tapes, and marks the id that it is recording at the moment.  A tape
  is looked up in two readings, first of the mark and then of the map, so that an id under
  recording is reported as unsealed even if an older tape of that id is in the map.

  The evaluators by id check the counts the caller gives against the tape, and hand over to the
  evaluators of the tape.
-/
import DiffTape.Replay.Forward
import Std.Data.TreeMap

namespace DiffTape

/-- Sealed tapes by id, and the id under recording. -/
structure Store (F : Type) where
  tapes : Std.TreeMap TapeId (Tape F) := {}
  recording : Option TapeId := none

namespace Store

variable {F : Type}

/-! ## Looking up -/

/-- The store has a sealed tape of this id. -/
def contains (s : Store F) (id : TapeId) : Bool := s.tapes.contains id

/-- The ids of all sealed tapes, ascending. -/
def ids (s : Store F) : List TapeId := s.tapes.keys

/-- The second reading of a lookup: the mark was read before, the map is read now. -/
def tapeAfter (mark : Option TapeId) (s : Store F) (id : TapeId) : Except Error (Tape F) :=
  if mark = some id then .error (.tapeNotSealed id)
  else
    match s.tapes[id]? with
    | some t => .ok t
    | none => .error (.tapeNotFound id)

/-- The sealed tape of an id. -/
def tape (s : Store F) (id : TapeId) : Except Error (Tape F) := tapeAfter s.recording s id

/-- The counts of the sealed tape of an id. -/
def stats (s : Store F) (id : TapeId) : Except Error TapeStats := (s.tape id).map Tape.stats

/-! ## Changing -/

/-- Adds a sealed tape, in place of the one that had its id. -/
def insert (s : Store F) (id : TapeId) (t : Tape F) : Store F :=
  { s with tapes := s.tapes.insert id t }

/-- Removes the sealed tape of an id.  Answers it if there was one. -/
def remove (s : Store F) (id : TapeId) : Option (Tape F) × Store F :=
  (s.tapes[id]?, { s with tapes := s.tapes.erase id })

/-- Marks an id as under recording. -/
def mark (s : Store F) (id : TapeId) : Store F := { s with recording := some id }

/-- Clears the mark if it is on this id. -/
def unmark (s : Store F) (id : TapeId) : Store F :=
  if s.recording = some id then { s with recording := none } else s

/-! ## Evaluating by id -/

/-- The tape of an id, if it has `n` independents and `m` dependents. -/
def tapeOfSize (s : Store F) (id : TapeId) (m n : Nat) : Except Error (Tape F) := do
  let t ← s.tape id
  checkSize .independents t.independents.size n
  checkSize .dependents t.dependents.size m
  return t

variable [Scalar F] [Elementary F]

/-- `Tape.forwardInto` of a tape with `n` independents and `m` dependents. -/
def forward (s : Store F) (policy : BranchPolicy) (id : TapeId) (m n p : Nat) (x : Array F)
    (xd : Array (Array F)) (out : Outputs F) : Outcome (Report F) (Outputs F) :=
  match s.tapeOfSize id m n with
  | .error e => .refused e out
  | .ok t => t.forwardInto policy p x xd out

/-- `Tape.forwardValues` of a tape with `n` independents and `m` dependents. -/
def forwardValues (s : Store F) (id : TapeId) (m n : Nat) (x y : Array F) :
    Outcome (Report F) (Array F) :=
  match s.tapeOfSize id m n with
  | .error e => .refused e y
  | .ok t => t.forwardValues x y

/-- `Tape.forwardAlong` of a tape with `n` independents and `m` dependents. -/
def forwardAlong (s : Store F) (id : TapeId) (m n : Nat) (x d : Array F)
    (out : DirectionOutputs F) : Outcome (Report F) (DirectionOutputs F) :=
  match s.tapeOfSize id m n with
  | .error e => .refused e out
  | .ok t => t.forwardAlong default x d out

/-- `Tape.jacobian` of a tape. -/
def jacobian (s : Store F) (id : TapeId) (x : Array F) : Outcome (Jacobian F) Unit :=
  match s.tape id with
  | .error e => .refused e ()
  | .ok t => t.jacobian default x

end Store

end DiffTape
