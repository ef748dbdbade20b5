/-
  FORWARD EVALUATION OF A SEALED TAPE.

  The evaluators differ in the directions they propagate: any number of rows (`forward`,
  `forwardInto`, `forwardWithScratch`), none (`forwardValues`), one (`forwardAlong`), or the
  identity (`jacobian`).  All of them run the same sweep.

  THE CALLER OWNS THE OUTPUT BUFFERS.  An evaluator gets them, checks every shape before it
  computes anything, and hands them back: overwritten if it succeeds, as they were if it fails.
  An `Outcome` is what such a call leaves behind.
-/
import DiffTape.Event
import DiffTape.Replay.Sweep

namespace DiffTape

/-- What a call leaves behind: its answer, the caller's buffers, and the events on the way. -/
structure Outcome (α β : Type) where
  answer : Except Failure α
  buffers : β
  events : List Event := []

/-- A call that was refused: the buffers are as they were. -/
def Outcome.refused {α β : Type} (e : Error) (buffers : β) : Outcome α β :=
  { answer := .error e, buffers }

/-- Several calls as one: all the answers, or the first failure. -/
def Outcome.all {α : Type} (outcomes : Array (Outcome α Unit)) : Outcome (Array α) Unit :=
  { answer := outcomes.mapM (·.answer)
    buffers := ()
    events := outcomes.toList.flatMap (·.events) }

/-- The output buffers of an evaluation in many directions. -/
structure Outputs (F : Type) where
  /-- One value per dependent. -/
  y : Array F
  /-- One row of derivatives per dependent. -/
  yd : Array (Array F)
  deriving Repr

/-- The output buffers of an evaluation in one direction. -/
structure DirectionOutputs (F : Type) where
  /-- One value per dependent. -/
  y : Array F
  /-- One derivative per dependent. -/
  yd : Array F
  deriving Repr

/-- The result of an evaluation with buffers of its own. -/
structure Evaluation (F : Type) where
  /-- One value per dependent. -/
  values : Array F
  /-- One row of derivatives per dependent. -/
  directions : Array (Array F)
  report : Report F
  deriving Repr

/-- Values and derivative matrix: `rows[i][j]` is the derivative of dependent `i` along
    independent `j`. -/
structure Jacobian (F : Type) where
  values : Array F
  rows : Array (Array F)
  deriving Repr

/-- Every row has `p` components. -/
def checkRows {F : Type} (what : ShapeOf) (p : Nat) (rows : Array (Array F)) :
    Except Error Unit :=
  rows.forM fun row => checkSize what p row.size

namespace Tape

variable {F : Type} [Scalar F] [Elementary F]

/-! ## Shapes -/

omit [Scalar F] [Elementary F] in
/-- `x` has one number per independent and `y` one per dependent. -/
def checkPoint (t : Tape F) (x y : Array F) : Except Error Unit := do
  checkSize .independents t.independents.size x.size
  checkSize .dependents t.dependents.size y.size

omit [Scalar F] [Elementary F] in
/-- The arguments fit an evaluation in `p` directions. -/
def checkDirections (t : Tape F) (p : Nat) (x : Array F) (xd : Array (Array F))
    (out : Outputs F) : Except Error Unit := do
  t.checkPoint x out.y
  checkSize .directionRows t.independents.size xd.size
  checkSize .outputDirectionRows t.dependents.size out.yd.size
  checkRows .directionsPerIndependent p xd
  checkRows .directionsPerDependent p out.yd

omit [Scalar F] [Elementary F] in
/-- The arguments fit an evaluation in one direction. -/
def checkDirection (t : Tape F) (x d : Array F) (out : DirectionOutputs F) :
    Except Error Unit := do
  t.checkPoint x out.y
  checkSize .direction t.independents.size d.size
  checkSize .outputDirection t.dependents.size out.yd.size

/-! ## Running a sweep -/

/-- A finished replay: the buffers of the sweep, the outputs read off it, and its report. -/
structure Replayed (F : Type) where
  scratch : Scratch F
  y : Array F
  yd : Array (Array F)
  report : Report F

/-- Sweeps the tape and reads off the dependents. -/
def replay? (t : Tape F) (policy : BranchPolicy) (x : Array F) (p : Nat)
    (seeds : Array (Array F)) (s : Scratch F) : Option (Replayed F) := do
  let ⟨s, switches⟩ ← t.sweep? policy x p seeds s
  return { scratch := s, y := ← t.dependentValues? s, yd := ← t.dependentRows? s,
           report := { switches } }

omit [Scalar F] [Elementary F] in
/-- The events of a replay. -/
def replayEvents (t : Tape F) (p : Nat) (report : Report F) : List Event :=
  .sweepStarted t.stats p ::
    if report.isConsistent then [] else [.branchesLeft t.id report.switches.size]

/-- Replays the tape if the shapes fit, and hands the finished replay to `finish`. -/
def evaluate {α β : Type} (t : Tape F) (policy : BranchPolicy) (x : Array F) (p : Nat)
    (seeds : Array (Array F)) (s : Scratch F) (fits : Except Error Unit) (buffers : β)
    (finish : Replayed F → α × β) : Outcome α β :=
  match fits with
  | .error e => .refused e buffers
  | .ok () =>
    match t.replay? policy x p seeds s with
    | none =>
      { answer := .error (.violation (.brokenTape t.id)), buffers
        events := [.sweepStarted t.stats p] }
    | some r =>
      let (answer, buffers) := finish r
      { answer := .ok answer, buffers, events := t.replayEvents p r.report }

/-! ## The evaluators -/

/-- Evaluates in `p` directions, into the caller's buffers and with the caller's scratch.  The
    scratch is reinitialised, so it carries nothing from one evaluation to the next. -/
def forwardWithScratch (t : Tape F) (policy : BranchPolicy) (p : Nat) (x : Array F)
    (xd : Array (Array F)) (out : Outputs F) (s : Scratch F) :
    Outcome (Report F) (Outputs F × Scratch F) :=
  t.evaluate policy x p xd s (t.checkDirections p x xd out) (out, s) fun r =>
    (r.report, ({ y := r.y, yd := r.yd }, r.scratch))

/-- Evaluates in `p` directions into the caller's buffers. -/
def forwardInto (t : Tape F) (policy : BranchPolicy) (p : Nat) (x : Array F)
    (xd : Array (Array F)) (out : Outputs F) : Outcome (Report F) (Outputs F) :=
  let o := t.forwardWithScratch policy p x xd out {}
  { answer := o.answer, buffers := o.buffers.1, events := o.events }

/-- Evaluates in the directions whose components are the rows of `xd`.  Their number is the
    length of the first row, or zero if the tape has no independents. -/
def forward (t : Tape F) (policy : BranchPolicy) (x : Array F) (xd : Array (Array F)) :
    Outcome (Evaluation F) Unit :=
  let p := (xd[0]?.map Array.size).getD 0
  let m := t.dependents.size
  let out : Outputs F := { y := Array.replicate m 0, yd := Array.replicate m (Array.replicate p 0) }
  let o := t.forwardInto policy p x xd out
  { answer := o.answer.map fun report =>
      { values := o.buffers.y, directions := o.buffers.yd, report }
    buffers := ()
    events := o.events }

/-- Evaluates the values only. -/
def forwardValues (t : Tape F) (x y : Array F) : Outcome (Report F) (Array F) :=
  t.evaluate default x 0 (Array.replicate t.independents.size #[]) {} (t.checkPoint x y) y fun r =>
    (r.report, r.y)

/-- Evaluates in the one direction `d`. -/
def forwardAlong (t : Tape F) (policy : BranchPolicy) (x d : Array F)
    (out : DirectionOutputs F) : Outcome (Report F) (DirectionOutputs F) :=
  t.evaluate policy x 1 (d.map fun c => #[c]) {} (t.checkDirection x d out) out fun r =>
    (r.report, { y := r.y, yd := r.yd.flatten })

omit [Elementary F] in
/-- The rows of the identity matrix of size `n`. -/
def identityRows (n : Nat) : Array (Array F) :=
  Array.ofFn fun i : Fin n => Array.ofFn fun j : Fin n => if i = j then 1 else 0

/-- Evaluates the values and the whole derivative matrix, in one sweep with the identity. -/
def jacobian (t : Tape F) (policy : BranchPolicy) (x : Array F) : Outcome (Jacobian F) Unit :=
  let n := t.independents.size
  t.evaluate policy x n (identityRows n) {} (checkSize .independents n x.size) () fun r =>
    ({ values := r.y, rows := r.yd }, ())

/-! ## Many points

  Evaluations share nothing but the tape, so those at several points can run side by side. -/

/-- `forward` at every point. -/
def forwardAll (t : Tape F) (policy : BranchPolicy)
    (points : Array (Array F × Array (Array F))) : Outcome (Array (Evaluation F)) Unit :=
  .all (points.map fun (x, xd) => t.forward policy x xd)

/-- `jacobian` at every point. -/
def jacobianAll (t : Tape F) (policy : BranchPolicy) (points : Array (Array F)) :
    Outcome (Array (Jacobian F)) Unit :=
  .all (points.map (t.jacobian policy))

end Tape

end DiffTape
