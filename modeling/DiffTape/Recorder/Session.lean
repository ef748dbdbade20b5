/-
  SESSIONS.

  A session records one tape.  Opening it puts an empty tape in the slot of the calling thread
  and sets two marks, that of the process and that of the store; ending it takes the tape out of
  the slot, seals it into the store, and clears both marks.  A session that is dropped instead
  clears them just so, and its tape is lost.

  AT MOST ONE SESSION RECORDS AT A TIME, over all threads, stores and formats.  Opening another
  one fails at once.

  `record` is a whole session around a piece of traced code: all or nothing.
-/
import DiffTape.Recorder.Trace

namespace DiffTape

/-- An open session of the thread that opened it. -/
structure Session (w : Width) where
  /-- The store the tape is for. -/
  store : StoreName
  /-- The id of the tape. -/
  id : TapeId
  serial : Nat
  deriving DecidableEq, Repr

variable {C : Width → Type} {n : Type → Type} [Monad n] {w : Width}

/-! ## Opening -/

/-- Opens a session if none is recording, the room can be had, and the slot is empty; the checks
    are made in this order.  A refusal changes nothing but the source of serials, and that only
    if no session was recording. -/
def Recorder.openSession (r : Recorder C) (w : Width) (thread : ThreadId) (store : StoreName)
    (id : TapeId) (capacity : Nat) : Except Failure (Session w) × Recorder C :=
  match r.process with
  | some active =>
    if (r.store w store).recording = some id then (.error (.error (.tapeAlreadyOpen id)), r)
    else (.error (.error (.recordingInProgress active id)), r)
  | none =>
    let serial := r.nextSerial
    let r := r.advanceSerial
    match Tape.withCapacity (F := C w) id serial capacity with
    | .error v => (.error (.violation v), r)
    | .ok fresh =>
      match r.slot? w thread with
      | some t => (.error (.error (.recordingInProgress t.id id)), r)
      | none =>
        let r := ((r.putSlot thread fresh).markProcess id).modifyStore w store (·.mark id)
        (.ok { store, id, serial }, r.note [.tracingStarted id])

/-- Opens a session, with room for about `capacity` entries. -/
def beginTraceWithCapacity (w : Width) (store : StoreName) (id : TapeId) (capacity : Nat) :
    RecorderT C n (Session w) :=
  .ofFunction fun thread r => r.openSession w thread store id capacity

/-- Opens a session. -/
def beginTrace (w : Width) (store : StoreName) (id : TapeId) : RecorderT C n (Session w) :=
  beginTraceWithCapacity w store id 0

namespace Session

/-! ## Recording -/

/-- Binds a new independent. -/
def independent (s : Session w) (v : C w) : RecorderT C n (Handle (C w)) := do
  let loc ← .ofFunction fun thread r =>
    r.onTape w thread s.id s.serial (fun t => .ok t.nextLocation) fun _ t => t.appendIndependent v
  return .place v loc s.id s.serial

/-- Binds one independent per value, in order. -/
def independents (s : Session w) (vs : Array (C w)) : RecorderT C n (Array (Handle (C w))) :=
  vs.mapM s.independent

/-- Refuses a dependent that is not a constant and not of the session whose tape this is. -/
def checkDependent {F : Type} (s : Session w) (x : Handle F) (t : Tape F) :
    Except Violation Unit :=
  match x.mark with
  | none => .ok ()
  | some m =>
    if m.tape ≠ s.id then .error (.foreignDependent m.tape s.id)
    else if m.session ≠ t.session then .error (.staleDependent m.tape)
    else t.checkDependent m.loc

/-- Appends a dependent.  A constant is first brought to a location of its own. -/
def appendDependent {F : Type} (x : Handle F) (t : Tape F) : Tape F :=
  match x.mark with
  | none => (t.appendConst x.value).appendDependent t.nextLocation
  | some m => t.appendDependent m.loc

/-- Marks a handle as the next dependent.  Answers its value. -/
def dependent (s : Session w) (x : Handle (C w)) : RecorderT C n (C w) := do
  .ofFunction fun thread r =>
    r.onTape w thread s.id s.serial (s.checkDependent x) fun _ => appendDependent x
  return x.value

/-- The counts of the tape so far. -/
def stats (s : Session w) : RecorderT C n TapeStats :=
  .ofFunction fun thread r =>
    match r.recordingTape w thread s.id s.serial with
    | .error v => (.error v, r)
    | .ok t => (.ok t.stats, r)

/-! ## Closing

  Taking the slot, sealing, and clearing the two marks are separate critical sections, in this
  order: a reader that finds the store unmarked finds the sealed tape in the map. -/

/-- Takes the tape of the session out of the slot of the calling thread. -/
def takeTape (s : Session w) : RecorderT C n (Option (Tape (C w))) :=
  .ofFunction fun thread r =>
    let (t, r) := r.takeSlot w thread s.id
    (.ok t, r)

/-- Puts the tape of the session into the store. -/
def sealTape (s : Session w) (t : Tape (C w)) : RecorderT C n Unit :=
  .update (·.modifyStore w s.store (·.insert s.id t))

/-- Clears the mark of the store, and then that of the process. -/
def release (s : Session w) : RecorderT C n Unit := do
  .update (·.modifyStore w s.store (·.unmark s.id))
  .update (·.unmarkProcess)

/-- Ends the session: seals its tape.  Without a tape in the slot the session just ends. -/
def endTrace (s : Session w) : RecorderT C n TapeStats := do
  match ← s.takeTape (C := C) with
  | none =>
    s.release
    throw (.error (.tapeNotFound s.id))
  | some t =>
    let stats := t.stats
    s.sealTape t
    s.release
    .update (·.note [.tapeSealed stats])
    return stats

/-- Ends the session without sealing.  Its tape is lost. -/
def drop (s : Session w) : RecorderT C n Unit := do
  let _ ← s.takeTape (C := C)
  s.release
  .update (·.note [.sessionDropped s.id])

end Session

/-! ## A whole session -/

/-- Records `body` as a tape: binds `x` as the independents, marks the handles that `body` answers
    as the dependents, and seals the tape.  Answers the values of the dependents.  If `body` or the
    marking fails, the session is dropped. -/
def record (store : StoreName) (id : TapeId) (x : Array (C w))
    (body : Array (Handle (C w)) → RecorderT C n (Array (Handle (C w)))) :
    RecorderT C n (Array (C w)) := do
  let s ← beginTraceWithCapacity w store id (x.size * 10)
  let values ←
    tryCatch
      (do
        let outputs ← body (← s.independents x)
        outputs.mapM s.dependent)
      (fun failure => do
        s.drop
        throw failure)
  let _ ← s.endTrace (C := C)
  return values

end DiffTape
