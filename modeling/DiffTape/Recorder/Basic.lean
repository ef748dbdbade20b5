/-
  THE RECORDER: WHO IS RECORDING WHAT, AND WHERE.

  The state that all threads, stores and number formats share:

  * the PROCESS MARK — the id of the session that is recording, anywhere;
  * one SLOT per thread and format — the tape that is being recorded there;
  * the STORES, each with the sealed tapes and a mark of its own;
  * the source of session serials, and the trail of events.

  This file has the state and its elementary changes, each of which is one critical section: it
  touches one slot, one store, or the process mark.  Sessions are composed of them.
-/
import DiffTape.Handle
import DiffTape.Store
import DiffTape.Width

namespace DiffTape

/-- Names a thread. -/
abbrev ThreadId := Nat

/-- Names a store.  Stores of different formats are apart even under one name. -/
abbrev StoreName := String

/-- The state of all recording, where `C` gives the numbers of each format. -/
structure Recorder (C : Width → Type) where
  /-- The id of the session that is recording, anywhere. -/
  process : Option TapeId := none
  /-- The serial of the next session.  In memory it is a 64-bit word, which no run of fewer than
      `2 ^ 64 - 1` calls exceeds (`World.Run.nextSerial_lt_size`). -/
  nextSerial : Nat := 1
  /-- The tape that is being recorded on a thread. -/
  slots : PerWidth fun w => Std.TreeMap ThreadId (Tape (C w)) := ⟨{}, {}⟩
  /-- The stores that were used; every other store is empty. -/
  stores : PerWidth fun w => Std.TreeMap StoreName (Store (C w)) := ⟨{}, {}⟩
  /-- What has happened, oldest first. -/
  events : Array Event := #[]

namespace Recorder

variable {C : Width → Type}

/-! ## Slots -/

/-- The tape in a slot. -/
def slot? (r : Recorder C) (w : Width) (thread : ThreadId) : Option (Tape (C w)) :=
  (r.slots.get w)[thread]?

/-- Puts a tape in a slot, in place of what is there. -/
def putSlot (r : Recorder C) {w : Width} (thread : ThreadId) (t : Tape (C w)) : Recorder C :=
  { r with slots := r.slots.modify w (·.insert thread t) }

/-- Changes the tape in a slot, if there is one. -/
def modifySlot (r : Recorder C) (w : Width) (thread : ThreadId) (f : Tape (C w) → Tape (C w)) :
    Recorder C :=
  { r with slots := r.slots.modify w (·.modify thread f) }

/-- Empties a slot. -/
def clearSlot (r : Recorder C) (w : Width) (thread : ThreadId) : Recorder C :=
  { r with slots := r.slots.modify w (·.erase thread) }

/-- Takes the tape out of a slot if it has this id. -/
def takeSlot (r : Recorder C) (w : Width) (thread : ThreadId) (id : TapeId) :
    Option (Tape (C w)) × Recorder C :=
  match r.slot? w thread with
  | some t => if t.id = id then (some t, r.clearSlot w thread) else (none, r)
  | none => (none, r)

/-- Empties the slots of a thread that has ended. -/
def endThread (r : Recorder C) (thread : ThreadId) : Recorder C :=
  (r.clearSlot .single thread).clearSlot .double thread

/-! ## Stores and the process mark -/

/-- The store of a name. -/
def store (r : Recorder C) (w : Width) (name : StoreName) : Store (C w) :=
  (r.stores.get w)[name]?.getD {}

/-- Changes the store of a name. -/
def modifyStore (r : Recorder C) (w : Width) (name : StoreName)
    (f : Store (C w) → Store (C w)) : Recorder C :=
  { r with
    stores := r.stores.modify w fun stores =>
      stores.insert name (f (stores[name]?.getD {})) }

/-- Marks the process as recording an id. -/
def markProcess (r : Recorder C) (id : TapeId) : Recorder C := { r with process := some id }

/-- Clears the process mark. -/
def unmarkProcess (r : Recorder C) : Recorder C := { r with process := none }

/-- Uses up a serial. -/
def advanceSerial (r : Recorder C) : Recorder C := { r with nextSerial := r.nextSerial + 1 }

/-- Appends to the trail of events. -/
def note (r : Recorder C) (events : List Event) : Recorder C :=
  { r with events := r.events ++ events }

/-! ## Access to the recording tape -/

/-- The tape that a thread is recording, if it is the one that is asked for. -/
def recordingTape (r : Recorder C) (w : Width) (thread : ThreadId) (id : TapeId)
    (session : Nat) : Except Violation (Tape (C w)) :=
  match r.slot? w thread with
  | none => .error (.notRecording id)
  | some t =>
    if t.id ≠ id then .error (.otherTapeRecording id t.id)
    else if t.session ≠ session then .error (.otherSessionRecording id t.id)
    else .ok t

/-- Checks the recording tape, and changes it if the check passes.  A refused call changes
    nothing. -/
def onTape {α : Type} (r : Recorder C) (w : Width) (thread : ThreadId) (id : TapeId)
    (session : Nat) (check : Tape (C w) → Except Violation α)
    (change : α → Tape (C w) → Tape (C w)) : Except Failure α × Recorder C :=
  match (r.recordingTape w thread id session).bind check with
  | .error v => (.error v, r)
  | .ok a => (.ok a, r.modifySlot w thread (change a))

end Recorder

/-! ## Actions -/

/-- An action of a thread on the recorder, over a monad `n` in which traced code does what else
    it does.  A failure keeps the state in which it arose. -/
abbrev RecorderT (C : Width → Type) (n : Type → Type) :=
  ReaderT ThreadId (ExceptT Failure (StateT (Recorder C) n))

/-- An action of a thread that does nothing but record. -/
abbrev RecorderM (C : Width → Type) := RecorderT C Id

section Actions

variable {C : Width → Type} {n : Type → Type} [Monad n]

/-- The action of a function of the calling thread and the state. -/
def RecorderT.ofFunction {α : Type}
    (f : ThreadId → Recorder C → Except Failure α × Recorder C) : RecorderT C n α :=
  fun thread => ExceptT.mk fun r => pure (f thread r)

/-- Changes the state in one step. -/
def RecorderT.update (f : Recorder C → Recorder C) : RecorderT C n Unit :=
  .ofFunction fun _ r => (.ok (), f r)

/-- Runs an evaluation: its events are noted; its answer and the buffers are handed on. -/
def Outcome.run {α β : Type} (o : Outcome α β) : RecorderT C n (Except Failure α × β) := do
  RecorderT.update (·.note o.events)
  return (o.answer, o.buffers)

/-! ## Direct access

  The slot of the calling thread is open to everyone, and so are the stores. -/

/-- The tape that the calling thread is recording. -/
def slotTape (w : Width) : RecorderT C n (Option (Tape (C w))) :=
  .ofFunction fun thread r => (.ok (r.slot? w thread), r)

/-- Takes whatever tape the calling thread is recording. -/
def takeSlotTape (w : Width) : RecorderT C n (Option (Tape (C w))) :=
  .ofFunction fun thread r => (.ok (r.slot? w thread), r.clearSlot w thread)

/-- Makes the calling thread record a tape, in place of the one it was recording. -/
def replaceSlotTape {w : Width} (t : Tape (C w)) : RecorderT C n Unit :=
  .ofFunction fun thread r => (.ok (), r.putSlot thread t)

/-- A store as it is now. -/
def readStore (w : Width) (name : StoreName) : RecorderT C n (Store (C w)) :=
  .ofFunction fun _ r => (.ok (r.store w name), r)

/-- Removes a sealed tape from a store.  Answers it if there was one. -/
def removeTape (w : Width) (name : StoreName) (id : TapeId) :
    RecorderT C n (Option (Tape (C w))) :=
  .ofFunction fun _ r =>
    (.ok (r.store w name).tapes[id]?, r.modifyStore w name fun s => (s.remove id).2)

end Actions

end DiffTape
