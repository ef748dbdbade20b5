/-
  WHAT THE LIBRARY REPORTS WHILE IT WORKS.

  Recording and replaying leave a trail of events, in the order in which they happen.  An event
  is data; its level and text are functions of it.
-/
import DiffTape.Tape

namespace DiffTape

/-- How loud an event is. -/
inductive Level where
  | trace
  | debug
  | warn
  deriving DecidableEq, Repr

/-- The name of a level. -/
def Level.name : Level → String
  | trace => "TRACE"
  | debug => "DEBUG"
  | warn => "WARN"

/-- What can happen. -/
inductive Event where
  /-- A session was opened. -/
  | tracingStarted (id : TapeId)
  /-- A session ended and its tape was sealed. -/
  | tapeSealed (stats : TapeStats)
  /-- A session ended without a tape. -/
  | sessionDropped (id : TapeId)
  /-- A replay of a tape in `p` directions began. -/
  | sweepStarted (stats : TapeStats) (p : Nat)
  /-- Some nonsmooth entries of a replay took another branch than the recorded one. -/
  | branchesLeft (id : TapeId) (count : Nat)
  deriving DecidableEq, Repr

namespace Event

/-- How loud the event is. -/
def level : Event → Level
  | tracingStarted _ | tapeSealed _ | branchesLeft _ _ => .debug
  | sessionDropped _ => .warn
  | sweepStarted _ _ => .trace

/-- The text of the event. -/
def message : Event → String
  | tracingStarted id => s!"tape {id}: tracing started"
  | tapeSealed s =>
    s!"tape {s.id}: sealed with {s.entries} entries, {s.independents} independents, "
      ++ s!"{s.dependents} dependents"
  | sessionDropped id =>
    s!"tape {id}: session dropped before end_trace, recording discarded"
  | sweepStarted s p =>
    s!"forward sweep on tape {s.id}: n={s.independents} m={s.dependents} p={p} "
      ++ s!"entries={s.entries}"
  | branchesLeft id count => s!"tape {id}: {count} nonsmooth entries left their recorded branch"

/-- The event as one line. -/
def line (e : Event) : String := s!"{e.level.name} {e.message}"

end Event

end DiffTape
