/-
  RUNS OF TRACED CODE.

  A host program calls the recorder, keeps the sessions and handles that it is answered, and
  decides by whatever it has seen what to call next.  Which calls it makes is not restricted: a
  run is ANY sequence of calls, on any threads, for any stores and both formats, as long as each
  call is made with sessions and handles that the host has.  A call that fails is a call like any
  other, after which the run goes on.

    `World`   — the recorder, and what the host holds of it
    `Call`    — one call
    `perform` — the call is made: the recorder changes, and the host gets its answer

  What the host sees of ONE format is its `View`.  `View.Step` lists what can happen to it, and
  `perform_step` shows that no call does anything else.  An invariant is then proved over the
  steps of a view, without threads, monads or formats.
-/
import DiffTape.Proofs.Calls
import Mathlib.Logic.Function.Basic

namespace DiffTape

/-! ## The world

  Sessions and handles have no meaning apart from the recorder, and a host can use only those that
  it was given.  So these are part of the world, and a call is legal if the host has what it is made
  with.  Copies are not tracked: a handle that was answered can be used any number of times, also
  when its session is over. -/

/-- The recorder, and what the host holds of each format. -/
structure World (C : Width → Type) where
  recorder : Recorder C := {}
  /-- The sessions that are open, with the threads that opened them. -/
  sessions : PerWidth fun w => List (ThreadId × Session w) := ⟨[], []⟩
  /-- The handles that were answered. -/
  handles : PerWidth fun w => List (Handle (C w)) := ⟨[], []⟩
  /-- The values that marking a dependent answered, oldest first, each with the serial of the
      session. -/
  answers : PerWidth fun w => List (Nat × C w) := ⟨[], []⟩

/-- A call of the host. -/
inductive Call (C : Width → Type) (w : Width) where
  | begin (store : StoreName) (id : TapeId) (capacity : Nat)
  | independent (s : Session w) (v : C w)
  | apply (op : UnaryOp) (x : Handle (C w))
  | frexp (x : Handle (C w))
  | combine (op : BinaryOp) (x y : Handle (C w))
  | dependent (s : Session w) (x : Handle (C w))
  | endTrace (s : Session w)
  | drop (s : Session w)
  | remove (store : StoreName) (id : TapeId)
  | takeSlot
  | replaceSlot (t : Tape (C w))

/-- The call goes to the slot of the thread directly. -/
def Call.IsDirect {C : Width → Type} {w : Width} : Call C w → Prop
  | .takeSlot | .replaceSlot _ => True
  | _ => False

namespace World

variable {C : Width → Type} {w : Width} {α : Type}

/-- The host can use the handle: it is a constant, or it was answered. -/
def Has (W : World C) (x : Handle (C w)) : Prop := x.mark = none ∨ x ∈ W.handles.get w

/-- The host can make the call on the thread.  A session is used on the thread that opened it. -/
def Legal (W : World C) (i : ThreadId) : Call C w → Prop
  | .independent s _ | .endTrace s | .drop s => (i, s) ∈ W.sessions.get w
  | .apply _ x | .frexp x => W.Has x
  | .combine _ x y => W.Has x ∧ W.Has y
  | .dependent s x => (i, s) ∈ W.sessions.get w ∧ W.Has x
  | .begin .. | .remove .. | .takeSlot | .replaceSlot _ => True

/-- An action was run, and `keep` is what the host keeps of its answer. -/
def after (W : World C) (i : ThreadId) (m : RecorderT C Id α) (keep : α → World C → World C) :
    World C :=
  match m.exec i W.recorder with
  | (.ok a, r) => keep a { W with recorder := r }
  | (.error _, r) => { W with recorder := r }

/-- The host gets a handle. -/
def gain (x : Handle (C w)) (W : World C) : World C :=
  { W with handles := W.handles.modify w (x :: ·) }

/-- The host gets the value of a dependent. -/
def hear (serial : Nat) (v : C w) (W : World C) : World C :=
  { W with answers := W.answers.modify w (· ++ [(serial, v)]) }

/-- The host gets a session. -/
def hold (i : ThreadId) (s : Session w) (W : World C) : World C :=
  { W with sessions := W.sessions.modify w ((i, s) :: ·) }

/-- The host has a session no longer. -/
def lose (i : ThreadId) (s : Session w) (W : World C) : World C :=
  { W with sessions := W.sessions.modify w (·.erase (i, s)) }

/-- The host keeps nothing. -/
def ignore (_ : α) (W : World C) : World C := W

variable [∀ w, Scalar (C w)] [∀ w, Elementary (C w)]

/-- The call is made. -/
def perform (W : World C) (i : ThreadId) : Call C w → World C
  | .begin store id capacity => W.after i (beginTraceWithCapacity w store id capacity) (hold i)
  | .independent s v => W.after i (s.independent v) gain
  | .apply op x => W.after i (x.apply op) gain
  | .frexp x => W.after i x.frexp fun answer => gain answer.1
  | .combine op x y => W.after i (x.combine op y) gain
  | .dependent s x => W.after i (s.dependent x) (hear s.serial)
  | .endTrace s => (W.after i s.endTrace ignore).lose i s
  | .drop s => (W.after i s.drop ignore).lose i s
  | .remove store id => W.after i (removeTape w store id) ignore
  | .takeSlot => W.after i (takeSlotTape w) ignore
  | .replaceSlot t => W.after i (replaceSlotTape t) ignore

/-- The worlds of all runs that leave the slots alone. -/
inductive Undisturbed : World C → Prop
  | start : Undisturbed {}
  | step {W : World C} (h : Undisturbed W) (i : ThreadId) {w : Width} (call : Call C w)
      (legal : W.Legal i call) (indirect : ¬ call.IsDirect) : Undisturbed (W.perform i call)

end World

/-! ## One format

  Calls are for one format, and a run mixes both.  Seen from a format there are no threads that call
  and no marks, but slots, sealed tapes, handles and answers; the calls of the other format are
  idle. -/

/-- What there is of one format. -/
structure View (F : Type) where
  /-- The serial of the next session, of whatever format. -/
  nextSerial : Nat
  slot : ThreadId → Option (Tape F)
  sealed : StoreName → TapeId → Option (Tape F)
  handles : List (Handle F)
  answers : List (Nat × F)

namespace View

variable {F : Type}

/-- A tape is put in a slot. -/
def setSlot (V : View F) (i : ThreadId) (t : Option (Tape F)) : View F :=
  { V with slot := Function.update V.slot i t }

/-- A session is opened. -/
def start (V : View F) (i : ThreadId) (id : TapeId) : View F :=
  { V with
    nextSerial := V.nextSerial + 1
    slot := Function.update V.slot i (some { id, session := V.nextSerial }) }

/-- A tape is put in a store. -/
def setSealed (V : View F) (store : StoreName) (id : TapeId) (t : Option (Tape F)) : View F :=
  { V with sealed := Function.update V.sealed store (Function.update (V.sealed store) id t) }

/-- A handle is answered. -/
def gain (V : View F) (x : Handle F) : View F := { V with handles := x :: V.handles }

/-- The value of a dependent is answered. -/
def answer (V : View F) (serial : Nat) (v : F) : View F :=
  { V with answers := V.answers ++ [(serial, v)] }

/-- The handle is a constant or was answered. -/
def Has (V : View F) (x : Handle F) : Prop := x.mark = none ∨ x ∈ V.handles

variable [Scalar F] [Elementary F]

/-- All that can happen to a format. -/
inductive Step (V : View F) : View F → Prop
  /-- A call is refused, or is about another format. -/
  | idle {n : Nat} (hn : V.nextSerial ≤ n) : V.Step { V with nextSerial := n }
  | opened {i : ThreadId} (id : TapeId) (hslot : V.slot i = none) :
      V.Step (V.start i id)
  | bound {i : ThreadId} {t : Tape F} (hslot : V.slot i = some t) (v : F) :
      V.Step ((V.setSlot i (some (t.appendIndependent v))).gain
        (.place v t.nextLocation t.id t.session))
  /-- An operation on constants alone. -/
  | folded (v : F) : V.Step (V.gain (.constant v))
  | applied {i : ThreadId} {t : Tape F} (hslot : V.slot i = some t) {op : Opcode} {aux : Aux}
      {x : Handle F} (harity : op.arity = 1) (hop : op ≠ .const) (haux : aux.Fits op)
      (hbranch : ∀ b, aux.branch? = some b → b = .of x.value) (hx : V.Has x) (hon : x.On t)
      (hmark : x.mark ≠ none) :
      V.Step ((V.setSlot i (some
        (t.appendEntry op x.operand .unused aux (evalValue op x.value 0 aux)))).gain
          (.place (evalValue op x.value 0 aux) t.nextLocation t.id t.session))
  | combined {i : ThreadId} {t : Tape F} (hslot : V.slot i = some t) {op : Opcode}
      {x y : Handle F} (harity : op.arity = 2) (hx : V.Has x) (hy : V.Has y) (hxon : x.On t)
      (hyon : y.On t) (hmark : x.mark ≠ none ∨ y.mark ≠ none) :
      V.Step ((V.setSlot i (some (t.appendEntry op x.operand y.operand .none
        (evalValue op x.value y.value .none)))).gain
          (.place (evalValue op x.value y.value .none) t.nextLocation t.id t.session))
  | marked {i : ThreadId} {t : Tape F} (hslot : V.slot i = some t) {x : Handle F} (hx : V.Has x)
      (hon : ∀ m, x.mark = some m →
        m.tape = t.id ∧ m.session = t.session ∧ m.loc.toNat < t.values.size) :
      V.Step ((V.setSlot i (some (Session.appendDependent x t))).answer t.session x.value)
  /-- A session ends, and its tape is lost. -/
  | dropped (i : ThreadId) : V.Step (V.setSlot i none)
  /-- A session ends, and its tape is kept. -/
  | sealed {i : ThreadId} {t : Tape F} (hslot : V.slot i = some t) (store : StoreName)
      (id : TapeId) : V.Step ((V.setSlot i none).setSealed store id (some t))
  | removed (store : StoreName) (id : TapeId) : V.Step (V.setSealed store id none)

end View

/-! ## The parts of the recorder that are in view

  What the elementary changes do to `slot?` and `sealed?`, as functions: a change at one thread or
  one place, and nothing elsewhere. -/

namespace Recorder

variable {C : Width → Type} {w : Width}

/-- At the start nothing is recording. -/
theorem slot?_start (w : Width) (i : ThreadId) : ({} : Recorder C).slot? w i = none := by
  cases w with
  | single => exact Std.TreeMap.getElem?_emptyc
  | double => exact Std.TreeMap.getElem?_emptyc

/-- At the start every store is empty. -/
theorem store_start (w : Width) (name : StoreName) : ({} : Recorder C).store w name = {} := by
  have hnone : ∀ β : Type, (∅ : Std.TreeMap StoreName (Store β))[name]?.getD {} = {} := by
    intro β
    rw [Std.TreeMap.getElem?_emptyc, Option.getD_none]
  cases w with
  | single => exact hnone _
  | double => exact hnone _

/-- The sealed tape of an id in a store. -/
def sealed? (r : Recorder C) (w : Width) (name : StoreName) (id : TapeId) : Option (Tape (C w)) :=
  (r.store w name).tapes[id]?

/-- The slots of a format as one function of the thread: a call changes it at one place, and what is
    proved of the rest is proved of `Function.update`. -/
theorem slot?_modifySlot {r : Recorder C} {i : ThreadId} {t : Tape (C w)}
    (h : r.slot? w i = some t) (f : Tape (C w) → Tape (C w)) :
    (r.modifySlot w i f).slot? w = Function.update (r.slot? w) i (some (f t)) := by
  funext j
  -- the maps of the recorder are compared at every thread
  by_cases hj : j = i
  · subst hj
    rw [slot?_modifySlot_self, h, Function.update_self, Option.map_some]
  · rw [slot?_modifySlot_of_ne r f (Or.inr hj), Function.update_of_ne hj]

/-- The same, where it does not matter what the slot held. -/
theorem slot?_putSlot (r : Recorder C) (i : ThreadId) (t : Tape (C w)) :
    (r.putSlot i t).slot? w = Function.update (r.slot? w) i (some t) := by
  funext j
  by_cases hj : j = i
  · subst hj
    rw [slot?_putSlot_self, Function.update_self]
  · rw [slot?_putSlot_of_ne r t (Or.inr hj), Function.update_of_ne hj]

/-- Emptying a slot puts no tape there. -/
theorem slot?_clearSlot (r : Recorder C) (i : ThreadId) :
    (r.clearSlot w i).slot? w = Function.update (r.slot? w) i none := by
  funext j
  by_cases hj : j = i
  · subst hj
    rw [slot?_clearSlot_self, Function.update_self]
  · rw [slot?_clearSlot_of_ne r (Or.inr hj), Function.update_of_ne hj]

/-- What is sealed in one store changes with its map. -/
theorem sealed?_modifyStore {r : Recorder C} {store : StoreName} {f : Store (C w) → Store (C w)}
    {id : TapeId} {t : Option (Tape (C w))}
    (h : ∀ (s : Store (C w)) (j : TapeId),
      (f s).tapes[j]? = if j = id then t else s.tapes[j]?) :
    (r.modifyStore w store f).sealed? w =
      Function.update (r.sealed? w) store (Function.update (r.sealed? w store) id t) := by
  funext name j
  -- two lookups, by the name of the store and by the id in it
  by_cases hname : name = store
  · subst hname
    rw [Function.update_self, sealed?, store_modifyStore_self, h]
    by_cases hj : j = id
    · subst hj
      rw [if_pos rfl, Function.update_self]
    · rw [if_neg hj, Function.update_of_ne hj]
      rfl
  · rw [Function.update_of_ne hname, sealed?, store_modifyStore_of_ne r f (Or.inr hname)]
    rfl

/-- A change of the mark is not in view. -/
theorem sealed?_modifyStore_of_tapes {r : Recorder C} {store : StoreName}
    {f : Store (C w) → Store (C w)} (h : ∀ s : Store (C w), (f s).tapes = s.tapes) :
    (r.modifyStore w store f).sealed? w = r.sealed? w := by
  funext name j
  by_cases hname : name = store
  · subst hname
    rw [sealed?, store_modifyStore_self, h]
    rfl
  · rw [sealed?, store_modifyStore_of_ne r f (Or.inr hname)]
    rfl

/-- Sealing a tape replaces what its store had under its id. -/
theorem sealed?_insert (r : Recorder C) (store : StoreName) (id : TapeId) (t : Tape (C w)) :
    (r.modifyStore w store (·.insert id t)).sealed? w =
      Function.update (r.sealed? w) store (Function.update (r.sealed? w store) id (some t)) := by
  refine sealed?_modifyStore fun s j => ?_
  show (s.tapes.insert id t)[j]? = _
  -- the map compares ids by their order, which is lawful: equal in the order is the same id
  rw [Std.TreeMap.getElem?_insert]
  by_cases hj : j = id
  · rw [if_pos hj, if_pos (by rw [hj]; exact Std.ReflCmp.compare_self)]
  · rw [if_neg hj, if_neg (fun h => hj (Std.LawfulEqCmp.eq_of_compare h).symm)]

/-- Removing a tape empties its place, whether there was a tape or not. -/
theorem sealed?_remove (r : Recorder C) (store : StoreName) (id : TapeId) :
    (r.modifyStore w store fun s => (s.remove id).2).sealed? w =
      Function.update (r.sealed? w) store (Function.update (r.sealed? w store) id none) := by
  refine sealed?_modifyStore fun s j => ?_
  show (s.tapes.erase id)[j]? = _
  rw [Std.TreeMap.getElem?_erase]
  by_cases hj : j = id
  · rw [if_pos hj, if_pos (by rw [hj]; exact Std.ReflCmp.compare_self)]
  · rw [if_neg hj, if_neg (fun h => hj (Std.LawfulEqCmp.eq_of_compare h).symm)]

/-- Closing a session seals nothing by itself. -/
theorem sealed?_released (r : Recorder C) (s : Session w) :
    (s.released r).sealed? w = r.sealed? w := by
  -- whether the mark is that of the session or not, the map of the store is the same
  have h : (r.modifyStore w s.store (·.unmark s.id)).sealed? w = r.sealed? w := by
    refine sealed?_modifyStore_of_tapes fun store => ?_
    unfold Store.unmark
    split
    · rfl
    · rfl
  exact h

/-- Nor does opening one. -/
theorem sealed?_opened (r : Recorder C) (w : Width) (i : ThreadId) (store : StoreName)
    (id : TapeId) : (Session.opened r w i store id).sealed? w = r.sealed? w := by
  -- of the five changes only that of the mark is to a store
  refine (sealed?_modifyStore_of_tapes (r := (r.advanceSerial.putSlot i
    ({ id, session := r.nextSerial } : Tape (C w))).markProcess id) (f := (·.mark id))
    fun _ => rfl).trans ?_
  rfl

/-- The tape of a session is taken by its id. -/
theorem takeSlot_of_tape {r : Recorder C} {i : ThreadId} {t : Tape (C w)} {id : TapeId}
    (hslot : r.slot? w i = some t) (hid : t.id = id) :
    r.takeSlot w i id = (some t, r.clearSlot w i) := by
  unfold takeSlot
  rw [hslot]
  exact if_pos hid

/-- A session that finds its tape in the slot seals it. -/
theorem endTrace_of_slot {r : Recorder C} {i : ThreadId} {s : Session w} {t : Tape (C w)}
    (hslot : r.slot? w i = some t) (hid : t.id = s.id) :
    ∃ r', s.endTrace.exec i r = (.ok t.stats, r') ∧ r'.sealed? w s.store s.id = some t := by
  have hexec := s.endTrace_exec (i := i) r
  rw [takeSlot_of_tape hslot hid] at hexec
  refine ⟨_, hexec, ?_⟩
  show (s.released ((r.clearSlot w i).modifyStore w s.store (·.insert s.id t))).sealed? w s.store
    s.id = some t
  rw [sealed?_released, sealed?_insert, Function.update_self, Function.update_self]

/-- Taking the tape of a session empties the slot, or finds none and changes nothing. -/
theorem takeSlot_cases (r : Recorder C) (w : Width) (i : ThreadId) (id : TapeId) :
    r.takeSlot w i id = (none, r) ∨
      ∃ t, r.slot? w i = some t ∧ r.takeSlot w i id = (some t, r.clearSlot w i) := by
  unfold takeSlot
  -- the id is compared, and nothing else: a tape of another session may be taken
  cases hslot : r.slot? w i with
  | none => exact Or.inl rfl
  | some t =>
    by_cases hid : t.id = id
    · exact Or.inr ⟨t, rfl, if_pos hid⟩
    · exact Or.inl (if_neg hid)

/-- At most what belongs to the format `w` is changed, and serials are only used up. -/
structure Within (w : Width) (r r' : Recorder C) : Prop where
  serial : r.nextSerial ≤ r'.nextSerial
  slot : ∀ v ≠ w, r'.slot? v = r.slot? v
  store : ∀ v ≠ w, r'.store v = r.store v

/-! Every elementary change of the recorder is within a format, or concerns none.  Those of the
    marks and of the trail take the changes before them along, so that a call is a chain of
    these. -/

namespace Within

variable {r r' r'' : Recorder C}

theorem refl (w : Width) (r : Recorder C) : Within w r r :=
  ⟨Nat.le_refl _, fun _ _ => rfl, fun _ _ => rfl⟩

theorem trans (h : Within w r r') (h' : Within w r' r'') : Within w r r'' :=
  ⟨Nat.le_trans h.serial h'.serial, fun v hv => (h'.slot v hv).trans (h.slot v hv),
    fun v hv => (h'.store v hv).trans (h.store v hv)⟩

theorem modifySlot (r : Recorder C) (i : ThreadId) (f : Tape (C w) → Tape (C w)) :
    Within w r (r.modifySlot w i f) :=
  ⟨Nat.le_refl _, fun _ hv => funext fun _ => slot?_modifySlot_of_ne r f (Or.inl hv),
    fun _ _ => rfl⟩

theorem putSlot (r : Recorder C) (i : ThreadId) (t : Tape (C w)) : Within w r (r.putSlot i t) :=
  ⟨Nat.le_refl _, fun _ hv => funext fun _ => slot?_putSlot_of_ne r t (Or.inl hv), fun _ _ => rfl⟩

theorem clearSlot (r : Recorder C) (i : ThreadId) : Within w r (r.clearSlot w i) :=
  ⟨Nat.le_refl _, fun _ hv => funext fun _ => slot?_clearSlot_of_ne r (Or.inl hv), fun _ _ => rfl⟩

theorem modifyStore (r : Recorder C) (name : StoreName) (f : Store (C w) → Store (C w)) :
    Within w r (r.modifyStore w name f) :=
  ⟨Nat.le_refl _, fun _ _ => rfl,
    fun _ hv => funext fun _ => store_modifyStore_of_ne r f (Or.inl hv)⟩

/-- The one change that does not belong to a format: it is the reason why `Within` allows serials to
    be used up. -/
theorem advanceSerial (w : Width) (r : Recorder C) : Within w r r.advanceSerial :=
  ⟨Nat.le_succ _, fun _ _ => rfl, fun _ _ => rfl⟩

theorem markProcess (h : Within w r r') (id : TapeId) : Within w r (r'.markProcess id) :=
  ⟨h.serial, h.slot, h.store⟩

theorem unmarkProcess (h : Within w r r') : Within w r r'.unmarkProcess :=
  ⟨h.serial, h.slot, h.store⟩

theorem note (h : Within w r r') (events : List Event) : Within w r (r'.note events) :=
  ⟨h.serial, h.slot, h.store⟩

/-- Whether the tape is found or not. -/
theorem takeSlot (r : Recorder C) (i : ThreadId) (id : TapeId) :
    Within w r (r.takeSlot w i id).2 := by
  rcases r.takeSlot_cases w i id with h | ⟨t, -, h⟩
  · rw [h]
    exact refl w r
  · rw [h]
    exact clearSlot r i

theorem released (r : Recorder C) (s : Session w) : Within w r (s.released r) :=
  (modifyStore r s.store _).unmarkProcess

/-- Opening a session, as its five changes one after the other. -/
theorem opened (r : Recorder C) (w : Width) (i : ThreadId) (store : StoreName) (id : TapeId) :
    Within w r (Session.opened r w i store id) :=
  ((((advanceSerial w r).trans (putSlot _ i _)).markProcess id).trans
    (modifyStore _ store _)).note _

end Within

end Recorder

/-! ## A call is a step of every format

  For its own format a call is refused, which is idle, or is one of the steps; that is
  `perform_step_self`, a case for each call.  For the other format it is idle, since it stays within
  its own (`within_perform`).  `perform_step` puts these together, and is what invariants are proved
  with. -/

namespace World

variable {C : Width → Type} {w : Width} {α : Type} {i : ThreadId}

/-- What there is of the format `w`. -/
def view (W : World C) (w : Width) : View (C w) where
  nextSerial := W.recorder.nextSerial
  slot := W.recorder.slot? w
  sealed := W.recorder.sealed? w
  handles := W.handles.get w
  answers := W.answers.get w

section After

variable {W : World C} {m : RecorderT C Id α} {keep : α → World C → World C} {r : Recorder C}

/-- An action that answers: the host keeps the answer, in the world with the new recorder. -/
theorem after_of_ok {a : α} (h : m.exec i W.recorder = (.ok a, r)) :
    W.after i m keep = keep a { W with recorder := r } := by
  unfold after
  rw [h]

/-- An action that fails can have changed the recorder all the same. -/
theorem after_of_error {f : Failure} (h : m.exec i W.recorder = (.error f, r)) :
    W.after i m keep = { W with recorder := r } := by
  unfold after
  rw [h]

end After

/-- `W'` differs from `W` in the format `w` only. -/
structure Within (w : Width) (W W' : World C) : Prop where
  recorder : Recorder.Within w W.recorder W'.recorder
  handles : ∀ v ≠ w, W'.handles.get v = W.handles.get v
  answers : ∀ v ≠ w, W'.answers.get v = W.answers.get v

/-! What the host keeps of an answer is of the format of the call. -/

namespace Within

theorem gain (W : World C) (x : Handle (C w)) : Within w W (gain x W) :=
  ⟨.refl w _, fun _ hv => PerWidth.get_modify_of_ne _ _ hv, fun _ _ => rfl⟩

theorem hear (W : World C) (serial : Nat) (v : C w) : Within w W (hear serial v W) :=
  ⟨.refl w _, fun _ _ => rfl, fun _ hv => PerWidth.get_modify_of_ne _ _ hv⟩

theorem hold (W : World C) (i : ThreadId) (s : Session w) : Within w W (hold i s W) :=
  ⟨.refl w _, fun _ _ => rfl, fun _ _ => rfl⟩

theorem ignore (W : World C) (a : α) : Within w W (ignore a W) :=
  ⟨.refl w _, fun _ _ => rfl, fun _ _ => rfl⟩

theorem lose {W W' : World C} (h : Within w W W') (i : ThreadId) (s : Session w) :
    Within w W (W'.lose i s) :=
  ⟨h.recorder, h.handles, h.answers⟩

/-- An action within a format, of whose answer the host keeps something of that format. -/
theorem after {W : World C} {m : RecorderT C Id α} {keep : α → World C → World C}
    (hm : Recorder.Within w W.recorder (m.exec i W.recorder).2)
    (hkeep : ∀ a r, Within w { W with recorder := r } (keep a { W with recorder := r })) :
    Within w W (W.after i m keep) := by
  cases hexec : m.exec i W.recorder with
  | mk answer r =>
    rw [hexec] at hm
    cases answer with
    | error f =>
      rw [after_of_error hexec]
      exact ⟨hm, fun _ _ => rfl, fun _ _ => rfl⟩
    | ok a =>
      -- two steps within the format: of the recorder, and then of the host
      rw [after_of_ok hexec]
      obtain ⟨hr, hh, ha⟩ := hkeep a r
      exact ⟨hm.trans hr, hh, ha⟩

end Within

/-- Seen from the other format, nothing has happened but that serials were used up. -/
theorem view_of_within {W W' : World C} (h : Within w W W') {v : Width} (hv : v ≠ w) :
    W'.view v = { W.view v with nextSerial := W'.recorder.nextSerial } := by
  have hsealed : W'.recorder.sealed? v = W.recorder.sealed? v := by
    funext name id
    unfold Recorder.sealed?
    rw [h.recorder.store v hv]
  unfold view
  rw [h.recorder.slot v hv, hsealed, h.handles v hv, h.answers v hv]

/-- A recorder in which nothing but one slot changed, in view. -/
theorem view_modifySlot {W : World C} {t : Tape (C w)} (h : W.recorder.slot? w i = some t)
    (f : Tape (C w) → Tape (C w)) :
    ({ W with recorder := W.recorder.modifySlot w i f } : World C).view w =
      (W.view w).setSlot i (some (f t)) := by
  unfold view View.setSlot
  simp only [Recorder.slot?_modifySlot h]
  rfl

/-- What the host keeps is in view. -/
theorem view_gain (W : World C) (x : Handle (C w)) : (gain x W).view w = (W.view w).gain x := by
  unfold view View.gain gain
  simp only [PerWidth.get_modify_self]

/-- Closing a session touches neither slots nor sealed tapes. -/
theorem view_released (W : World C) (s : Session w) (r : Recorder C) :
    ({ W with recorder := s.released r } : World C).view w =
      ({ W with recorder := r } : World C).view w := by
  unfold view
  rw [r.sealed?_released s]
  rfl

/-- An open session shows in its slot, and not in the marks. -/
theorem view_opened (W : World C) (i : ThreadId) (store : StoreName) (id : TapeId) :
    ({ W with recorder := Session.opened W.recorder w i store id } : World C).view w =
      (W.view w).start i id := by
  have hslot : (Session.opened W.recorder w i store id).slot? w =
      Function.update (W.recorder.slot? w) i (some { id, session := W.recorder.nextSerial }) :=
    Recorder.slot?_putSlot W.recorder.advanceSerial i _
  unfold view View.start
  rw [hslot, Recorder.sealed?_opened]
  rfl

/-- A slot that was emptied is empty in view. -/
theorem view_clearSlot (W : World C) (i : ThreadId) :
    ({ W with recorder := W.recorder.clearSlot w i } : World C).view w =
      (W.view w).setSlot i none := by
  unfold view View.setSlot
  rw [Recorder.slot?_clearSlot]
  rfl

/-- A tape that is sealed shows in its store. -/
theorem view_insert (W : World C) (r : Recorder C) (store : StoreName) (id : TapeId)
    (t : Tape (C w)) :
    ({ W with recorder := r.modifyStore w store (·.insert id t) } : World C).view w =
      (({ W with recorder := r } : World C).view w).setSealed store id (some t) := by
  unfold view View.setSealed
  rw [Recorder.sealed?_insert]
  rfl

/-- And one that is removed does so no longer. -/
theorem view_remove (W : World C) (store : StoreName) (id : TapeId) :
    ({ W with recorder := W.recorder.modifyStore w store fun s => (s.remove id).2 } :
      World C).view w = (W.view w).setSealed store id none := by
  unfold view View.setSealed
  rw [Recorder.sealed?_remove]
  rfl

variable [∀ w, Scalar (C w)] [∀ w, Elementary (C w)]

/-- Recording changes the tape in the slot of the thread, if anything. -/
theorem within_recordUnary (op : Opcode) (aux : Aux) (x : Handle (C w)) (r : Recorder C) :
    Recorder.Within w r ((x.recordUnary op aux).exec i r).2 := by
  rcases x.recordUnary_cases (i := i) op aux r with ⟨f, h⟩ | ⟨-, h⟩ | ⟨t, -, -, -, h⟩
  · rw [h]; exact .refl w r
  · rw [h]; exact .refl w r
  · rw [h]; exact .modifySlot r i _

/-- The same of two operands. -/
theorem within_recordBinary (op : Opcode) (x y : Handle (C w)) (r : Recorder C) :
    Recorder.Within w r ((x.recordBinary op y).exec i r).2 := by
  rcases x.recordBinary_cases (i := i) op y r with ⟨f, h⟩ | ⟨-, -, h⟩ | ⟨t, -, -, -, -, h⟩
  · rw [h]; exact .refl w r
  · rw [h]; exact .refl w r
  · rw [h]; exact .modifySlot r i _

/-- Of what splitting a handle answers, the host can only use the handle. -/
theorem after_frexp (W : World C) (x : Handle (C w)) :
    (W.after i x.frexp fun answer => gain answer.1) =
      W.after i (x.recordUnary .frexp (.exponent (.ofInt (frexpExponent x.value)))) gain := by
  unfold after
  rw [x.frexp_exec]
  -- the exponent is answered besides, by the same action
  split
  · rename_i answer r h
    split at h
    · cases h; simp only [*]
    · cases h
  · rename_i f r h
    split at h
    · cases h
    · cases h; simp only [*]

/-- A call changes nothing of the other format. -/
theorem within_perform (W : World C) (i : ThreadId) (call : Call C w) :
    Within w W (W.perform i call) := by
  cases call with
  | begin store id capacity =>
    refine .after ?_ fun s r => .hold _ i s
    rcases Session.begin_outcome (i := i) store id capacity W.recorder with
      ⟨f, r, h, rfl | rfl⟩ | ⟨-, -, h⟩
    · rw [h]
      exact .refl w _
    · -- refused, it may have used up a serial, which both formats share
      rw [h]
      exact .advanceSerial w _
    · rw [h]
      exact .opened _ w i store id
  | independent s v =>
    refine .after ?_ fun x r => .gain _ x
    rcases s.independent_cases (i := i) v W.recorder with ⟨f, h⟩ | ⟨t, -, -, -, h⟩
    · rw [h]; exact .refl w _
    · rw [h]; exact .modifySlot _ i _
  | apply op x => exact .after (within_recordUnary _ _ x _) fun y r => .gain _ y
  | frexp x =>
    show Within w W (W.after i x.frexp fun answer => gain answer.1)
    rw [after_frexp]
    exact .after (within_recordUnary _ _ x _) fun y r => .gain _ y
  | combine op x y => exact .after (within_recordBinary _ x y _) fun z r => .gain _ z
  | dependent s x =>
    refine .after ?_ fun v r => .hear _ s.serial v
    rcases s.dependent_cases (i := i) x W.recorder with ⟨f, h⟩ | ⟨t, -, -, -, h⟩
    · rw [h]; exact .refl w _
    · rw [h]; exact .modifySlot _ i _
  | endTrace s =>
    refine .lose (.after ?_ fun stats r => .ignore _ stats) i s
    rw [s.endTrace_exec]
    rcases W.recorder.takeSlot_cases w i s.id with htake | ⟨t, -, htake⟩
    · rw [htake]
      exact .released W.recorder s
    · -- the slot, the store, the marks and the trail, in this order
      rw [htake]
      exact (((Recorder.Within.clearSlot W.recorder i).trans (.modifyStore _ s.store _)).trans
        (.released _ s)).note _
  | drop s =>
    refine .lose (.after ?_ fun u r => .ignore _ u) i s
    exact ((Recorder.Within.takeSlot W.recorder i s.id).trans (.released _ s)).note _
  | remove store id =>
    show Within w W (W.after i (removeTape w store id) ignore)
    exact .after (.modifyStore W.recorder store fun s => (s.remove id).2) fun t r => .ignore _ t
  | takeSlot =>
    show Within w W (W.after i (takeSlotTape w) ignore)
    exact .after (.clearSlot W.recorder i) fun t r => .ignore _ t
  | replaceSlot t =>
    show Within w W (W.after i (replaceSlotTape t) ignore)
    exact .after (.putSlot W.recorder i t) fun u r => .ignore _ u

/-- A unary operation is a step, whatever it records. -/
theorem recordUnary_step {W : World C} {op : Opcode} {aux : Aux} {x : Handle (C w)} (hx : W.Has x)
    (harity : op.arity = 1) (hop : op ≠ .const) (haux : aux.Fits op)
    (hbranch : ∀ b, aux.branch? = some b → b = .of x.value) :
    (W.view w).Step ((W.after i (x.recordUnary op aux) gain).view w) := by
  -- refused, folded or recorded: a step for each
  rcases x.recordUnary_cases (i := i) op aux W.recorder with
    ⟨f, h⟩ | ⟨-, h⟩ | ⟨t, hslot, hon, hmark, h⟩
  · rw [after_of_error h]
    exact .idle (Nat.le_refl _)
  · rw [after_of_ok h, view_gain]
    exact .folded _
  · rw [after_of_ok h, view_gain, view_modifySlot hslot]
    exact .applied hslot harity hop haux hbranch hx hon hmark

/-- So is a binary operation. -/
theorem recordBinary_step {W : World C} {op : Opcode} {x y : Handle (C w)} (hx : W.Has x)
    (hy : W.Has y) (harity : op.arity = 2) :
    (W.view w).Step ((W.after i (x.recordBinary op y) gain).view w) := by
  rcases x.recordBinary_cases (i := i) op y W.recorder with
    ⟨f, h⟩ | ⟨-, -, h⟩ | ⟨t, hslot, hxon, hyon, hmark, h⟩
  · rw [after_of_error h]
    exact .idle (Nat.le_refl _)
  · rw [after_of_ok h, view_gain]
    exact .folded _
  · rw [after_of_ok h, view_gain, view_modifySlot hslot]
    exact .combined hslot harity hx hy hxon hyon hmark

/-- No call does anything else to its own format. -/
theorem perform_step_self {W : World C} {call : Call C w} (legal : W.Legal i call)
    (indirect : ¬ call.IsDirect) : (W.view w).Step ((W.perform i call).view w) := by
  -- one case for each call: its outcomes are known, and each of them is a step
  cases call with
  | begin store id capacity =>
    show (W.view w).Step ((W.after i (beginTraceWithCapacity w store id capacity) (hold i)).view w)
    rcases Session.begin_outcome (i := i) store id capacity W.recorder with
      ⟨f, r, h, rfl | rfl⟩ | ⟨-, hslot, h⟩
    · rw [after_of_error h]
      exact .idle (Nat.le_refl _)
    · -- the refusals that come after the serial was taken
      rw [after_of_error h]
      exact .idle (Nat.le_succ _)
    · rw [after_of_ok h]
      have hstep := View.Step.opened (V := W.view w) id hslot
      rw [← view_opened W i store id] at hstep
      exact hstep
  | independent s x =>
    show (W.view w).Step ((W.after i (s.independent x) gain).view w)
    rcases s.independent_cases (i := i) x W.recorder with ⟨f, h⟩ | ⟨t, hslot, -, -, h⟩
    · rw [after_of_error h]
      exact .idle (Nat.le_refl _)
    · rw [after_of_ok h, view_gain, view_modifySlot hslot]
      exact .bound hslot x
  | apply op x =>
    exact recordUnary_step legal op.arity_opcode op.opcode_ne_const (op.aux_fits _)
      fun _ => UnaryOp.aux_branch
  | frexp x =>
    show (W.view w).Step ((W.after i x.frexp fun answer => gain answer.1).view w)
    rw [after_frexp]
    exact recordUnary_step legal rfl Opcode.noConfusion ⟨_, rfl⟩ fun _ hb => nomatch hb
  | combine op x y => exact recordBinary_step legal.1 legal.2 op.arity_opcode
  | dependent s x =>
    show (W.view w).Step ((W.after i (s.dependent x) (hear s.serial)).view w)
    rcases s.dependent_cases (i := i) x W.recorder with ⟨f, h⟩ | ⟨t, hslot, hsession, hon, h⟩
    · rw [after_of_error h]
      exact .idle (Nat.le_refl _)
    · -- the host hears the value; the serial it hears it under is that of the tape
      have hview : ∀ W' : World C,
          (hear s.serial x.value W').view w = (W'.view w).answer s.serial x.value := by
        intro W'
        unfold view View.answer hear
        simp only [PerWidth.get_modify_self]
      rw [after_of_ok h, hview, view_modifySlot hslot, ← hsession]
      exact .marked hslot legal.2 hon
  | endTrace s =>
    show (W.view w).Step ((W.after i s.endTrace ignore).view w)
    have hexec := s.endTrace_exec (i := i) W.recorder
    rcases W.recorder.takeSlot_cases w i s.id with htake | ⟨t, hslot, htake⟩
    · -- the tape was not there, and only the marks are cleared
      rw [htake] at hexec
      rw [after_of_error hexec, view_released]
      exact .idle (Nat.le_refl _)
    · -- the slot is emptied and the store gets the tape: one step of the view
      rw [htake] at hexec
      rw [after_of_ok hexec]
      have hview := view_released W s
        ((W.recorder.clearSlot w i).modifyStore w s.store (·.insert s.id t))
      rw [view_insert, view_clearSlot] at hview
      have hstep := View.Step.sealed (V := W.view w) hslot s.store s.id
      rw [← hview] at hstep
      exact hstep
  | drop s =>
    show (W.view w).Step ((W.after i s.drop ignore).view w)
    have hexec := s.drop_exec (i := i) W.recorder
    -- as at the end of a session, but what was taken is put nowhere
    rcases W.recorder.takeSlot_cases w i s.id with htake | ⟨t, hslot, htake⟩
    · -- another tape is in the slot, or none, and stays
      rw [htake] at hexec
      rw [after_of_ok hexec]
      have hstep : (W.view w).Step
          (({ W with recorder := s.released W.recorder } : World C).view w) := by
        rw [view_released]
        exact .idle (Nat.le_refl _)
      exact hstep
    · rw [htake] at hexec
      rw [after_of_ok hexec]
      have hview := view_released W s (W.recorder.clearSlot w i)
      rw [view_clearSlot] at hview
      have hstep := View.Step.dropped (V := W.view w) i
      rw [← hview] at hstep
      exact hstep
  | remove store id =>
    show (W.view w).Step ((W.after i (removeTape w store id) ignore).view w)
    have hstep := View.Step.removed (V := W.view w) store id
    rw [← view_remove] at hstep
    exact hstep
  -- these two could put any tape in the slot, and a view of that has no step
  | takeSlot => exact absurd trivial indirect
  | replaceSlot t => exact absurd trivial indirect

/-- No call does anything else to any format. -/
theorem perform_step {W : World C} {call : Call C w} (legal : W.Legal i call)
    (indirect : ¬ call.IsDirect) (v : Width) : (W.view v).Step ((W.perform i call).view v) := by
  by_cases hv : v = w
  · subst hv
    exact perform_step_self legal indirect
  -- for the other format the call was idle
  · rw [view_of_within (within_perform W i call) hv]
    exact .idle (within_perform W i call).recorder.serial

/-- Ending the session of a thread seals the tape in its slot. -/
theorem sealed_endTrace {W : World C} {s : Session w} {t : Tape (C w)}
    (hslot : W.recorder.slot? w i = some t) (hid : t.id = s.id) :
    (W.perform i (.endTrace s)).recorder.sealed? w s.store s.id = some t := by
  obtain ⟨r, hexec, hsealed⟩ := Recorder.endTrace_of_slot hslot hid
  show (lose i s (W.after i s.endTrace ignore)).recorder.sealed? w s.store s.id = some t
  rw [after_of_ok hexec]
  exact hsealed

end World

end DiffTape
