/-
  WHO IS RECORDING.

  A `Run` is any sequence of calls, with the list of its turns; it may or may not go to the slots
  directly.  The `Registry` of a world is the part of it that decides who records:

  * the mark of the process and the marks of the stores;
  * the labels (id and serial) of the tapes in the slots;
  * the sessions that are open.

  `Registry.Step` lists the four things that can happen to it, and `perform_registry` shows that
  no call does anything else.  From the steps follow two invariants:

  * `Exclusive` — the registry is idle, or ONE session holds it, and then every mark is that of
    this session.  It survives any tampering with the slots, for no mark is ever read off a slot.
  * `Attended`  — as long as nobody tampers, the labels are those of the open sessions.
-/
import DiffTape.Proofs.Runs

namespace DiffTape

variable {C : Width → Type} {w : Width} {i : ThreadId}

/-- A change of one format is an update at one place. -/
theorem PerWidth.get_modify {β : Width → Type} (p : PerWidth β) (w : Width) (f : β w → β w) :
    (p.modify w f).get = Function.update p.get w (f (p.get w)) := by
  funext v
  by_cases hv : v = w
  · subst hv
    rw [PerWidth.get_modify_self, Function.update_self]
  · rw [PerWidth.get_modify_of_ne p f hv, Function.update_of_ne hv]

theorem PerWidth.modify_modify_cancel {β : Width → Type} (p : PerWidth β) (w : Width)
    {f g : β w → β w} (h : ∀ b, g (f b) = b) : (p.modify w f).modify w g = p := by
  cases w with
  | single => simp [PerWidth.modify, h]
  | double => simp [PerWidth.modify, h]

/-- Where one place only is set, what is found is what was set there. -/
theorem update_update_eq_some_iff {κ α : Type} [DecidableEq κ] {v w : Width} {j k : κ} {a b : α} :
    Function.update (fun _ _ => none) w (Function.update (fun _ => none) k (some a)) v j = some b ↔
      v = w ∧ j = k ∧ a = b := by
  by_cases hv : v = w
  · subst hv
    rw [Function.update_self]
    by_cases hj : j = k
    · subst hj
      simp
    · simp [hj]
  · simp [hv]

/-! ## Runs with their history -/

/-- A call that was made, and the world in which it was. -/
structure Turn (C : Width → Type) where
  before : World C
  thread : ThreadId
  width : Width
  call : Call C width

section Run

variable [∀ w, Scalar (C w)] [∀ w, Elementary (C w)]

/-- The run that leads from `W` through these turns, oldest first.  `direct` tells whether it may
    go to the slots directly. -/
inductive World.Run (direct : Prop) (W : World C) : List (Turn C) → World C → Prop
  | start : Run direct W [] W
  | step {past : List (Turn C)} {W' : World C} (h : Run direct W past W') (i : ThreadId)
      {w : Width} (call : Call C w) (legal : W'.Legal i call) (allowed : call.IsDirect → direct) :
      Run direct W (past ++ [⟨W', i, w, call⟩]) (W'.perform i call)

namespace World

variable {direct : Prop} {W W' W'' : World C} {past past' : List (Turn C)}

/-- One run after the other. -/
theorem Run.trans (h : W.Run direct past W') (h' : W'.Run direct past' W'') :
    W.Run direct (past ++ past') W'' := by
  induction h' with
  | start => simpa using h
  | step _ i call legal allowed ih =>
    rw [← List.append_assoc]
    exact ih.step i call legal allowed

/-- One call is a run. -/
theorem Run.call {call : Call C w} (legal : W.Legal i call) (allowed : call.IsDirect → direct) :
    W.Run direct [⟨W, i, w, call⟩] (W.perform i call) :=
  Run.start.step i call legal allowed

/-- A run that leaves the slots alone. -/
theorem Run.undisturbed (h : ({} : World C).Run False past W) : W.Undisturbed := by
  induction h with
  | start => exact .start
  | step _ i call legal allowed ih => exact ih.step i call legal allowed

end World

end Run

/-! ## The registry -/

/-- What decides who records. -/
structure Registry where
  /-- The mark of the process. -/
  process : Option TapeId
  /-- The marks of the stores. -/
  recording : Width → StoreName → Option TapeId
  /-- The id and the serial of the tape in each slot. -/
  label : Width → ThreadId → Option (TapeId × Nat)
  /-- The open sessions, with the threads that opened them. -/
  sessions : (w : Width) → List (ThreadId × Session w)

namespace Registry

/-- A session is opened. -/
def opened (R : Registry) (i : ThreadId) (s : Session w) : Registry where
  process := some s.id
  recording := Function.update R.recording w (Function.update (R.recording w) s.store (some s.id))
  label := Function.update R.label w (Function.update (R.label w) i (some (s.id, s.serial)))
  sessions := Function.update R.sessions w ((i, s) :: R.sessions w)

/-- A session is closed: its tape is taken if the slot has one of its id. -/
def closed (R : Registry) (i : ThreadId) (s : Session w) : Registry where
  process := none
  recording := Function.update R.recording w (Function.update (R.recording w) s.store
    (if R.recording w s.store = some s.id then none else R.recording w s.store))
  label := Function.update R.label w (Function.update (R.label w) i
    (if (R.label w i).map Prod.fst = some s.id then none else R.label w i))
  sessions := Function.update R.sessions w ((R.sessions w).erase (i, s))

/-- The tape in a slot is exchanged. -/
def relabel (R : Registry) (w : Width) (i : ThreadId) (l : Option (TapeId × Nat)) : Registry :=
  { R with label := Function.update R.label w (Function.update (R.label w) i l) }

/-- All that can happen to the registry. -/
inductive Step (direct : Prop) (R : Registry) : Registry → Prop
  /-- A call is refused, or grows the tape in a slot, or is about sealed tapes. -/
  | idle : R.Step direct R
  | opened {w : Width} (i : ThreadId) (s : Session w) (hprocess : R.process = none)
      (hlabel : R.label w i = none) : R.Step direct (R.opened i s)
  | closed {w : Width} (i : ThreadId) (s : Session w) (hs : (i, s) ∈ R.sessions w) :
      R.Step direct (R.closed i s)
  | relabel (w : Width) (i : ThreadId) (l : Option (TapeId × Nat)) (hdirect : direct) :
      R.Step direct (R.relabel w i l)

end Registry

/-- The call opens or closes a session, or goes to the slot of the thread directly. -/
def Call.Registers : Call C w → Prop
  | .begin .. | .endTrace _ | .drop _ | .takeSlot | .replaceSlot _ => True
  | _ => False

/-! ## The registry of a world -/

namespace Recorder

/-- The id and the serial of the tape in a slot. -/
def label (r : Recorder C) (w : Width) (i : ThreadId) : Option (TapeId × Nat) :=
  (r.slot? w i).map fun t => (t.id, t.session)

/-- The mark of a store. -/
def recording (r : Recorder C) (w : Width) (name : StoreName) : Option TapeId :=
  (r.store w name).recording

/-- What a change of one slot does to the labels. -/
theorem label_of_slot {r r' : Recorder C} {t : Option (Tape (C w))}
    (hself : r'.slot? w = Function.update (r.slot? w) i t)
    (hother : ∀ v ≠ w, r'.slot? v = r.slot? v) :
    r'.label = Function.update r.label w
      (Function.update (r.label w) i (t.map fun t => (t.id, t.session))) := by
  funext v j
  by_cases hv : v = w
  · subst hv
    rw [Function.update_self, label, hself]
    by_cases hj : j = i
    · subst hj
      rw [Function.update_self, Function.update_self]
    · rw [Function.update_of_ne hj, Function.update_of_ne hj]
      rfl
  · rw [Function.update_of_ne hv, label, hother v hv]
    rfl

/-- A tape that grows keeps its label. -/
theorem label_modifySlot (r : Recorder C) (w : Width) (i : ThreadId) {f : Tape (C w) → Tape (C w)}
    (hf : ∀ t, (f t).id = t.id ∧ (f t).session = t.session) :
    (r.modifySlot w i f).label = r.label := by
  funext v j
  by_cases h : v ≠ w ∨ j ≠ i
  · rw [label, slot?_modifySlot_of_ne r f h]
    rfl
  · obtain ⟨rfl, rfl⟩ : v = w ∧ j = i := by simpa using h
    rw [label, slot?_modifySlot_self, Option.map_map]
    have hlabel : (fun t : Tape (C v) => (t.id, t.session)) ∘ f = fun t => (t.id, t.session) := by
      funext t
      simp [hf t]
    rw [hlabel]
    rfl

theorem recording_modifyStore (r : Recorder C) (w : Width) (name : StoreName)
    (f : Store (C w) → Store (C w)) :
    (r.modifyStore w name f).recording = Function.update r.recording w
      (Function.update (r.recording w) name (f (r.store w name)).recording) := by
  funext v other
  by_cases h : v ≠ w ∨ other ≠ name
  · rw [recording, store_modifyStore_of_ne r f h]
    rcases h with hv | hname
    · rw [Function.update_of_ne hv]
      rfl
    · by_cases hv : v = w
      · subst hv
        rw [Function.update_self, Function.update_of_ne hname]
        rfl
      · rw [Function.update_of_ne hv]
        rfl
  · obtain ⟨rfl, rfl⟩ : v = w ∧ other = name := by simpa using h
    rw [recording, store_modifyStore_self, Function.update_self, Function.update_self]

/-- A change of the sealed tapes leaves the marks alone. -/
theorem recording_modifyStore_of_mark (r : Recorder C) (w : Width) (name : StoreName)
    {f : Store (C w) → Store (C w)} (hf : ∀ s, (f s).recording = s.recording) :
    (r.modifyStore w name f).recording = r.recording := by
  rw [recording_modifyStore, hf]
  have hself : Function.update (r.recording w) name (r.store w name).recording = r.recording w :=
    Function.update_eq_self name _
  rw [hself, Function.update_eq_self]

/-- What `Recorder.takeSlot` leaves in the slots. -/
theorem label_takeSlot (r : Recorder C) (w : Width) (i : ThreadId) (id : TapeId) :
    (r.takeSlot w i id).2.label = Function.update r.label w (Function.update (r.label w) i
      (if (r.label w i).map Prod.fst = some id then none else r.label w i)) := by
  -- the id in the label is that of the tape, which is what `takeSlot` compares
  have hlabel : (r.label w i).map Prod.fst = (r.slot? w i).map (·.id) := by
    rw [label, Option.map_map]
    rfl
  rw [hlabel]
  unfold takeSlot
  cases hslot : r.slot? w i with
  | none =>
    have hnone : r.label w i = none := by rw [label, hslot, Option.map_none]
    simp only [Option.map_none, reduceCtorEq, if_false]
    rw [Function.update_eq_self, Function.update_eq_self]
  | some t =>
    by_cases hid : t.id = id
    · simp only [hid, Option.map_some, if_true]
      exact label_of_slot (t := none) (r.slot?_clearSlot i)
        fun v hv => funext fun j => slot?_clearSlot_of_ne r (Or.inl hv)
    · simp only [hid, Option.map_some, Option.some.injEq, if_false]
      rw [Function.update_eq_self, Function.update_eq_self]

/-- Slots are no marks. -/
theorem recording_takeSlot (r : Recorder C) (w : Width) (i : ThreadId) (id : TapeId) :
    (r.takeSlot w i id).2.recording = r.recording := by
  rcases r.takeSlot_cases w i id with h | ⟨t, -, h⟩
  · rw [h]
  · rw [h]
    rfl

/-- The mark of a store is cleared if it is that of the session. -/
theorem recording_released (s : Session w) (r : Recorder C) :
    (s.released r).recording = Function.update r.recording w
      (Function.update (r.recording w) s.store
        (if r.recording w s.store = some s.id then none else r.recording w s.store)) := by
  have hunmark : ((r.store w s.store).unmark s.id).recording =
      if r.recording w s.store = some s.id then none else r.recording w s.store := by
    unfold Store.unmark recording
    split <;> rfl
  rw [← hunmark]
  exact r.recording_modifyStore w s.store (·.unmark s.id)

end Recorder

namespace World

variable {W : World C}

/-- What decides who records in this world. -/
def registry (W : World C) : Registry where
  process := W.recorder.process
  recording := W.recorder.recording
  label := W.recorder.label
  sessions := W.sessions.get

/-- A tape that grows is the same tape to the registry. -/
theorem registry_modifySlot (W : World C) (w : Width) (i : ThreadId)
    {f : Tape (C w) → Tape (C w)} (hf : ∀ t, (f t).id = t.id ∧ (f t).session = t.session) :
    ({ W with recorder := W.recorder.modifySlot w i f } : World C).registry = W.registry := by
  unfold registry
  rw [W.recorder.label_modifySlot w i hf]
  rfl

/-- To the registry, opening is one step, whatever it is made of. -/
theorem registry_opened (W : World C) (i : ThreadId) (store : StoreName) (id : TapeId) :
    (hold i (⟨store, id, W.recorder.nextSerial⟩ : Session w)
      { W with recorder := Session.opened W.recorder w i store id }).registry =
        W.registry.opened i (⟨store, id, W.recorder.nextSerial⟩ : Session w) := by
  have hlabel : (Session.opened W.recorder w i store id).label = Function.update W.recorder.label w
      (Function.update (W.recorder.label w) i (some (id, W.recorder.nextSerial))) :=
    Recorder.label_of_slot (t := some { id, session := W.recorder.nextSerial })
      (W.recorder.advanceSerial.slot?_putSlot i _)
      fun v hv => funext fun j => Recorder.slot?_putSlot_of_ne _ _ (Or.inl hv)
  have hrecording : (Session.opened W.recorder w i store id).recording =
      Function.update W.recorder.recording w
        (Function.update (W.recorder.recording w) store (some id)) :=
    Recorder.recording_modifyStore _ w store (·.mark id)
  have hsessions := W.sessions.get_modify w
    ((i, (⟨store, id, W.recorder.nextSerial⟩ : Session w)) :: ·)
  unfold registry Registry.opened hold
  simp only [hlabel, hrecording, hsessions]
  rfl

/-- The tape of one slot is exchanged. -/
theorem registry_setSlot {r : Recorder C} (t : Option (Tape (C w)))
    (hself : r.slot? w = Function.update (W.recorder.slot? w) i t)
    (hother : ∀ v ≠ w, r.slot? v = W.recorder.slot? v) (hprocess : r.process = W.recorder.process)
    (hstores : r.stores = W.recorder.stores) :
    ({ W with recorder := r } : World C).registry =
      W.registry.relabel w i (t.map fun t => (t.id, t.session)) := by
  have hrecording : r.recording = W.recorder.recording := by
    funext v name
    unfold Recorder.recording Recorder.store
    rw [hstores]
  unfold registry Registry.relabel
  rw [hrecording, hprocess, Recorder.label_of_slot hself hother]

/-- A session that is closed, whatever becomes of its tape: `r` is what taking the tape left, up to
    sealed tapes. -/
theorem registry_closed {i : ThreadId} {s : Session w} {r : Recorder C} (events : List Event)
    (hrecording : r.recording = W.recorder.recording)
    (hlabel : r.label = (W.recorder.takeSlot w i s.id).2.label) :
    (({ W with recorder := (s.released r).note events } : World C).lose i s).registry =
      W.registry.closed i s := by
  have hmarks := Recorder.recording_released s r
  rw [hrecording] at hmarks
  have hslots : ((s.released r).note events).label = r.label := rfl
  have hsessions := W.sessions.get_modify w (·.erase (i, s))
  unfold registry Registry.closed lose
  rw [hslots, hlabel, Recorder.label_takeSlot]
  congr 1

variable [∀ w, Scalar (C w)] [∀ w, Elementary (C w)]

theorem registry_recordUnary (W : World C) (i : ThreadId) (op : Opcode) (aux : Aux)
    (x : Handle (C w)) : (W.after i (x.recordUnary op aux) gain).registry = W.registry := by
  rcases x.recordUnary_cases (i := i) op aux W.recorder with ⟨f, h⟩ | ⟨-, h⟩ | ⟨t, -, -, -, h⟩
  · rw [after_of_error h]
  · rw [after_of_ok h]
    rfl
  · rw [after_of_ok h]
    exact W.registry_modifySlot w i fun _ => ⟨rfl, rfl⟩

theorem registry_recordBinary (W : World C) (i : ThreadId) (op : Opcode) (x y : Handle (C w)) :
    (W.after i (x.recordBinary op y) gain).registry = W.registry := by
  rcases x.recordBinary_cases (i := i) op y W.recorder with
    ⟨f, h⟩ | ⟨-, -, h⟩ | ⟨t, -, -, -, -, h⟩
  · rw [after_of_error h]
  · rw [after_of_ok h]
    rfl
  · rw [after_of_ok h]
    exact W.registry_modifySlot w i fun _ => ⟨rfl, rfl⟩

/-- Sealed tapes are nothing to the registry. -/
theorem registry_remove (W : World C) (i : ThreadId) (store : StoreName) (id : TapeId) :
    (W.perform i (.remove store id : Call C w)).registry = W.registry := by
  have hmarks := W.recorder.recording_modifyStore_of_mark w store (f := fun s => (s.remove id).2)
    fun _ => rfl
  have hperform : (W.perform i (.remove store id : Call C w)).registry =
      { W.registry with
        recording := (W.recorder.modifyStore w store fun s => (s.remove id).2).recording } := rfl
  rw [hperform, hmarks]
  rfl

/-- A call that neither opens nor closes a session, nor goes to a slot directly, is nothing to the
    registry. -/
theorem registry_perform_of_quiet (W : World C) (i : ThreadId) {call : Call C w}
    (h : ¬ call.Registers) : (W.perform i call).registry = W.registry := by
  cases call with
  | begin | endTrace | drop | takeSlot | replaceSlot => exact absurd trivial h
  | independent s v =>
    show (W.after i (s.independent v) gain).registry = W.registry
    rcases s.independent_cases (i := i) v W.recorder with ⟨f, hexec⟩ | ⟨t, -, -, -, hexec⟩
    · rw [after_of_error hexec]
    · rw [after_of_ok hexec]
      exact W.registry_modifySlot w i fun _ => ⟨rfl, rfl⟩
  | apply op x => exact W.registry_recordUnary i _ _ x
  | frexp x =>
    show (W.after i x.frexp fun answer => gain answer.1).registry = W.registry
    rw [after_frexp]
    exact W.registry_recordUnary i _ _ x
  | combine op x y => exact W.registry_recordBinary i _ x y
  | dependent s x =>
    show (W.after i (s.dependent x) (hear s.serial)).registry = W.registry
    rcases s.dependent_cases (i := i) x W.recorder with ⟨f, hexec⟩ | ⟨t, -, -, -, hexec⟩
    · rw [after_of_error hexec]
    · rw [after_of_ok hexec]
      exact W.registry_modifySlot w i fun t =>
        ⟨Session.id_appendDependent x t, Session.session_appendDependent x t⟩
  | remove store id => exact W.registry_remove i store id

/-- While the process is marked, opening a session changes nothing at all. -/
theorem perform_begin_of_process {W : World C} {active : TapeId}
    (h : W.recorder.process = some active) (store : StoreName) (id : TapeId) (capacity : Nat) :
    W.perform i (.begin store id capacity : Call C w) = W := by
  show W.after i (beginTraceWithCapacity w store id capacity) (hold i) = W
  rcases Session.beginTraceWithCapacity_cases (w := w) (i := i) store id capacity W.recorder with
    ⟨a, -, hexec⟩ | ⟨hnone, -, -⟩ | ⟨u, hnone, -, -⟩ | ⟨hnone, -, -⟩
  · rw [after_of_error hexec]
  all_goals
    rw [h] at hnone
    cases hnone

/-- No call does anything else to the registry. -/
theorem perform_registry {direct : Prop} {call : Call C w} (legal : W.Legal i call)
    (allowed : call.IsDirect → direct) : W.registry.Step direct (W.perform i call).registry := by
  have hquiet : ¬ call.Registers → W.registry.Step direct (W.perform i call).registry := by
    intro h
    rw [W.registry_perform_of_quiet i h]
    exact .idle
  cases call with
  | begin store id capacity =>
    show W.registry.Step direct
      (W.after i (beginTraceWithCapacity w store id capacity) (hold i)).registry
    rcases Session.begin_outcome (i := i) store id capacity W.recorder with
      ⟨f, r, h, rfl | rfl⟩ | ⟨hprocess, hslot, h⟩
    · rw [after_of_error h]
      exact .idle
    · rw [after_of_error h]
      exact .idle
    · rw [after_of_ok h, registry_opened]
      refine .opened i _ hprocess ?_
      show (W.recorder.slot? w i).map _ = none
      rw [hslot, Option.map_none]
  | independent | apply | frexp | combine | dependent | remove => exact hquiet id
  | endTrace s =>
    show W.registry.Step direct ((W.after i s.endTrace ignore).lose i s).registry
    have hexec := s.endTrace_exec (i := i) W.recorder
    have htaken := W.recorder.recording_takeSlot w i s.id
    have hclosed : W.registry.Step direct (W.registry.closed i s) := .closed i s legal
    -- the session is closed whether or not its tape was still in the slot
    cases htake : W.recorder.takeSlot w i s.id with
    | mk found r =>
      rw [htake] at hexec htaken
      have hlabel : r.label = (W.recorder.takeSlot w i s.id).2.label := by rw [htake]
      cases found with
      | none =>
        rw [after_of_error hexec]
        rw [← registry_closed [] htaken hlabel] at hclosed
        exact hclosed
      | some t =>
        have hinsert := r.recording_modifyStore_of_mark w s.store (f := (·.insert s.id t))
          fun _ => rfl
        rw [after_of_ok hexec]
        rw [← registry_closed [.tapeSealed t.stats] (hinsert.trans htaken) hlabel] at hclosed
        exact hclosed
  | drop s =>
    show W.registry.Step direct ((W.after i s.drop ignore).lose i s).registry
    have hclosed : W.registry.Step direct (W.registry.closed i s) := .closed i s legal
    rw [← registry_closed [.sessionDropped s.id] (W.recorder.recording_takeSlot w i s.id) rfl]
      at hclosed
    rw [after_of_ok (s.drop_exec W.recorder)]
    exact hclosed
  | takeSlot =>
    show W.registry.Step direct
      ({ W with recorder := W.recorder.clearSlot w i } : World C).registry
    rw [registry_setSlot none (W.recorder.slot?_clearSlot i)
      (fun v hv => funext fun j => Recorder.slot?_clearSlot_of_ne _ (Or.inl hv)) rfl rfl]
    exact .relabel w i _ (allowed trivial)
  | replaceSlot t =>
    show W.registry.Step direct ({ W with recorder := W.recorder.putSlot i t } : World C).registry
    rw [registry_setSlot (some t) (W.recorder.slot?_putSlot i t)
      (fun v hv => funext fun j => Recorder.slot?_putSlot_of_ne _ t (Or.inl hv)) rfl rfl]
    exact .relabel w i _ (allowed trivial)

end World

/-! ## Who holds the registry -/

namespace Registry

variable {R R' : Registry} {direct : Prop}

/-- No session is open. -/
def noSessions (w : Width) : List (ThreadId × Session w) := []

/-- Nobody records. -/
structure Free (R : Registry) : Prop where
  process : R.process = none
  recording : R.recording = fun _ _ => none
  sessions : R.sessions = noSessions

/-- This session is the only one that is open, and every mark is its own. -/
structure HeldBy (R : Registry) (i : ThreadId) (s : Session w) : Prop where
  process : R.process = some s.id
  recording : R.recording =
    Function.update (fun _ _ => none) w (Function.update (fun _ => none) s.store (some s.id))
  sessions : R.sessions = Function.update noSessions w [(i, s)]

/-- The registry is free, or held by one session. -/
def Exclusive (R : Registry) : Prop :=
  R.Free ∨ ∃ (w : Width) (i : ThreadId) (s : Session w), R.HeldBy i s

/-- And no slot has a tape but that of the open session, if there is one. -/
def Attended (R : Registry) : Prop :=
  (R.Free ∧ R.label = fun _ _ => none) ∨
    ∃ (w : Width) (i : ThreadId) (s : Session w), R.HeldBy i s ∧
      R.label = Function.update (fun _ _ => none) w
        (Function.update (fun _ => none) i (some (s.id, s.serial)))

theorem Free.not_mem (h : R.Free) (x : ThreadId × Session w) : x ∉ R.sessions w := by
  rw [h.sessions]
  exact List.not_mem_nil

theorem HeldBy.mem {s : Session w} (h : R.HeldBy i s) : (i, s) ∈ R.sessions w := by
  rw [h.sessions, Function.update_self]
  exact List.mem_singleton_self _

/-- Where a session holds the registry, an open session is that one: its format, its thread and
    itself. -/
theorem HeldBy.eq_of_mem {v : Width} {j : ThreadId} {s' : Session v} (h : R.HeldBy j s')
    {s : Session w} (hs : (i, s) ∈ R.sessions w) :
    (⟨w, i, s⟩ : (w : Width) × ThreadId × Session w) = ⟨v, j, s'⟩ := by
  rw [h.sessions] at hs
  by_cases hw : w = v
  · subst hw
    rw [Function.update_self, List.mem_singleton] at hs
    cases hs
    rfl
  · rw [Function.update_of_ne hw] at hs
    cases hs

/-- A session that is open holds the registry. -/
theorem Exclusive.heldBy (h : R.Exclusive) {s : Session w} (hs : (i, s) ∈ R.sessions w) :
    R.HeldBy i s := by
  rcases h with hfree | ⟨v, j, s', hheld⟩
  · exact absurd hs (hfree.not_mem _)
  · cases hheld.eq_of_mem hs
    exact hheld

/-- Where the process is not marked the registry is free. -/
theorem Exclusive.free (h : R.Exclusive) (hprocess : R.process = none) : R.Free := by
  rcases h with h | ⟨v, j, s', h⟩
  · exact h
  · rw [h.process] at hprocess
    cases hprocess

theorem Attended.exclusive (h : R.Attended) : R.Exclusive := by
  rcases h with ⟨h, -⟩ | ⟨v, j, s, h, -⟩
  · exact Or.inl h
  · exact Or.inr ⟨v, j, s, h⟩

/-- Opening takes an idle registry to one that is held. -/
theorem Free.opened (h : R.Free) (i : ThreadId) (s : Session w) : (R.opened i s).HeldBy i s := by
  obtain ⟨-, hrecording, hsessions⟩ := h
  refine ⟨rfl, ?_, ?_⟩
  · unfold Registry.opened
    rw [hrecording]
  · unfold Registry.opened
    rw [hsessions]
    rfl

/-- Closing makes it idle again. -/
theorem HeldBy.closed {s : Session w} (h : R.HeldBy i s) : (R.closed i s).Free := by
  obtain ⟨-, hrecording, hsessions⟩ := h
  refine ⟨rfl, ?_, ?_⟩
  · unfold Registry.closed
    rw [hrecording]
    simp
  · unfold Registry.closed
    rw [hsessions, Function.update_self, List.erase_cons_head, Function.update_idem]
    exact Function.update_eq_self w noSessions

/-- Whatever a call does, one session at most holds the registry. -/
theorem Exclusive.step (h : R.Exclusive) (hstep : R.Step direct R') : R'.Exclusive := by
  cases hstep with
  | idle => exact h
  | opened i s hprocess _ => exact Or.inr ⟨_, i, s, (h.free hprocess).opened i s⟩
  | closed i s hs => exact Or.inl (h.heldBy hs).closed
  | relabel w i l _ =>
    rcases h with ⟨hprocess, hrecording, hsessions⟩ | ⟨v, j, s, hprocess, hrecording, hsessions⟩
    · exact Or.inl ⟨hprocess, hrecording, hsessions⟩
    · exact Or.inr ⟨v, j, s, hprocess, hrecording, hsessions⟩

/-- Whatever a call does that leaves the slots alone, the tape in a slot is that of the session that
    holds the registry. -/
theorem Attended.step (h : R.Attended) (hstep : R.Step False R') : R'.Attended := by
  cases hstep with
  | idle => exact h
  | @opened w i s hprocess _ =>
    rcases h with ⟨hfree, hlabel⟩ | ⟨v, j, s', hheld, -⟩
    · refine Or.inr ⟨w, i, s, hfree.opened i s, ?_⟩
      unfold Registry.opened
      rw [hlabel]
    · rw [hheld.process] at hprocess
      cases hprocess
  | @closed w i s hs =>
    have hheld := h.exclusive.heldBy hs
    left
    refine ⟨hheld.closed, ?_⟩
    rcases h with ⟨hfree, -⟩ | ⟨v, j, s', hheld', hlabel⟩
    · exact absurd hs (hfree.not_mem _)
    · -- the session that is closed is the one whose tape is in the slot
      cases hheld'.eq_of_mem hs
      unfold Registry.closed
      rw [hlabel]
      simp
  | relabel _ _ _ hdirect => exact hdirect.elim

/-- The slot of a thread that holds the registry has the tape of its session. -/
theorem Attended.label_of_mem (h : R.Attended) {s : Session w} (hs : (i, s) ∈ R.sessions w) :
    R.label w i = some (s.id, s.serial) := by
  rcases h with ⟨hfree, -⟩ | ⟨v, j, s', hheld, hlabel⟩
  · exact absurd hs (hfree.not_mem _)
  · cases hheld.eq_of_mem hs
    rw [hlabel, Function.update_self, Function.update_self]

/-- And a tape in a slot is that of an open session of the thread. -/
theorem Attended.mem_of_label (h : R.Attended) {l : TapeId × Nat} (hl : R.label w i = some l) :
    ∃ s : Session w, (i, s) ∈ R.sessions w ∧ l = (s.id, s.serial) := by
  rcases h with ⟨-, hlabel⟩ | ⟨v, j, s, hheld, hlabel⟩
  · rw [hlabel] at hl
    cases hl
  · rw [hlabel, update_update_eq_some_iff] at hl
    obtain ⟨rfl, rfl, heq⟩ := hl
    exact ⟨s, hheld.mem, heq.symm⟩

end Registry

/-! ## Every run -/

namespace World

/-- At the start nobody records. -/
theorem registry_start :
    ({} : World C).registry.Free ∧ ({} : World C).registry.label = fun _ _ => none := by
  refine ⟨⟨rfl, ?_, ?_⟩, ?_⟩
  · funext w name
    show (({} : Recorder C).store w name).recording = none
    rw [Recorder.store_start]
  · funext w
    cases w with
    | single => rfl
    | double => rfl
  · funext w i
    show (({} : Recorder C).slot? w i).map _ = none
    rw [Recorder.slot?_start, Option.map_none]

variable [∀ w, Scalar (C w)] [∀ w, Elementary (C w)] {direct : Prop} {W W' : World C}
  {past : List (Turn C)}

/-- So there is one session at most after any run, by induction. -/
theorem Run.exclusive (h : W.Run direct past W') (hW : W.registry.Exclusive) :
    W'.registry.Exclusive := by
  induction h with
  | start => exact hW
  | step _ i call legal allowed ih => exact ih.step (perform_registry legal allowed)

/-- And as long as the slots are left alone, the tapes in them are attended. -/
theorem Run.attended (h : W.Run False past W') (hW : W.registry.Attended) :
    W'.registry.Attended := by
  induction h with
  | start => exact hW
  | step _ i call legal allowed ih => exact ih.step (perform_registry legal allowed)

end World

end DiffTape
