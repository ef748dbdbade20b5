/-
  ONE RECORDING AT A TIME.

  In every run, over all threads, stores and both formats, and even if the slots are tampered
  with: one session at most is open; the marks of the process and of the stores are those of the
  open session; and a session can be opened exactly if none is open and the slot of the thread is
  empty.  A recording that fails midway is no exception, for it is a run of calls like any other.

  The marks are never read off a slot, so what holds of them (`Registry.Exclusive`) needs nothing
  of the slots.  The answer to an attempt to open a session is then read off the marks.
-/
import DiffTape.Proofs.WholeSession
import DiffTape.Scalar.Binary

namespace DiffTape

variable {C : Width → Type} {w : Width} {i : ThreadId}

namespace World

/-- The number of sessions that are open, on all threads and of both formats. -/
def openCount (W : World C) : Nat :=
  (W.sessions.get .single).length + (W.sessions.get .double).length

/-- A session of this id is open. -/
def OpenId (W : World C) (id : TapeId) : Prop :=
  ∃ (w : Width) (i : ThreadId) (s : Session w), (i, s) ∈ W.sessions.get w ∧ s.id = id

/-- A session of this id is open that was begun on this store. -/
def OpenOn (W : World C) (w : Width) (store : StoreName) (id : TapeId) : Prop :=
  ∃ (i : ThreadId) (s : Session w), (i, s) ∈ W.sessions.get w ∧ s.store = store ∧ s.id = id

variable {W : World C}

theorem openCount_of_free (h : W.registry.Free) : W.openCount = 0 := by
  have hnone : ∀ v, W.sessions.get v = [] := congrFun h.sessions
  unfold openCount
  rw [hnone, hnone]
  rfl

theorem openCount_of_heldBy {s : Session w} (h : W.registry.HeldBy i s) : W.openCount = 1 := by
  have hsessions : W.sessions.get = Function.update Registry.noSessions w [(i, s)] := h.sessions
  unfold openCount
  rw [hsessions]
  cases w with
  | single => rfl
  | double => rfl

theorem openCount_le_one (h : W.registry.Exclusive) : W.openCount ≤ 1 := by
  rcases h with h | ⟨v, j, s, h⟩
  · rw [openCount_of_free h]
    exact Nat.zero_le 1
  · exact Nat.le_of_eq (openCount_of_heldBy h)

/-- The mark of the process is that of an open session. -/
theorem process_iff (h : W.registry.Exclusive) (id : TapeId) :
    W.recorder.process = some id ↔ W.OpenId id := by
  constructor
  · intro hid
    rcases h with h | ⟨v, j, s, h⟩
    · have hnone : W.recorder.process = none := h.process
      rw [hnone] at hid
      cases hid
    · have hsome : W.recorder.process = some s.id := h.process
      rw [hsome] at hid
      exact ⟨v, j, s, h.mem, Option.some.inj hid⟩
  · rintro ⟨v, j, s, hs, rfl⟩
    exact (h.heldBy hs).process

/-- The mark of a store is that of an open session that was begun on it. -/
theorem recording_iff (h : W.registry.Exclusive) (w : Width) (store : StoreName) (id : TapeId) :
    W.recorder.recording w store = some id ↔ W.OpenOn w store id := by
  constructor
  · intro hid
    rcases h with h | ⟨v, j, s, h⟩
    · have hnone : W.recorder.recording w store = none :=
        congrFun (congrFun h.recording w) store
      rw [hnone] at hid
      cases hid
    · -- only the mark of the store of the session is set
      have hmark : W.recorder.recording = _ := h.recording
      rw [hmark, update_update_eq_some_iff] at hid
      obtain ⟨rfl, rfl, rfl⟩ := hid
      exact ⟨j, s, h.mem, rfl, rfl⟩
  · rintro ⟨j, s, hs, rfl, rfl⟩
    have hmark : W.recorder.recording = _ := (h.heldBy hs).recording
    rw [hmark, Function.update_self, Function.update_self]

/-- The process is unmarked exactly if no session is open. -/
theorem process_eq_none_iff (h : W.registry.Exclusive) :
    W.recorder.process = none ↔ W.openCount = 0 := by
  constructor
  · intro hnone
    exact openCount_of_free (h.free hnone)
  · intro hzero
    rcases h with h | ⟨v, j, s, h⟩
    · exact h.process
    · rw [openCount_of_heldBy h] at hzero
      cases hzero

/-- A session opens exactly if none is open and the slot of the thread is empty. -/
theorem begin_succeeds_iff (h : W.registry.Exclusive) (i : ThreadId) {w : Width} (store : StoreName)
    (id : TapeId) {capacity : Nat} (hcap : capacity ≤ Tape.maxCapacity) :
    (∃ s r, (beginTraceWithCapacity w store id capacity).exec i W.recorder = (.ok s, r)) ↔
      W.openCount = 0 ∧ W.recorder.slot? w i = none := by
  rw [← process_eq_none_iff h]
  rcases Session.beginTraceWithCapacity_cases (i := i) store id capacity W.recorder with
    ⟨active, hprocess, hexec⟩ | ⟨-, hroom, -⟩ | ⟨t, -, hslot, hexec⟩ | ⟨hprocess, hslot, hexec⟩
  · rw [hexec, hprocess]
    constructor
    · rintro ⟨s, r, ⟨⟩⟩
    · rintro ⟨⟨⟩, -⟩
  · omega
  · rw [hexec, hslot]
    constructor
    · rintro ⟨s, r, ⟨⟩⟩
    · rintro ⟨-, ⟨⟩⟩
  · rw [hexec]
    exact ⟨fun _ => ⟨hprocess, hslot⟩, fun _ => ⟨_, _, rfl⟩⟩

/-- A session that is not opened uses up a serial at most.  The error tells whether this very id is
    being recorded for this store; if not, it names the id that stands in the way. -/
theorem begin_fails (h : W.registry.Exclusive) {store : StoreName} {id : TapeId} {capacity : Nat}
    (hcap : capacity ≤ Tape.maxCapacity) {f : Failure} {r : Recorder C}
    (hexec : (beginTraceWithCapacity w store id capacity).exec i W.recorder = (.error f, r)) :
    (r = W.recorder ∨ r = W.recorder.advanceSerial) ∧
      (f = .error (.tapeAlreadyOpen id) ↔ W.OpenOn w store id) ∧
      (¬ W.OpenOn w store id → ∃ active, f = .error (.recordingInProgress active id) ∧
        (W.OpenId active ∨
          W.openCount = 0 ∧ ∃ t, W.recorder.slot? w i = some t ∧ t.id = active)) := by
  have hmark := recording_iff h w store id
  rcases Session.beginTraceWithCapacity_cases (i := i) store id capacity W.recorder with
    ⟨active, hprocess, hexec'⟩ | ⟨-, hroom, -⟩ | ⟨t, hprocess, hslot, hexec'⟩ | ⟨-, -, hexec'⟩
  · rw [hexec] at hexec'
    cases hexec'
    refine ⟨Or.inl rfl, ?_, fun hopen => ?_⟩
    · rw [← hmark]
      unfold Recorder.recording
      by_cases hid : (W.recorder.store w store).recording = some id
      · simp [hid]
      · simp [hid]
    · rw [← hmark] at hopen
      have hother : ¬ (W.recorder.store w store).recording = some id := hopen
      refine ⟨active, ?_, Or.inl ((process_iff h active).mp hprocess)⟩
      rw [if_neg hother]
  · omega
  · rw [hexec] at hexec'
    cases hexec'
    have hzero := (process_eq_none_iff h).mp hprocess
    refine ⟨Or.inr rfl, ⟨fun hf => (nomatch hf), fun hopen => ?_⟩, fun _ => ?_⟩
    · -- no session is open, let alone on this store
      obtain ⟨j, s, hs, -, -⟩ := hopen
      exact absurd hs ((h.free hprocess).not_mem _)
    · exact ⟨t.id, rfl, Or.inr ⟨hzero, t, hslot, rfl⟩⟩
  · rw [hexec] at hexec'
    cases hexec'

end World

variable [∀ w, Scalar (C w)] [∀ w, Elementary (C w)]

/-- After every call of every run, direct access to the slots included, one session at most is open;
    the marks of the process and of the stores are its marks, and there are none without it.  A
    session opens exactly if none is open and the slot of the thread is empty; if it does not, that
    is an error which tells why, and nothing but a serial is used up.  And to record a piece of
    traced code as a whole is a run of calls, even if the code fails, so all this holds then too. -/
theorem recording_exclusive {W : World C} {past : List (Turn C)}
    (h : ({} : World C).Run True past W) :
    W.openCount ≤ 1 ∧
      (∀ id, W.recorder.process = some id ↔ W.OpenId id) ∧
      (W.recorder.process = none ↔ W.openCount = 0) ∧
      (∀ w store id, W.recorder.recording w store = some id ↔ W.OpenOn w store id) ∧
      (∀ i w store id capacity, capacity ≤ Tape.maxCapacity →
        ((∃ s r, (beginTraceWithCapacity w store id capacity).exec i W.recorder = (.ok s, r)) ↔
          W.openCount = 0 ∧ W.recorder.slot? w i = none) ∧
        ∀ f r, (beginTraceWithCapacity w store id capacity).exec i W.recorder = (.error f, r) →
          (r = W.recorder ∨ r = W.recorder.advanceSerial) ∧
          (f = .error (.tapeAlreadyOpen id) ↔ W.OpenOn w store id) ∧
          (¬ W.OpenOn w store id → ∃ active, f = .error (.recordingInProgress active id) ∧
            (W.OpenId active ∨
              W.openCount = 0 ∧ ∃ t, W.recorder.slot? w i = some t ∧ t.id = active))) ∧
      ∀ i w store id (x : Array (C w)) body, W.Traces True i body →
        ∃ past' answer W', W.Run True past' W' ∧
          (record store id x body).exec i W.recorder = (answer, W'.recorder) ∧
          W'.sessions = W.sessions := by
  have hexclusive := h.exclusive (Or.inl World.registry_start.1)
  exact ⟨World.openCount_le_one hexclusive, World.process_iff hexclusive,
    World.process_eq_none_iff hexclusive, World.recording_iff hexclusive,
    fun i w store id capacity hcap => ⟨World.begin_succeeds_iff hexclusive i store id hcap,
      fun f r hexec => World.begin_fails hexclusive hcap hexec⟩,
    fun i w store id x body hbody => World.record_does hbody store id x⟩

/-- While a session is open on one thread, and although its tape was taken away, its id cannot be
    opened on another thread, and neither can another id. -/
theorem recording_exclusive_of_taken_tape :
    ∃ (past : List (Turn Width.Number)) (W : World Width.Number),
      ({} : World Width.Number).Run True past W ∧ W.recorder.slot? .double 0 = none ∧
      W.openCount = 1 ∧
      (∀ f r, (beginTraceWithCapacity .double "a" 7 0).exec 1 W.recorder = (.error f, r) →
        f = .error (.tapeAlreadyOpen 7)) ∧
      ¬ ∃ s r, (beginTraceWithCapacity .single "a" 8 0).exec 1 W.recorder = (.ok s, r) := by
  let W₁ := ({} : World Width.Number).perform 0 (.begin "a" 7 0 : Call _ .double)
  let W := W₁.perform 0 (.takeSlot : Call _ .double)
  have h₁ : ({} : World Width.Number).Run True _ W₁ := .call trivial fun _ => trivial
  have h : ({} : World Width.Number).Run True _ W := h₁.step 0 .takeSlot trivial fun _ => trivial
  obtain ⟨-, -, -, -, hbegin, -⟩ := recording_exclusive h
  have hcount : W.openCount = 1 := rfl
  refine ⟨_, W, h, W₁.recorder.slot?_clearSlot_self .double 0, hcount, fun f r hexec => ?_, ?_⟩
  · have hopen : W.OpenOn .double "a" 7 := ⟨0, ⟨"a", 7, 1⟩, List.mem_singleton_self _, rfl, rfl⟩
    exact ((hbegin 1 .double "a" 7 0 (Nat.zero_le _)).2 f r hexec).2.1.mpr hopen
  · rw [(hbegin 1 .single "a" 8 0 (Nat.zero_le _)).1, hcount]
    rintro ⟨⟨⟩, -⟩

end DiffTape
