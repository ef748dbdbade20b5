/-
  CALLS IN CRITICAL SECTIONS.

  Most calls are one critical section.  Three are not, and between two of their sections any other
  thread may come in:

    ending a session   — take the tape out of the slot; put it in the map; clear the mark of the
                         store; clear the mark of the process
    dropping it        — the same without the map
    looking up a tape  — read the mark of the store; read the map

  A `Floor` is a world with what every thread is in the midst of.

  1. `Floor.perform`        — one section: a call is begun, or the one that was begun goes on
  2. `…_uninterrupted`      — where nobody comes in between, the sections are the call
  3. `Floor.Ordered`        — nobody closes a session, and the registry is attended; or ONE thread
                              closes one, and the marks are those of that session, as far as they
                              are not cleared
  4. `Ordered.perform`      — the step; `Floor.Run.ordered` the induction

  The order of the sections is what carries 3: the process is unmarked last, so no session opens
  while another one still has a mark anywhere.
-/
import DiffTape.Proofs.Sealing

namespace DiffTape

variable {C : Width → Type} {w v : Width} {i j : ThreadId}

/-! ## Sections -/

/-- What a thread is in the midst of. -/
inductive Activity (C : Width → Type) where
  | idle
  /-- The tape is out of the slot, and is put in the map next. -/
  | sealing {w : Width} (s : Session w) (t : Tape (C w))
  /-- The mark of the store is cleared next. -/
  | unmarking {w : Width} (s : Session w) (events : List Event)
  /-- The mark of the process is cleared next. -/
  | freeing {w : Width} (s : Session w) (events : List Event)
  /-- The mark of the store was read, and the map is read next. -/
  | looking (w : Width) (store : StoreName) (id : TapeId) (mark : Option TapeId)

namespace Activity

/-- The session that is being closed. -/
def closes : Activity C → Option ((w : Width) × Session w)
  | .sealing s _ | .unmarking s _ | .freeing s _ => some ⟨_, s⟩
  | .idle | .looking .. => none

/-- The session that is being closed, as long as the store has its mark. -/
def marks : Activity C → Option ((w : Width) × Session w)
  | .sealing s _ | .unmarking s _ => some ⟨_, s⟩
  | .idle | .freeing .. | .looking .. => none

end Activity

/-- A world, and what every thread is in the midst of. -/
structure Floor (C : Width → Type) where
  world : World C := {}
  activity : ThreadId → Activity C := fun _ => .idle

/-- What a thread can do without being interrupted. -/
inductive Section (C : Width → Type) where
  /-- It begins a call, which for most calls is all there is. -/
  | call {w : Width} (c : Call C w)
  /-- It begins to look up a tape. -/
  | look (w : Width) (store : StoreName) (id : TapeId)
  /-- It goes on with what it began. -/
  | next

/-- The call closes a session. -/
def Call.Closes : Call C w → Prop
  | .endTrace _ | .drop _ => True
  | _ => False

namespace Floor

/-- The world is another one, and so is what the thread is in the midst of. -/
def turn (Φ : Floor C) (i : ThreadId) (a : Activity C) (W : World C) : Floor C where
  world := W
  activity := Function.update Φ.activity i a

/-- The first section of a lookup: the mark is read. -/
def look (Φ : Floor C) (i : ThreadId) (w : Width) (store : StoreName) (id : TapeId) : Floor C :=
  Φ.turn i (.looking w store id (Φ.world.recorder.store w store).recording) Φ.world

/-- The next section of what the thread is in the midst of. -/
def next (Φ : Floor C) (i : ThreadId) : Floor C :=
  let r := Φ.world.recorder
  match Φ.activity i with
  | .idle => Φ
  | @Activity.sealing _ w s t =>
    Φ.turn i (.unmarking s [.tapeSealed t.stats])
      { Φ.world with recorder := r.modifyStore w s.store (·.insert s.id t) }
  | @Activity.unmarking _ w s events =>
    Φ.turn i (.freeing s events)
      { Φ.world with recorder := r.modifyStore w s.store (·.unmark s.id) }
  | .freeing _ events => Φ.turn i .idle { Φ.world with recorder := r.unmarkProcess.note events }
  | .looking .. => Φ.turn i .idle Φ.world

/-- What the next section answers to a lookup of the thread. -/
def Answers (Φ : Floor C) (i : ThreadId) (w : Width) (store : StoreName) (id : TapeId)
    (answer : Except Error (Tape (C w))) : Prop :=
  ∃ mark, Φ.activity i = .looking w store id mark ∧
    answer = Store.tapeAfter mark (Φ.world.recorder.store w store) id

/-- The session is between its first section and its last: it is open on the thread, or is being
    closed there. -/
def InFlight (Φ : Floor C) (i : ThreadId) (s : Session w) : Prop :=
  (i, s) ∈ Φ.world.sessions.get w ∨ (Φ.activity i).closes = some ⟨w, s⟩

/-- The session has marked its store, and has not cleared that mark. -/
def Marks (Φ : Floor C) (i : ThreadId) (s : Session w) : Prop :=
  (i, s) ∈ Φ.world.sessions.get w ∨ (Φ.activity i).marks = some ⟨w, s⟩

variable [∀ w, Scalar (C w)] [∀ w, Elementary (C w)]

/-- The first section of a call. -/
def start (Φ : Floor C) (i : ThreadId) (c : Call C w) : Floor C :=
  match c with
  | .endTrace s =>
    match Φ.world.recorder.takeSlot w i s.id with
    | (some t, r) => Φ.turn i (.sealing s t) (({ Φ.world with recorder := r } : World C).lose i s)
    | (none, r) => Φ.turn i (.unmarking s []) (({ Φ.world with recorder := r } : World C).lose i s)
  | .drop s =>
    let r := (Φ.world.recorder.takeSlot w i s.id).2
    Φ.turn i (.unmarking s [.sessionDropped s.id])
      (({ Φ.world with recorder := r } : World C).lose i s)
  | c => { Φ with world := Φ.world.perform i c }

/-- One section. -/
def perform (Φ : Floor C) (i : ThreadId) : Section C → Floor C
  | .call c => Φ.start i c
  | .look w store id => Φ.look i w store id
  | .next => Φ.next i

omit [∀ w, Scalar (C w)] [∀ w, Elementary (C w)] in
/-- A thread begins something when it is idle, and goes on when it is not.  It can make any call
    that the host can make, but does not go to the slots directly. -/
def Legal (Φ : Floor C) (i : ThreadId) : Section C → Prop
  | .call c => Φ.activity i = .idle ∧ Φ.world.Legal i c ∧ ¬ c.IsDirect
  | .look .. => Φ.activity i = .idle
  | .next => Φ.activity i ≠ .idle

end Floor

/-- A section that was performed, and the floor on which it was. -/
structure Moment (C : Width → Type) where
  before : Floor C
  thread : ThreadId
  part : Section C

/-- Any interleaving of sections, by any number of threads, oldest first. -/
inductive Floor.Run [∀ w, Scalar (C w)] [∀ w, Elementary (C w)] (Φ : Floor C) :
    List (Moment C) → Floor C → Prop
  | start : Run Φ [] Φ
  | step {past : List (Moment C)} {Φ' : Floor C} (h : Run Φ past Φ') (i : ThreadId)
      (part : Section C) (legal : Φ'.Legal i part) :
      Run Φ (past ++ [⟨Φ', i, part⟩]) (Φ'.perform i part)

namespace Floor

variable {Φ : Floor C} {s : Session w}

/-! ## What one section does -/

@[simp] theorem activity_turn_self (Φ : Floor C) (i : ThreadId) (a : Activity C) (W : World C) :
    (Φ.turn i a W).activity i = a :=
  Function.update_self ..

theorem activity_turn_of_ne (Φ : Floor C) (a : Activity C) (W : World C) (h : j ≠ i) :
    (Φ.turn i a W).activity j = Φ.activity j :=
  Function.update_of_ne h ..

/-- Of two turns of a thread only the second is seen. -/
theorem turn_turn (Φ : Floor C) (i : ThreadId) (a b : Activity C) (W W' : World C) :
    (Φ.turn i a W).turn i b W' = Φ.turn i b W' := by
  unfold turn
  rw [Function.update_idem]

/-- A thread that is idle again is as if it had never begun. -/
theorem turn_idle (hidle : Φ.activity i = .idle) (W : World C) :
    Φ.turn i .idle W = { Φ with world := W } := by
  unfold turn
  rw [← hidle, Function.update_eq_self]

theorem next_of_sealing {t : Tape (C w)} (h : Φ.activity i = .sealing s t) :
    Φ.next i = Φ.turn i (.unmarking s [.tapeSealed t.stats])
      { Φ.world with recorder := Φ.world.recorder.modifyStore w s.store (·.insert s.id t) } := by
  unfold next
  rw [h]

theorem next_of_unmarking {events : List Event} (h : Φ.activity i = .unmarking s events) :
    Φ.next i = Φ.turn i (.freeing s events)
      { Φ.world with recorder := Φ.world.recorder.modifyStore w s.store (·.unmark s.id) } := by
  unfold next
  rw [h]

theorem next_of_freeing {events : List Event} (h : Φ.activity i = .freeing s events) :
    Φ.next i = Φ.turn i .idle
      { Φ.world with recorder := Φ.world.recorder.unmarkProcess.note events } := by
  unfold next
  rw [h]

theorem next_of_looking {store : StoreName} {id : TapeId} {mark : Option TapeId}
    (h : Φ.activity i = .looking w store id mark) : Φ.next i = Φ.turn i .idle Φ.world := by
  unfold next
  rw [h]

theorem next_of_idle (h : Φ.activity i = .idle) : Φ.next i = Φ := by
  unfold next
  rw [h]

/-- The mark of a store, and then that of the process, are cleared. -/
theorem next_next_of_unmarking {events : List Event} (h : Φ.activity i = .unmarking s events) :
    (Φ.next i).next i = Φ.turn i .idle
      { Φ.world with recorder := (s.released Φ.world.recorder).note events } := by
  rw [next_of_unmarking h, next_of_freeing (activity_turn_self ..), turn_turn]
  rfl

/-- Where nobody comes in between, a lookup answers what the store has, and changes nothing. -/
theorem look_uninterrupted (hidle : Φ.activity i = .idle) (store : StoreName) (id : TapeId) :
    (Φ.look i w store id).Answers i w store id ((Φ.world.recorder.store w store).tape id) ∧
      (Φ.look i w store id).next i = Φ := by
  refine ⟨⟨_, activity_turn_self .., rfl⟩, ?_⟩
  unfold look
  rw [next_of_looking (activity_turn_self ..), turn_turn]
  exact turn_idle hidle _

variable [∀ w, Scalar (C w)] [∀ w, Elementary (C w)]

/-- A call that closes no session is one section. -/
theorem start_eq {c : Call C w} (h : ¬ c.Closes) :
    Φ.start i c = { Φ with world := Φ.world.perform i c } := by
  cases c with
  | endTrace | drop => exact absurd trivial h
  | _ => rfl

theorem start_endTrace_of_some {t : Tape (C w)} {r : Recorder C}
    (h : Φ.world.recorder.takeSlot w i s.id = (some t, r)) : Φ.start i (.endTrace s) =
      Φ.turn i (.sealing s t) (({ Φ.world with recorder := r } : World C).lose i s) := by
  unfold start
  simp only [h]

theorem start_endTrace_of_none {r : Recorder C}
    (h : Φ.world.recorder.takeSlot w i s.id = (none, r)) : Φ.start i (.endTrace s) =
      Φ.turn i (.unmarking s []) (({ Φ.world with recorder := r } : World C).lose i s) := by
  unfold start
  simp only [h]

/-- The first section of closing a session: whether it is ended or dropped, its tape is taken out of
    the slot, and the marks stay. -/
theorem start_of_closes (Φ : Floor C) (i : ThreadId) {c : Call C w} (h : c.Closes) :
    ∃ (s : Session w) (a : Activity C),
      (Φ.world.Legal i c → (i, s) ∈ Φ.world.sessions.get w) ∧
      a.closes = some ⟨w, s⟩ ∧ a.marks.isSome ∧
      (∀ t : Tape (C w), a = .sealing s t → (Φ.world.recorder.takeSlot w i s.id).1 = some t) ∧
      Φ.start i c = Φ.turn i a (({ Φ.world with
        recorder := (Φ.world.recorder.takeSlot w i s.id).2 } : World C).lose i s) := by
  cases c with
  | endTrace s =>
    cases htake : Φ.world.recorder.takeSlot w i s.id with
    | mk found r =>
      cases found with
      | none =>
        refine ⟨s, .unmarking s [], id, rfl, rfl, ?_, ?_⟩
        · rintro t ⟨⟩
        · rw [htake]
          exact start_endTrace_of_none htake
      | some t =>
        refine ⟨s, .sealing s t, id, rfl, rfl, ?_, ?_⟩
        · rintro t' ⟨⟩
          rw [htake]
        · rw [htake]
          exact start_endTrace_of_some htake
  | drop s =>
    refine ⟨s, .unmarking s [.sessionDropped s.id], id, rfl, rfl, ?_, rfl⟩
    rintro t ⟨⟩
  | _ => cases h

/-- Where nobody comes in between, the sections of ending a session are the call. -/
theorem endTrace_uninterrupted (hidle : Φ.activity i = .idle) (s : Session w) :
    (((Φ.start i (.endTrace s)).next i).next i).next i =
      { Φ with world := Φ.world.perform i (.endTrace s) } := by
  have hexec := s.endTrace_exec (i := i) Φ.world.recorder
  show _ = { Φ with world := (Φ.world.after i s.endTrace World.ignore).lose i s }
  cases htake : Φ.world.recorder.takeSlot w i s.id with
  | mk found r =>
    rw [htake] at hexec
    cases found with
    | none =>
      -- there is no tape to put in the map, so the last section finds the thread idle
      have hnote : (s.released r).note [] = s.released r := by
        unfold Recorder.note
        rw [Array.appendList_nil]
      rw [World.after_of_error hexec, start_endTrace_of_none htake,
        next_next_of_unmarking (activity_turn_self ..), turn_turn,
        next_of_idle (activity_turn_self ..), turn_idle hidle, ← hnote]
      rfl
    | some t =>
      rw [World.after_of_ok hexec, start_endTrace_of_some htake,
        next_of_sealing (activity_turn_self ..), turn_turn,
        next_next_of_unmarking (activity_turn_self ..), turn_turn, turn_idle hidle]
      rfl

/-- And so are those of dropping it. -/
theorem drop_uninterrupted (hidle : Φ.activity i = .idle) (s : Session w) :
    ((Φ.start i (.drop s)).next i).next i =
      { Φ with world := Φ.world.perform i (.drop s) } := by
  show _ = { Φ with world := (Φ.world.after i s.drop World.ignore).lose i s }
  rw [World.after_of_ok (s.drop_exec Φ.world.recorder)]
  unfold start
  rw [next_next_of_unmarking (activity_turn_self ..), turn_turn, turn_idle hidle]
  rfl

end Floor

/-! ## Who closes a session -/

/-- The session is open no more, and no slot has a tape.  The process still has its mark, and so has
    its store, if `marked`. -/
structure Registry.HalfClosed (R : Registry) (s : Session w) (marked : Bool) : Prop where
  process : R.process = some s.id
  recording : R.recording = if marked then
    Function.update (fun _ _ => none) w (Function.update (fun _ => none) s.store (some s.id))
    else fun _ _ => none
  sessions : R.sessions = Registry.noSessions
  label : R.label = fun _ _ => none

theorem Activity.marks_eq {a : Activity C} {x : (w : Width) × Session w} (h : a.closes = some x)
    (hmarked : a.marks.isSome) : a.marks = some x := by
  cases a with
  | sealing | unmarking => exact h
  | idle | freeing | looking => cases hmarked

namespace Floor

variable {Φ : Floor C} {s : Session w}

/-- The thread closes this session, and nobody else closes or holds one. -/
structure Closing (Φ : Floor C) (i : ThreadId) (s : Session w) : Prop where
  closes : (Φ.activity i).closes = some ⟨w, s⟩
  alone : ∀ j ≠ i, (Φ.activity j).closes = none
  registry : Φ.world.registry.HalfClosed s (Φ.activity i).marks.isSome
  /-- The tape that is out of the slot is that of the session. -/
  owns : ∀ t : Tape (C w), Φ.activity i = .sealing s t → s.Owns t

/-- Nobody closes a session, or one thread does. -/
def Ordered (Φ : Floor C) : Prop :=
  (Φ.world.registry.Attended ∧ ∀ j, (Φ.activity j).closes = none) ∨
    ∃ (w : Width) (i : ThreadId) (s : Session w), Φ.Closing i s

/-- At the start every thread is idle. -/
theorem ordered_start : ({} : Floor C).Ordered :=
  Or.inl ⟨Or.inl World.registry_start, fun _ => rfl⟩

/-- A change of the world that is nothing to the registry. -/
theorem Closing.of_registry (h : Φ.Closing i s) {W : World C}
    (hW : W.registry = Φ.world.registry) : ({ Φ with world := W } : Floor C).Closing i s :=
  ⟨h.closes, h.alone, hW ▸ h.registry, h.owns⟩

/-- What other threads do that has nothing to do with closing. -/
theorem Ordered.aside (h : Φ.Ordered) {a : Activity C} (ha : a.closes = none)
    (hi : (Φ.activity i).closes = none) : (Φ.turn i a Φ.world).Ordered := by
  have hnone : ∀ j, (Φ.activity j).closes = none →
      ((Φ.turn i a Φ.world).activity j).closes = none := by
    intro j hj
    by_cases hji : j = i
    · subst hji
      rw [activity_turn_self]
      exact ha
    · rw [activity_turn_of_ne _ _ _ hji]
      exact hj
  rcases h with ⟨hattended, hcloses⟩ | ⟨w, j, s, h⟩
  · exact Or.inl ⟨hattended, fun j => hnone j (hcloses j)⟩
  · have hji : j ≠ i := by
      rintro rfl
      rw [h.closes] at hi
      cases hi
    have hsame : (Φ.turn i a Φ.world).activity j = Φ.activity j := activity_turn_of_ne _ _ _ hji
    exact Or.inr ⟨w, j, s, ⟨hsame ▸ h.closes, fun k hk => hnone k (h.alone k hk),
      hsame ▸ h.registry, hsame ▸ h.owns⟩⟩

/-- Taking the tape of the open session out of the slot half closes it. -/
theorem halfClosed_of_take {W : World C} (h : W.registry.Attended)
    (hs : (i, s) ∈ W.sessions.get w) :
    (({ W with recorder := (W.recorder.takeSlot w i s.id).2 } : World C).lose i
      s).registry.HalfClosed s true := by
  have hheld := h.exclusive.heldBy hs
  -- slots and sessions are as if the session had been closed
  have hclosed : (W.registry.closed i s).label = fun _ _ => none := by
    have hstep : W.registry.Step False (W.registry.closed i s) := .closed i s hs
    rcases h.step hstep with ⟨-, hlabel⟩ | ⟨v, j, s', hheld', -⟩
    · exact hlabel
    · cases hheld'.process
  refine ⟨?_, ?_, ?_, ?_⟩
  · rcases W.recorder.takeSlot_cases w i s.id with htake | ⟨t, -, htake⟩
    · rw [htake]
      exact hheld.process
    · rw [htake]
      exact hheld.process
  · show (W.recorder.takeSlot w i s.id).2.recording = _
    rw [Recorder.recording_takeSlot]
    exact hheld.recording
  · rw [← hheld.closed.sessions]
    exact W.sessions.get_modify w (·.erase (i, s))
  · rw [← hclosed]
    exact W.recorder.label_takeSlot w i s.id

/-- So the thread that does it is closing the session. -/
theorem closing_of_take (h : Φ.world.registry.Attended)
    (hcloses : ∀ j, (Φ.activity j).closes = none) (hs : (i, s) ∈ Φ.world.sessions.get w)
    {a : Activity C} (ha : a.closes = some ⟨w, s⟩) (hmarks : a.marks.isSome)
    (howns : ∀ t : Tape (C w), a = .sealing s t → s.Owns t) :
    (Φ.turn i a (({ Φ.world with recorder := (Φ.world.recorder.takeSlot w i s.id).2 } :
      World C).lose i s)).Closing i s := by
  refine ⟨?_, fun j hj => ?_, ?_, ?_⟩
  · rw [activity_turn_self]
    exact ha
  · rw [activity_turn_of_ne _ _ _ hj]
    exact hcloses j
  · rw [activity_turn_self, hmarks]
    exact halfClosed_of_take h hs
  · rw [activity_turn_self]
    exact howns

variable [∀ w, Scalar (C w)] [∀ w, Elementary (C w)]

/-- A call that is made while nobody closes a session. -/
theorem ordered_start_of_attended (h : Φ.world.registry.Attended)
    (hcloses : ∀ j, (Φ.activity j).closes = none) {c : Call C w} (legal : Φ.world.Legal i c)
    (indirect : ¬ c.IsDirect) : (Φ.start i c).Ordered := by
  by_cases hc : c.Closes
  · obtain ⟨s, a, hopen, ha, hmarks, htaken, hstart⟩ := Φ.start_of_closes i hc
    have hs := hopen legal
    rw [hstart]
    refine Or.inr ⟨w, i, s, closing_of_take h hcloses hs ha hmarks fun t ht => ?_⟩
    -- the slot has the label of the open session
    have hlabel : (Φ.world.recorder.slot? w i).map (fun t => (t.id, t.session)) =
        some (s.id, s.serial) := h.label_of_mem hs
    have hfound := htaken t ht
    rcases Φ.world.recorder.takeSlot_cases w i s.id with hnone | ⟨u, hslot, hsome⟩
    · rw [hnone] at hfound
      cases hfound
    · rw [hsome] at hfound
      cases hfound
      rw [hslot] at hlabel
      exact Prod.mk.inj (Option.some.inj hlabel)
  · rw [start_eq hc]
    exact Or.inl ⟨h.step (World.perform_registry legal indirect), hcloses⟩

/-- A call that is made while another thread closes a session: none is opened or closed. -/
theorem Closing.start (h : Φ.Closing j s) {c : Call C v} (legal : Φ.world.Legal i c)
    (indirect : ¬ c.IsDirect) : (Φ.start i c).Closing j s := by
  have hsessions : Φ.world.sessions.get v = [] := congrFun h.registry.sessions v
  have hclosed : ¬ c.Closes := by
    intro hc
    obtain ⟨s', -, hopen, -⟩ := Φ.start_of_closes i hc
    have hs' := hopen legal
    rw [hsessions] at hs'
    cases hs'
  rw [start_eq hclosed]
  refine h.of_registry ?_
  by_cases hregisters : c.Registers
  · cases c with
    | begin store id capacity => rw [World.perform_begin_of_process h.registry.process]
    | endTrace | drop => exact absurd trivial hclosed
    | takeSlot | replaceSlot => exact absurd trivial indirect
    | _ => cases hregisters
  · exact Φ.world.registry_perform_of_quiet i hregisters

omit [∀ w, Scalar (C w)] [∀ w, Elementary (C w)] in
/-- The thread that closes the session goes on: it keeps closing it, or everything is at rest. -/
theorem Closing.next (h : Φ.Closing i s) : (Φ.next i).Ordered := by
  have hclosing : ∀ {a : Activity C} {r : Recorder C}, a.closes = some ⟨w, s⟩ →
      (∀ t : Tape (C w), a ≠ .sealing s t) →
      ({ Φ.world with recorder := r } : World C).registry.HalfClosed s a.marks.isSome →
      (Φ.turn i a { Φ.world with recorder := r }).Ordered := by
    intro a r ha hsealing hregistry
    refine Or.inr ⟨w, i, s, ?_, fun j hj => ?_, ?_, ?_⟩
    · rw [activity_turn_self]
      exact ha
    · rw [activity_turn_of_ne _ _ _ hj]
      exact h.alone j hj
    · rw [activity_turn_self]
      exact hregistry
    · rw [activity_turn_self]
      exact fun t ht => absurd ht (hsealing t)
  obtain ⟨hcloses, halone, hregistry, -⟩ := h
  cases ha : Φ.activity i with
  | idle | looking =>
    rw [ha] at hcloses
    cases hcloses
  | sealing s' t =>
    rw [ha] at hcloses hregistry
    cases hcloses
    rw [next_of_sealing ha]
    refine hclosing rfl (fun t ht => nomatch ht) ⟨hregistry.process, ?_, hregistry.sessions,
      hregistry.label⟩
    exact (Recorder.recording_modifyStore_of_mark _ w s.store (f := (·.insert s.id t))
      fun _ => rfl).trans hregistry.recording
  | unmarking s' events =>
    rw [ha] at hcloses hregistry
    cases hcloses
    rw [next_of_unmarking ha]
    refine hclosing rfl (fun t ht => nomatch ht) ⟨hregistry.process, ?_, hregistry.sessions,
      hregistry.label⟩
    refine (Recorder.recording_released s Φ.world.recorder).trans ?_
    have hrecording : Φ.world.recorder.recording = _ := hregistry.recording
    rw [hrecording]
    simp [Activity.marks]
  | freeing s' events =>
    rw [ha] at hcloses hregistry
    cases hcloses
    rw [next_of_freeing ha]
    refine Or.inl ⟨Or.inl ⟨⟨rfl, hregistry.recording, hregistry.sessions⟩, hregistry.label⟩,
      fun j => ?_⟩
    by_cases hj : j = i
    · subst hj
      rw [activity_turn_self]
      rfl
    · rw [activity_turn_of_ne _ _ _ hj]
      exact halone j hj

omit [∀ w, Scalar (C w)] [∀ w, Elementary (C w)] in
/-- A thread that goes on, and closes nothing, was looking. -/
theorem next_of_not_closes (hbusy : Φ.activity i ≠ .idle) (h : (Φ.activity i).closes = none) :
    Φ.next i = Φ.turn i .idle Φ.world := by
  cases ha : Φ.activity i with
  | idle => exact absurd ha hbusy
  | sealing | unmarking | freeing =>
    rw [ha] at h
    cases h
  | looking => exact next_of_looking ha

/-- THE STEP.  Every section leaves the floor in order. -/
theorem Ordered.perform (h : Φ.Ordered) {part : Section C} (legal : Φ.Legal i part) :
    (Φ.perform i part).Ordered := by
  cases part with
  | call c =>
    obtain ⟨-, hlegal, hindirect⟩ := legal
    rcases h with ⟨hattended, hcloses⟩ | ⟨w, j, s, h⟩
    · exact ordered_start_of_attended hattended hcloses hlegal hindirect
    · exact Or.inr ⟨w, j, s, h.start hlegal hindirect⟩
  | look w store id =>
    have hidle : Φ.activity i = .idle := legal
    exact h.aside rfl (by rw [hidle]; rfl)
  | next =>
    show (Φ.next i).Ordered
    by_cases hi : (Φ.activity i).closes = none
    · rw [next_of_not_closes legal hi]
      exact h.aside rfl hi
    · rcases h with ⟨-, hcloses⟩ | ⟨w, j, s, h⟩
      · exact absurd (hcloses i) hi
      · by_cases hij : i = j
        · rw [hij]
          exact h.next
        · exact absurd (h.alone i hij) hi

/-- THE INDUCTION.  So does every interleaving. -/
theorem Run.ordered {Φ' : Floor C} {past : List (Moment C)} (h : Φ.Run past Φ') (hΦ : Φ.Ordered) :
    Φ'.Ordered := by
  induction h with
  | start => exact hΦ
  | step _ i part legal ih => exact ih.perform legal

/-! ## What order is good for -/

omit [∀ w, Scalar (C w)] [∀ w, Elementary (C w)] in
/-- The mark of a store is that of a session in flight, which has also marked the process. -/
theorem Ordered.marks (h : Φ.Ordered) {store : StoreName} {id : TapeId}
    (hmark : (Φ.world.recorder.store w store).recording = some id) :
    Φ.world.recorder.process = some id ∧
      ∃ (i : ThreadId) (s : Session w), Φ.Marks i s ∧ s.store = store ∧ s.id = id := by
  have hmark' : Φ.world.registry.recording w store = some id := hmark
  rcases h with ⟨hattended, -⟩ | ⟨v, j, s, h⟩
  · rcases hattended.exclusive with hfree | ⟨v, j, s, hheld⟩
    · rw [hfree.recording] at hmark'
      cases hmark'
    · rw [hheld.recording, update_update_eq_some_iff] at hmark'
      obtain ⟨rfl, rfl, rfl⟩ := hmark'
      exact ⟨hheld.process, j, s, Or.inl hheld.mem, rfl, rfl⟩
  · rw [h.registry.recording] at hmark'
    by_cases hmarked : (Φ.activity j).marks.isSome
    · rw [if_pos hmarked, update_update_eq_some_iff] at hmark'
      obtain ⟨rfl, rfl, rfl⟩ := hmark'
      exact ⟨h.registry.process, j, s, Or.inr (Activity.marks_eq h.closes hmarked), rfl, rfl⟩
    · rw [if_neg hmarked] at hmark'
      cases hmark'

omit [∀ w, Scalar (C w)] [∀ w, Elementary (C w)] in
/-- Two sessions in flight are one, on one thread. -/
theorem Ordered.inFlight_unique (h : Φ.Ordered) {s : Session w} {s' : Session v}
    (hs : Φ.InFlight i s) (hs' : Φ.InFlight j s') :
    (⟨w, i, s⟩ : (w : Width) × ThreadId × Session w) = ⟨v, j, s'⟩ := by
  rcases h with ⟨hattended, hcloses⟩ | ⟨u, k, q, h⟩
  · have hopen : ∀ {w : Width} {i : ThreadId} {s : Session w}, Φ.InFlight i s →
        (i, s) ∈ Φ.world.sessions.get w := by
      intro w i s hs
      refine hs.resolve_right ?_
      rw [hcloses i]
      exact fun h => nomatch h
    exact (hattended.exclusive.heldBy (hopen hs')).eq_of_mem (hopen hs)
  · have hclosing : ∀ {w : Width} {i : ThreadId} {s : Session w}, Φ.InFlight i s →
        (⟨w, i, s⟩ : (w : Width) × ThreadId × Session w) = ⟨u, k, q⟩ := by
      rintro w i s (hs | hs)
      · have hnone : Φ.world.sessions.get w = [] := congrFun h.registry.sessions w
        rw [hnone] at hs
        cases hs
      · by_cases hik : i = k
        · subst hik
          rw [h.closes] at hs
          cases hs
          rfl
        · rw [h.alone i hik] at hs
          cases hs
    exact (hclosing hs).trans (hclosing hs').symm

end Floor

end DiffTape
