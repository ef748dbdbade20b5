/-
  ALL OR NOTHING.

  `record` opens a session, runs a closure in it, and seals the tape, or it drops the session and
  seals nothing.  The closure may do anything but go to the slots: compute with any handles, try to
  open sessions of its own, remove tapes, answer handles of other sessions, fail at any point.  That
  it is not given the session is `World.Confined`.

  `record_all_or_nothing` follows the stages of a recording:

  1. `inProgress_opened`       — opening: the tape of the session is empty;
  2. `InProgress.independents` — binding `x`: the tape has the inputs `x`;
  3. `InProgress.run`          — the closure: the tape keeps the inputs, and settles the handles;
  4. `dependents_exec`         — marking the answer: every handle is accepted, or one is refused;
  5. `closed_endTrace` and `closed_drop` — closing: the tape is sealed, or lost.
-/
import DiffTape.Proofs.Confinement
import DiffTape.Proofs.Exclusion

namespace DiffTape

variable {C : Width → Type} {w : Width} {i : ThreadId} {α β : Type}

/-! ## Actions on all of an array -/

section Arrays

variable {f : α → RecorderT C Id β} {xs : Array α} {r r' : Recorder C}

/-- An action on an array is one on the list of its elements, if all succeed. -/
theorem exec_mapM_of_ok {bs : List β} (h : (xs.toList.mapM f).exec i r = (.ok bs, r')) :
    (xs.mapM f).exec i r = (.ok bs.toArray, r') := by
  rw [Array.mapM_eq_mapM_toList, map_eq_pure_bind, exec_bind_of_ok h]
  rfl

/-- And if one fails, it fails as the list does. -/
theorem exec_mapM_of_error {e : Failure} (h : (xs.toList.mapM f).exec i r = (.error e, r')) :
    (xs.mapM f).exec i r = (.error e, r') := by
  rw [Array.mapM_eq_mapM_toList, map_eq_pure_bind, exec_bind_of_error h]

end Arrays

/-! ## Handles that a session accepts -/

/-- The handle is a constant, or of the session. -/
def Session.Accepts {F : Type} (s : Session w) (y : Handle F) : Prop :=
  ∀ m, y.mark = some m → m.session = s.serial

/-- `r'` has the marks and the stores of `r`, and in every slot a tape of the same label.  What
    these tapes have recorded may differ, and so may the events. -/
structure Recorder.Grown (r r' : Recorder C) : Prop where
  process : r'.process = r.process
  stores : r'.stores = r.stores
  label : r'.label = r.label

namespace Recorder.Grown

variable {r r' r'' : Recorder C}

theorem trans (h : Grown r r') (h' : Grown r' r'') : Grown r r'' :=
  ⟨h'.process.trans h.process, h'.stores.trans h.stores, h'.label.trans h.label⟩

theorem modifySlot (r : Recorder C) {f : Tape (C w) → Tape (C w)}
    (hf : ∀ t, (f t).id = t.id ∧ (f t).session = t.session) : Grown r (r.modifySlot w i f) :=
  ⟨rfl, rfl, r.label_modifySlot w i hf⟩

theorem sealed (h : Grown r r') : r'.sealed? = r.sealed? := by
  funext v name id
  unfold Recorder.sealed? Recorder.store
  rw [h.stores]

/-- To the registry it is the same. -/
theorem registry {W : World C} (h : Grown W.recorder r) :
    ({ W with recorder := r } : World C).registry = W.registry := by
  have hrecording : r.recording = W.recorder.recording := by
    funext v name
    unfold Recorder.recording Recorder.store
    rw [h.stores]
  unfold World.registry
  rw [hrecording, h.process, h.label]

end Recorder.Grown

/-- STAGE 4.  Marking handles that are settled: all of them if the session accepts them all, and
    else only up to one that is refused. -/
theorem Session.dependents_exec (s : Session w) (ys : List (Handle (C w))) {r : Recorder C}
    {t : Tape (C w)} {x : Array (C w)} {zs : Array (Handle (C w))} (hslot : r.slot? w i = some t)
    (howns : s.Owns t) (hsettled : ∀ y ∈ ys, y.Settled t) (hkeeps : t.Keeps x zs) :
    ∃ r' t', r.Grown r' ∧ r'.slot? w i = some t' ∧ s.Owns t' ∧
      ((∀ y ∈ ys, s.Accepts y) → (ys.mapM s.dependent).exec i r = (.ok (ys.map (·.value)), r') ∧
        t'.Keeps x (zs ++ ys.toArray)) ∧
      ((¬ ∀ y ∈ ys, s.Accepts y) → ∃ e, (ys.mapM s.dependent).exec i r = (.error e, r')) := by
  -- what was marked before, `zs`, grows along the induction; every handle stays settled meanwhile
  induction ys generalizing r t zs with
  | nil =>
    refine ⟨r, t, ⟨rfl, rfl, rfl⟩, hslot, howns, fun _ => ⟨rfl, ?_⟩, fun hnot => ?_⟩
    · rw [Array.append_empty]
      exact hkeeps
    · exact absurd (fun y hy => nomatch hy) hnot
  | cons y ys ih =>
    obtain ⟨hy, hys⟩ := List.forall_mem_cons.mp hsettled
    rw [List.forall_mem_cons, List.mapM_cons]
    rcases s.dependent_cases (i := i) y r with ⟨v, hexec⟩ | ⟨u, hu, -, hon, hexec⟩
    · -- a settled handle is refused only if it is of another session
      have hrefused : ¬ s.Accepts y := by
        intro haccepts
        obtain ⟨c, r', hok⟩ := (s.dependent_succeeds_iff y i r).mpr ⟨t, hslot, howns, fun m hm =>
          have hown : m.session = t.session := (haccepts m hm).trans howns.2.symm
          ⟨(hy m hm hown).1, hown, (hy m hm hown).2.1⟩⟩
        rw [hexec] at hok
        cases hok
      exact ⟨r, t, ⟨rfl, rfl, rfl⟩, hslot, howns, fun hall => absurd hall.1 hrefused,
        fun _ => ⟨_, exec_bind_of_error hexec⟩⟩
    · -- it was marked, and the tape with it is what the rest goes on from
      obtain rfl : u = t := Option.some.inj (hu.symm.trans hslot)
      have haccepts : s.Accepts y := fun m hm => (hon m hm).2.1.trans howns.2
      have hslot' : (r.modifySlot w i (appendDependent y)).slot? w i =
          some (appendDependent y u) := by
        rw [Recorder.slot?_modifySlot_self, hslot, Option.map_some]
      obtain ⟨r', t', hgrown, ht', howns', hok, herror⟩ := ih hslot'
        ⟨(id_appendDependent y u).trans howns.1, (session_appendDependent y u).trans howns.2⟩
        (fun z hz => (hys z hz).appendDependent y)
        (hkeeps.appendDependent hy fun m hm => (hon m hm).2.1)
      refine ⟨r', t', (Recorder.Grown.modifySlot r fun u =>
        ⟨id_appendDependent y u, session_appendDependent y u⟩).trans hgrown, ht', howns',
        fun hall => ?_, fun hnot => ?_⟩
      · obtain ⟨hrest, hkeeps'⟩ := hok hall.2
        refine ⟨?_, ?_⟩
        · rw [exec_bind_of_ok hexec, exec_bind_of_ok hrest]
          rfl
        · simpa using hkeeps'
      · obtain ⟨e, hrest⟩ := herror fun hrest => hnot ⟨haccepts, hrest⟩
        exact ⟨e, by rw [exec_bind_of_ok hexec, exec_bind_of_error hrest]⟩

namespace World

variable {W : World C} {s : Session w}

/-! ## Closing -/

/-- No session is open, no mark is set, and the slot of the thread is empty. -/
structure AtRest (W : World C) (w : Width) (i : ThreadId) : Prop where
  closed : W.openCount = 0
  process : W.recorder.process = none
  recording : ∀ v name, (W.recorder.store v name).recording = none
  slot : W.recorder.slot? w i = none

/-- Closing the session that is open leaves everything at rest, if the slot of the thread is
    empty. -/
theorem atRest_of_released (hheld : W.registry.HeldBy i s) {r : Recorder C} (events : List Event)
    (hrecording : r.recording = W.recorder.recording)
    (hlabel : r.label = (W.recorder.takeSlot w i s.id).2.label) (hslot : r.slot? w i = none) :
    (({ W with recorder := (s.released r).note events } : World C).lose i s).AtRest w i := by
  have hfree : (({ W with recorder := (s.released r).note events } : World C).lose i
      s).registry.Free := by
    rw [registry_closed events hrecording hlabel]
    exact hheld.closed
  exact ⟨openCount_of_free hfree, rfl, fun v name => congrFun (congrFun hfree.recording v) name,
    hslot⟩

section Close

variable {t : Tape (C w)} (hheld : W.registry.HeldBy i s)
  (hslot : W.recorder.slot? w i = some t) (hid : t.id = s.id)
include hheld hslot hid

/-- STAGE 5.  Ending the session seals its tape. -/
theorem closed_endTrace : ∃ r, s.endTrace.exec i W.recorder = (.ok t.stats, r) ∧
    (({ W with recorder := r } : World C).lose i s).AtRest w i ∧
    r.sealed? = Shelves.set W.recorder.sealed? w s.store s.id (some t) := by
  obtain ⟨r, hexec, hsealed⟩ := Session.endTrace_of_tape hslot hid
  refine ⟨r, hexec, ?_, hsealed⟩
  have htake := Recorder.takeSlot_of_tape hslot hid
  -- the recorder it leaves, as the chain of changes that ending a session makes
  have hexec' := s.endTrace_exec (i := i) W.recorder
  rw [htake, hexec] at hexec'
  rw [(Prod.mk.inj hexec').2]
  refine atRest_of_released hheld _ ?_ ?_ ?_
  · exact Recorder.recording_modifyStore_of_mark _ w s.store (f := (·.insert s.id t)) fun _ => rfl
  · rw [htake]
    rfl
  · exact W.recorder.slot?_clearSlot_self w i

/-- Dropping it seals nothing. -/
theorem closed_drop : ∃ r, s.drop.exec i W.recorder = (.ok (), r) ∧
    (({ W with recorder := r } : World C).lose i s).AtRest w i ∧
    r.sealed? = W.recorder.sealed? := by
  have htake := Recorder.takeSlot_of_tape hslot hid
  have hexec := s.drop_exec (i := i) W.recorder
  rw [htake] at hexec
  have hwithin := (Recorder.Within.clearSlot (w := w) W.recorder i).trans (.released _ s)
  refine ⟨_, hexec, ?_, ?_⟩
  · refine atRest_of_released hheld _ rfl ?_ ?_
    · rw [htake]
    · exact W.recorder.slot?_clearSlot_self w i
  · exact Recorder.shelves_of_same (hwithin.note [.sessionDropped s.id])
      ((W.recorder.clearSlot w i).sealed?_released s)

end Close

/-- What becomes of a recording whose closure was answered `answer`, when `W` is the world that the
    closure left. -/
structure Concludes (W : World C) (i : ThreadId) (s : Session w) (x : Array (C w))
    (answer : Except Failure (Array (Handle (C w)))) (result : Except Failure (Array (C w)))
    (r : Recorder C) : Prop where
  rest : (({ W with recorder := r } : World C).lose i s).AtRest w i
  ok_iff : ∀ values, result = .ok values ↔
    ∃ ys, answer = .ok ys ∧ values = ys.map (·.value) ∧ ∀ y ∈ ys, s.Accepts y
  sealed : ∀ ys, answer = .ok ys → (∃ values, result = .ok values) → ∃ t : Tape (C w),
    s.Owns t ∧ t.Keeps x ys ∧ r.sealed? = Shelves.set W.recorder.sealed? w s.store s.id (some t)
  unsealed : ∀ e, result = .error e → r.sealed? = W.recorder.sealed?
  failed : ∀ e, answer = .error e → result = .error e

section Conclude

variable {x : Array (C w)} {body : Array (Handle (C w)) → RecorderT C Id (Array (Handle (C w)))}
  {r₀ r₁ r' : Recorder C} {store : StoreName} {id : TapeId}
  {answer : Except Failure (Array (Handle (C w)))} {t' : Tape (C w)}
  (hbegin : (beginTraceWithCapacity w store id (x.size * 10)).exec i r₀ = (.ok s, r₁))
  (hheld : W.registry.HeldBy i s) (hgrown : W.recorder.Grown r') (hslot : r'.slot? w i = some t')
  (howns : s.Owns t')
include hbegin hheld hgrown hslot howns

/-- The closure failed, or a handle was refused: the session is dropped. -/
theorem concludes_of_failed {e : Failure}
    (htraced : (s.tracing x body).exec i r₁ = (.error e, r'))
    (hrefused : ∀ ys, answer = .ok ys → ¬ ∀ y ∈ ys, s.Accepts y)
    (hfailed : ∀ e', answer = .error e' → e = e') :
    ∃ result r, (record store id x body).exec i r₀ = (result, r) ∧
      W.Concludes i s x answer result r := by
  obtain ⟨r, hdrop, hrest, hsealed⟩ := closed_drop (W := { W with recorder := r' })
    (hgrown.registry ▸ hheld) hslot howns.1
  -- the drop comes on the way out, and the failure is what the caller gets
  refine ⟨.error e, r, by rw [record_of_failed hbegin htraced, hdrop], hrest, fun values => ?_,
    ?_, fun _ _ => hsealed.trans hgrown.sealed, fun e' he => congrArg _ (hfailed e' he)⟩
  · constructor
    · rintro ⟨⟩
    · rintro ⟨ys, hys, -, hall⟩
      exact absurd hall (hrefused ys hys)
  · rintro ys - ⟨values, ⟨⟩⟩

/-- Every handle was accepted: the tape is sealed. -/
theorem concludes_of_traced {ys : Array (Handle (C w))} (hanswer : answer = .ok ys)
    (htraced : (s.tracing x body).exec i r₁ = (.ok (ys.map (·.value)), r'))
    (hall : ∀ y ∈ ys, s.Accepts y) (hkeeps : t'.Keeps x ys) :
    ∃ result r, (record store id x body).exec i r₀ = (result, r) ∧
      W.Concludes i s x answer result r := by
  obtain ⟨r, hend, hrest, hsealed⟩ := closed_endTrace (W := { W with recorder := r' })
    (hgrown.registry ▸ hheld) hslot howns.1
  subst hanswer
  refine ⟨_, r, record_of_traced hbegin htraced hend, hrest, fun values => ?_, ?_, ?_, ?_⟩
  · constructor
    · rintro ⟨⟩
      exact ⟨ys, rfl, rfl, hall⟩
    · rintro ⟨_, ⟨⟩, rfl, -⟩
      rfl
  · rintro _ ⟨⟩ -
    refine ⟨t', howns, hkeeps, ?_⟩
    rw [hsealed, hgrown.sealed]
  · rintro e ⟨⟩
  · rintro e ⟨⟩

end Conclude

variable [∀ w, Scalar (C w)] [∀ w, Elementary (C w)] {direct : Prop} {past : List (Turn C)}

/-! ## Opening, and binding the inputs -/

/-- A run that leaves the slots alone is one of those that need not. -/
theorem Run.weaken {W' : World C} (h : W.Run False past W') : W.Run direct past W' := by
  induction h with
  | start => exact .start
  | step _ i call legal allowed ih => exact ih.step i call legal fun hdirect =>
      (allowed hdirect).elim

/-- What an open session accepts is a constant, or was created by it. -/
theorem Run.accepts_iff (h : ({} : World C).Run direct past W) (hs : (i, s) ∈ W.sessions.get w)
    {y : Handle (C w)} (hy : W.Has y) : s.Accepts y ↔ y.mark = none ∨ CreatedBy past s y := by
  constructor
  · intro haccepts
    cases hm : y.mark with
    | none => exact Or.inl rfl
    | some m => exact Or.inr (h.created_of_session hs hy hm (haccepts m hm))
  · rintro (hnone | hcreated) m hm
    · rw [hnone] at hm
      cases hm
    · exact (hcreated.mark hm).2

/-- STAGE 1.  A session that was just opened has a tape with nothing on it, and no handle there is
    can be of it. -/
theorem inProgress_opened (h : ({} : World C).Run direct past W)
    (hprocess : W.recorder.process = none)
    (hslots : ∀ j t, W.recorder.slot? w j = some t → t.session < W.recorder.nextSerial)
    (store : StoreName) (id : TapeId) :
    (hold i (⟨store, id, W.recorder.nextSerial⟩ : Session w)
      { W with recorder := Session.opened W.recorder w i store id }).InProgress i
        (⟨store, id, W.recorder.nextSerial⟩ : Session w) #[]
        { id, session := W.recorder.nextSerial } := by
  have hslot : (Session.opened W.recorder w i store id).slot? w =
      Function.update (W.recorder.slot? w) i (some { id, session := W.recorder.nextSerial }) :=
    Recorder.slot?_putSlot W.recorder.advanceSerial i _
  refine ⟨?_, ?_, ⟨rfl, rfl⟩, Tape.keeps_empty id _, fun y hy => ?_, fun j u hu hsession => ?_⟩
  · rw [registry_opened]
    exact ((h.exclusive (Or.inl registry_start.1)).free hprocess).opened i _
  · show (Session.opened W.recorder w i store id).slot? w i = _
    rw [hslot, Function.update_self]
  · -- every handle there is has the serial of an earlier session
    refine Handle.settled_of_ne fun m hm => Nat.ne_of_lt ?_
    obtain ⟨s', hs'⟩ := h.remembers.creator y hy (Option.ne_none_iff_exists'.mpr ⟨m, hm⟩)
    rw [(hs'.mark hm).2]
    exact h.remembers.serial s' (h.known hs')
  · have hu' : Function.update (W.recorder.slot? w) i _ j = some u := hslot ▸ hu
    rcases View.eq_or_of_update hu' with ⟨hj, -⟩ | ⟨-, hold⟩
    · exact hj
    · exact absurd hsession (Nat.ne_of_lt (hslots j u hold))

variable {x : Array (C w)} {t : Tape (C w)}

/-- Binding an independent adds it to the inputs of the tape. -/
theorem InProgress.independent (h : W.InProgress i s x t) (v : C w) :
    ∃ W' y t', W.Run False [⟨W, i, w, .independent s v⟩] W' ∧
      (s.independent v).exec i W.recorder = (.ok y, W'.recorder) ∧
      W'.InProgress i s (x.push v) t' ∧ y.value = v ∧ W'.Has y ∧ s.Accepts y ∧
      W'.recorder.sealed? = W.recorder.sealed? := by
  have hrun : W.Run False [⟨W, i, w, .independent s v⟩] (W.after i (s.independent v) gain) :=
    .call h.held.mem id
  rcases s.independent_cases (i := i) v W.recorder with ⟨e, hexec⟩ | ⟨u, hslot, hid, hserial, hexec⟩
  · obtain ⟨y, r, hok⟩ := (s.independent_succeeds_iff v i W.recorder).mpr ⟨t, h.slot, h.owns⟩
    rw [hexec] at hok
    cases hok
  · -- the tape that was found is that of the session, which goes on with one more input
    have hut : u = t := Option.some.inj (hslot.symm.trans h.slot)
    rw [after_of_ok hexec] at hrun
    obtain ⟨t', ht'⟩ := h.append (f := (·.appendIndependent v)) hslot (fun _ => ⟨rfl, rfl⟩)
      (fun _ => rfl) (fun _ => h.keeps.appendIndependent v) fun hne => absurd rfl hne
    refine ⟨_, _, t', hrun, hexec, ht', Handle.value_place .., ?_, fun m hm => ?_, rfl⟩
    · right
      show _ ∈ (W.handles.modify w (_ :: ·)).get w
      rw [PerWidth.get_modify_self]
      exact List.mem_cons_self
    · rw [(Handle.mark_place hm).1]
      exact hserial

/-- STAGE 2.  Binding values adds them in their order. -/
theorem InProgress.independents (h : W.InProgress i s x t) (vs : List (C w)) :
    ∃ turns W' ys t', W.Run False turns W' ∧
      (vs.mapM s.independent).exec i W.recorder = (.ok ys, W'.recorder) ∧
      W'.InProgress i s (x ++ vs.toArray) t' ∧ ys.map (·.value) = vs ∧
      (∀ y ∈ ys, W'.Has y ∧ s.Accepts y) ∧ W'.recorder.sealed? = W.recorder.sealed? := by
  induction vs generalizing W x t with
  | nil =>
    refine ⟨[], W, [], t, .start, rfl, ?_, rfl, (fun y hy => nomatch hy), rfl⟩
    rw [Array.append_empty]
    exact h
  | cons v vs ih =>
    obtain ⟨W₁, y, t₁, hrun, hexec, h₁, hy, hhas, haccepts, hsealed⟩ := h.independent v
    obtain ⟨turns, W', ys, t', hrun', hexec', h', hys, hall, hsealed'⟩ := ih h₁
    refine ⟨_, W', y :: ys, t', hrun.trans hrun', ?_, ?_, ?_, ?_, hsealed'.trans hsealed⟩
    · rw [List.mapM_cons, exec_bind_of_ok hexec, exec_bind_of_ok hexec']
      rfl
    · simpa using h'
    · rw [List.map_cons, hy, hys]
    · exact List.forall_mem_cons.mpr ⟨⟨hrun'.has hhas, haccepts⟩, hall⟩

/-! ## The whole -/

variable {body : Array (Handle (C w)) → RecorderT C Id (Array (Handle (C w)))}

/-- The closure is not given the session, and does not go to the slots.  In whatever world it is
    run, with whatever session open on the thread: it makes calls, none of them with that session;
    it may cause events of its own, by evaluating tapes; and the handles that it answers are
    constants, or were answered before. -/
def Confined (W : World C) (i : ThreadId)
    (body : Array (Handle (C w)) → RecorderT C Id (Array (Handle (C w)))) : Prop :=
  ∀ past W' (s : Session w) xs, W.Run False past W' → (i, s) ∈ W'.sessions.get w →
    (∀ x ∈ xs, W'.Has x) → ∃ turns W'' answer events, W'.Run False turns W'' ∧
      (∀ T ∈ turns, ¬ T.call.Uses s) ∧
      (body xs).exec i W'.recorder = (answer, { W''.recorder with events }) ∧
      ∀ ys, answer = .ok ys → ∀ y ∈ ys, W''.Has y

omit [∀ w, Scalar (C w)] [∀ w, Elementary (C w)] in
/-- The closure was run in the session: what it answered is marked, and the session is closed. -/
theorem InProgress.concludes {r₀ r₁ r₂ : Recorder C} {store : StoreName} {id : TapeId}
    {events : Array Event} {answer : Except Failure (Array (Handle (C w)))}
    {xs : Array (Handle (C w))}
    (hbegin : (beginTraceWithCapacity w store id (x.size * 10)).exec i r₀ = (.ok s, r₁))
    (hbound : (s.independents x).exec i r₁ = (.ok xs, r₂))
    (hbody : (body xs).exec i r₂ = (answer, { W.recorder with events }))
    (hhas : ∀ ys, answer = .ok ys → ∀ y ∈ ys, W.Has y) (h : W.InProgress i s x t) :
    ∃ result r, (record store id x body).exec i r₀ = (result, r) ∧
      W.Concludes i s x answer result r := by
  have hnoted : W.recorder.Grown { W.recorder with events } := ⟨rfl, rfl, rfl⟩
  cases answer with
  | error e =>
    refine concludes_of_failed hbegin h.held hnoted h.slot h.owns (e := e) ?_ ?_ ?_
    · unfold Session.tracing
      rw [exec_bind_of_ok hbound, exec_bind_of_error hbody]
    · rintro ys ⟨⟩
    · rintro e' ⟨⟩
      rfl
  | ok ys =>
    -- what the closure answers was answered to it, or is a constant
    have hsettled : ∀ y ∈ ys.toList, y.Settled t := by
      intro y hy
      rcases hhas ys rfl y (Array.mem_toList_iff.mp hy) with hnone | hmem
      · intro m hm
        rw [hnone] at hm
        cases hm
      · exact h.settled y hmem
    have hall_iff : (∀ y ∈ ys.toList, s.Accepts y) ↔ ∀ y ∈ ys, s.Accepts y := by
      simp only [Array.mem_toList_iff]
    obtain ⟨r', t', hgrown, hslot, howns, hok, herror⟩ :=
      s.dependents_exec ys.toList (r := { W.recorder with events }) h.slot h.owns hsettled h.keeps
    -- all of the answer is accepted, or marking ends at the first handle that is not
    by_cases hall : ∀ y ∈ ys, s.Accepts y
    · obtain ⟨hmarked, hkeeps⟩ := hok (hall_iff.mpr hall)
      rw [Array.toArray_toList, Array.empty_append] at hkeeps
      refine concludes_of_traced hbegin h.held (hnoted.trans hgrown) hslot howns rfl ?_ hall hkeeps
      unfold Session.tracing
      rw [exec_bind_of_ok hbound, exec_bind_of_ok hbody, exec_mapM_of_ok hmarked,
        ← Array.toList_map, Array.toArray_toList]
    · obtain ⟨e, hmarked⟩ := herror fun h' => hall (hall_iff.mp h')
      refine concludes_of_failed hbegin h.held (hnoted.trans hgrown) hslot howns (e := e) ?_ ?_ ?_
      · unfold Session.tracing
        rw [exec_bind_of_ok hbound, exec_bind_of_ok hbody, exec_mapM_of_error hmarked]
      · rintro ys' ⟨⟩
        exact hall
      · rintro e' ⟨⟩

end World

variable [∀ w, Scalar (C w)] [∀ w, Elementary (C w)]

/-- `record`, after any run and with any closure that does not go to the slots.  Before it, tapes
    may have been put in slots directly, if they are of earlier sessions (`hslots`).

    If the session is refused, nothing changes but the source of serials, and what the closure is
    makes no difference: it is not run.

    If it opens, the values are bound first, and then the closure is run, as a run of calls from
    `W₂` to `W₃`.  However that ends, everything is at rest afterwards.  `record` answers values
    exactly if the closure answered handles that are all constants or created by this session, and
    they are the values of these handles.  Then the tape that is sealed has the inputs `x` and these
    handles as its dependents (`Tape.Keeps`, which speaks of the recorded values for as long as
    locations are not cut), and no other place of any store is touched; else no place of any store
    is touched at all. -/
theorem record_all_or_nothing {direct : Prop} {past : List (Turn C)} {W : World C}
    (h : ({} : World C).Run direct past W)
    (hslots : ∀ j t, W.recorder.slot? w j = some t → t.session < W.recorder.nextSerial)
    (store : StoreName) (id : TapeId) (x : Array (C w))
    {body : Array (Handle (C w)) → RecorderT C Id (Array (Handle (C w)))}
    (hbody : W.Confined i body) :
    (∀ f r, (beginTraceWithCapacity w store id (x.size * 10)).exec i W.recorder = (.error f, r) →
      (∃ n, r = { W.recorder with nextSerial := n }) ∧
        ∀ body', (record store id x body').exec i W.recorder = (.error f, r)) ∧
      ∀ s r, (beginTraceWithCapacity w store id (x.size * 10)).exec i W.recorder = (.ok s, r) →
        s.store = store ∧ s.id = id ∧
        ∃ before W₂ xs during W₃ answer events result r', W.Run False before W₂ ∧
          (s.independents x).exec i r = (.ok xs, W₂.recorder) ∧ xs.map (·.value) = x ∧
          (∀ y ∈ xs, s.Accepts y) ∧ W₂.recorder.sealed? = W.recorder.sealed? ∧
          W₂.Run False during W₃ ∧
          (body xs).exec i W₂.recorder = (answer, { W₃.recorder with events }) ∧
          (∀ ys, answer = .ok ys → ∀ y ∈ ys,
            s.Accepts y ↔ y.mark = none ∨ CreatedBy (past ++ before ++ during) s y) ∧
          (record store id x body).exec i W.recorder = (result, r') ∧
          W₃.Concludes i s x answer result r' := by
  refine ⟨fun f r hbegin => ⟨?_, fun body' => record_of_refused hbegin⟩, fun s r hbegin => ?_⟩
  -- refused: nothing, or a serial
  · rcases Session.begin_refused hbegin with rfl | rfl
    · exact ⟨W.recorder.nextSerial, rfl⟩
    · exact ⟨W.recorder.nextSerial + 1, rfl⟩
  -- opened: the stages one after the other, each from the world that the one before it has left
  obtain ⟨hprocess, hs, hr⟩ := Session.begin_opened hbegin
  subst hs hr
  refine ⟨rfl, rfl, ?_⟩
  have h₁ : W.Run False [⟨W, i, w, .begin store id (x.size * 10)⟩]
      (W.after i (beginTraceWithCapacity w store id (x.size * 10)) (World.hold i)) :=
    .call trivial fun hdirect => hdirect
  rw [World.after_of_ok hbegin] at h₁
  obtain ⟨bound, W₂, ys, t₂, h₂, hbound, hW₂, hvalues, hall, hsealed⟩ :=
    (World.inProgress_opened h hprocess hslots store id).independents x.toList
  obtain ⟨during, W₃, answer, events, h₃, hunused, hexec, hhas⟩ :=
    hbody _ W₂ _ ys.toArray (h₁.trans h₂) hW₂.held.mem fun y hy =>
      (hall y (List.mem_toArray.mp hy)).1
  -- the closure is any run that does not use the session, so the session is still in progress
  obtain ⟨t₃, hW₃⟩ := hW₂.run h₃ hunused
  rw [Array.empty_append, Array.toArray_toList] at hW₃
  have hindependents := exec_mapM_of_ok hbound
  obtain ⟨result, r', hrecord, hconcludes⟩ := hW₃.concludes hbegin hindependents hexec hhas
  have hrun := (h.trans (h₁.trans h₂).weaken).trans h₃.weaken
  refine ⟨_, W₂, ys.toArray, during, W₃, answer, events, result, r', h₁.trans h₂, hindependents, ?_,
    fun y hy => (hall y (List.mem_toArray.mp hy)).2, hsealed.trans ?_, h₃, hexec,
    fun ys hys y hy => hrun.accepts_iff hW₃.held.mem (hhas ys hys y hy), hrecord, hconcludes⟩
  · rw [List.map_toArray, hvalues, Array.toArray_toList]
  · exact Recorder.shelves_of_same (.opened W.recorder w i store id)
      (W.recorder.sealed?_opened w i store id)

/-- The closure answers its input twice, and a constant.  The tape has three dependents, and shows
    the values that were answered. -/
theorem record_all_or_nothing_of_repeated_handle :
    ∃ (ys : Array (Handle (Width.Number .double))) (r : Recorder Width.Number)
      (t : Tape (Width.Number .double)),
      (record (w := .double) "a" 7 #[(5 : Float)]
          fun xs => pure (xs ++ xs ++ #[.constant (2 : Float)])).exec 0
            ({} : Recorder Width.Number) = (.ok #[(5 : Float), (5 : Float), (2 : Float)], r) ∧
        r.process = none ∧ r.slot? .double 0 = none ∧ r.sealed? .double "a" 7 = some t ∧
        t.dependents.size = 3 ∧ t.Keeps #[(5 : Float)] ys ∧
        ys.map (·.value) = #[(5 : Float), (5 : Float), (2 : Float)] := by
  let two : Handle (Width.Number .double) := .constant (2 : Float)
  let body : Array (Handle (Width.Number .double)) →
      RecorderT Width.Number Id (Array (Handle (Width.Number .double))) :=
    fun xs => pure (xs ++ xs ++ #[two])
  have hbody : ({} : World Width.Number).Confined 0 body := by
    intro past W' s xs _ _ hhas
    refine ⟨[], W', _, W'.recorder.events, .start, (fun T hT => nomatch hT), rfl, ?_⟩
    rintro ys ⟨⟩ y hy
    rcases Array.mem_append.mp hy with hy | hy
    · rcases Array.mem_append.mp hy with hy | hy
      · exact hhas y hy
      · exact hhas y hy
    · rw [Array.mem_singleton.mp hy]
      exact Or.inl rfl
  have hslots : ∀ j (t : Tape (Width.Number .double)),
      ({} : World Width.Number).recorder.slot? .double j = some t →
        t.session < ({} : World Width.Number).recorder.nextSerial := by
    intro j t ht
    rw [Recorder.slot?_start] at ht
    cases ht
  have hrun : ({} : World Width.Number).Run False [] {} := .start
  obtain ⟨-, hopened⟩ := record_all_or_nothing hrun hslots "a" 7 #[(5 : Float)] hbody
  obtain ⟨-, -, before, W₂, xs, during, W₃, answer, events, result, r, -, -, hxs, hall, -, -, hexec,
    -, hrecord, hconcludes⟩ := hopened _ _
      (Session.beginTraceWithCapacity_of_idle rfl (Recorder.slot?_start _ _) (by decide) "a" 7)
  have hanswer : answer = .ok (xs ++ xs ++ #[two]) := (Prod.mk.inj hexec).1.symm
  have hvalues : (xs ++ xs ++ #[two]).map (·.value) =
      #[(5 : Float), (5 : Float), (2 : Float)] := by
    rw [Array.map_append, Array.map_append, hxs]
    simp [two, Handle.constant]
  have hresult : result = .ok #[(5 : Float), (5 : Float), (2 : Float)] := by
    refine (hconcludes.ok_iff _).mpr ⟨_, hanswer, hvalues.symm, fun y hy => ?_⟩
    rcases Array.mem_append.mp hy with hy | hy
    · rcases Array.mem_append.mp hy with hy | hy
      · exact hall y hy
      · exact hall y hy
    · rw [Array.mem_singleton.mp hy]
      exact fun m hm => nomatch hm
  obtain ⟨t, -, hkeeps, hsealed⟩ := hconcludes.sealed _ hanswer ⟨_, hresult⟩
  refine ⟨_, r, t, hresult ▸ hrecord, hconcludes.rest.process, hconcludes.rest.slot, ?_, ?_, hkeeps,
    hvalues⟩
  · rw [hsealed]
    exact Shelves.set_self ..
  · have hsize := congrArg Array.size hvalues
    rw [Array.size_map] at hsize
    rw [hkeeps.dependents, hsize]
    rfl

end DiffTape
