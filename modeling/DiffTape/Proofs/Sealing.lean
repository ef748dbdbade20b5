/-
  WHICH TAPE A SESSION SEALS.

  The slot of a thread is open to everyone, so the tape that a session finds there may not be the
  one that it records.  Two parts of the recorder look at the slot.  A recording call takes a tape
  of the ID AND SERIAL of the session (`Session.Owns`).  Ending the session takes any tape of its
  ID.  The two agree as long as the slots are left alone, and then a session seals what it recorded
  (`Session.SealsOwn`).  They come apart over a tape of the same id that another session recorded:
  it is refused by every recording call, and it is sealed.

  `Shelves` is what all stores have sealed, of both formats.  Nothing but the end of a session and
  the removal of a tape changes it, and each changes one place.
-/
import DiffTape.Proofs.Provenance

namespace DiffTape

variable {C : Width → Type} {w : Width} {i : ThreadId}

/-! ## Shelves -/

/-- The sealed tapes of all stores. -/
abbrev Shelves (C : Width → Type) := (w : Width) → StoreName → TapeId → Option (Tape (C w))

/-- One place is changed. -/
def Shelves.set (S : Shelves C) (w : Width) (store : StoreName) (id : TapeId)
    (t : Option (Tape (C w))) : Shelves C :=
  Function.update S w (Function.update (S w) store (Function.update (S w store) id t))

@[simp] theorem Shelves.set_self (S : Shelves C) (w : Width) (store : StoreName) (id : TapeId)
    (t : Option (Tape (C w))) : S.set w store id t w store id = t := by
  unfold Shelves.set
  rw [Function.update_self, Function.update_self, Function.update_self]

theorem Shelves.set_of_ne (S : Shelves C) {w v : Width} {store name : StoreName} {id j : TapeId}
    (t : Option (Tape (C w))) (h : ¬ (v = w ∧ name = store ∧ j = id)) :
    S.set w store id t v name j = S v name j := by
  unfold Shelves.set
  by_cases hv : v = w
  · subst hv
    rw [Function.update_self]
    by_cases hname : name = store
    · subst hname
      rw [Function.update_self, Function.update_of_ne fun hj => h ⟨rfl, rfl, hj⟩]
    · rw [Function.update_of_ne hname]
  · rw [Function.update_of_ne hv]

namespace Recorder

/-- Where one place of a store of `w` changed, and nothing of the other format. -/
theorem shelves_of_set {r r' : Recorder C} {store : StoreName} {id : TapeId}
    {t : Option (Tape (C w))} (hwithin : Within w r r')
    (h : r'.sealed? w =
      Function.update (r.sealed? w) store (Function.update (r.sealed? w store) id t)) :
    r'.sealed? = Shelves.set r.sealed? w store id t := by
  funext v
  unfold Shelves.set
  by_cases hv : v = w
  · subst hv
    rw [Function.update_self, h]
  · rw [Function.update_of_ne hv]
    funext name j
    unfold sealed?
    rw [hwithin.store v hv]

/-- Where no place of a store of `w` changed. -/
theorem shelves_of_same {r r' : Recorder C} (hwithin : Within w r r')
    (h : r'.sealed? w = r.sealed? w) : r'.sealed? = r.sealed? := by
  funext v
  by_cases hv : v = w
  · subst hv
    exact h
  · funext name j
    unfold sealed?
    rw [hwithin.store v hv]

end Recorder

/-! ## The end of a session -/

namespace Session

/-- The tape is the one that the session records. -/
def Owns {F : Type} (s : Session w) (t : Tape F) : Prop := t.id = s.id ∧ t.session = s.serial

/-- If the session ends now, it puts a tape of its own on the shelves, or it fails and leaves the
    shelves as they are. -/
def SealsOwn (s : Session w) (i : ThreadId) (r : Recorder C) : Prop :=
  (∃ t r', s.Owns t ∧ s.endTrace.exec i r = (.ok t.stats, r') ∧
    r'.sealed? = Shelves.set r.sealed? w s.store s.id (some t)) ∨
  ∃ f r', s.endTrace.exec i r = (.error f, r') ∧ r'.sealed? = r.sealed?

variable {r : Recorder C} {s : Session w} {t : Tape (C w)}

/-- A tape of the id of the session is sealed, whoever recorded it. -/
theorem endTrace_of_tape (hslot : r.slot? w i = some t) (hid : t.id = s.id) :
    ∃ r', s.endTrace.exec i r = (.ok t.stats, r') ∧
      r'.sealed? = Shelves.set r.sealed? w s.store s.id (some t) := by
  have hexec := s.endTrace_exec (i := i) r
  rw [Recorder.takeSlot_of_tape hslot hid] at hexec
  have hwithin := (((Recorder.Within.clearSlot r i).trans
    (.modifyStore _ s.store (·.insert s.id t))).trans (.released _ s)).note [.tapeSealed t.stats]
  refine ⟨_, hexec, Recorder.shelves_of_set hwithin ?_⟩
  show (s.released ((r.clearSlot w i).modifyStore w s.store (·.insert s.id t))).sealed? w = _
  rw [Recorder.sealed?_released, Recorder.sealed?_insert]
  rfl

/-- Without a tape of its id the session ends with an error, and nothing is sealed. -/
theorem endTrace_of_none (h : ∀ t, r.slot? w i = some t → t.id ≠ s.id) :
    ∃ r', s.endTrace.exec i r = (.error (.error (.tapeNotFound s.id)), r') ∧
      r'.sealed? = r.sealed? := by
  have htake : r.takeSlot w i s.id = (none, r) := by
    unfold Recorder.takeSlot
    cases hslot : r.slot? w i with
    | none => rfl
    | some t => exact if_neg (h t hslot)
  have hexec := s.endTrace_exec (i := i) r
  rw [htake] at hexec
  exact ⟨_, hexec, Recorder.shelves_of_same (.released r s) (r.sealed?_released s)⟩

/-- A session ends with success exactly if the slot has a tape of its id, whichever session that is
    of. -/
theorem endTrace_succeeds_iff (s : Session w) (i : ThreadId) (r : Recorder C) :
    (∃ stats r', s.endTrace.exec i r = (.ok stats, r')) ↔
      ∃ t, r.slot? w i = some t ∧ t.id = s.id := by
  constructor
  · rintro ⟨stats, r', hexec⟩
    by_contra hnone
    obtain ⟨r'', herror, -⟩ := endTrace_of_none (s := s) fun t hslot hid => hnone ⟨t, hslot, hid⟩
    rw [herror] at hexec
    cases hexec
  · rintro ⟨t, hslot, hid⟩
    obtain ⟨r', hexec, -⟩ := endTrace_of_tape hslot hid
    exact ⟨_, r', hexec⟩

/-! ## Recording calls -/

theorem stats_of_tape (h : r.recordingTape w i s.id s.serial = .ok t) :
    s.stats.exec i r = (.ok t.stats, r) := by
  unfold stats RecorderT.exec RecorderT.ofFunction
  show (pure _ : Id _) = _
  simp only [h]
  rfl

theorem stats_of_violation {v : Violation}
    (h : r.recordingTape w i s.id s.serial = .error v) :
    s.stats.exec i r = (.error (.violation v), r) := by
  unfold stats RecorderT.exec RecorderT.ofFunction
  show (pure _ : Id _) = _
  simp only [h]
  rfl

/-- The counts are answered exactly if the tape in the slot is its own, in id and serial. -/
theorem stats_succeeds_iff (s : Session w) (i : ThreadId) (r : Recorder C) :
    (∃ stats r', s.stats.exec i r = (.ok stats, r')) ↔ ∃ t, r.slot? w i = some t ∧ s.Owns t := by
  constructor
  · rintro ⟨stats, r', hexec⟩
    cases htape : r.recordingTape w i s.id s.serial with
    | error v =>
      rw [stats_of_violation htape] at hexec
      cases hexec
    | ok t =>
      obtain ⟨hslot, hid, hserial⟩ := r.recordingTape_eq_ok_iff.mp htape
      exact ⟨t, hslot, hid, hserial⟩
  · rintro ⟨t, hslot, hid, hserial⟩
    exact ⟨t.stats, r, stats_of_tape (r.recordingTape_eq_ok_iff.mpr ⟨hslot, hid, hserial⟩)⟩

/-- And so it is with an independent. -/
theorem independent_succeeds_iff (s : Session w) (v : C w) (i : ThreadId) (r : Recorder C) :
    (∃ x r', (s.independent v).exec i r = (.ok x, r')) ↔
      ∃ t, r.slot? w i = some t ∧ s.Owns t := by
  constructor
  · rintro ⟨x, r', hexec⟩
    rcases s.independent_cases (i := i) v r with ⟨e, h⟩ | ⟨t, hslot, hid, hserial, -⟩
    · rw [h] at hexec
      cases hexec
    · exact ⟨t, hslot, hid, hserial⟩
  · rintro ⟨t, hslot, hid, hserial⟩
    obtain ⟨r', hexec, -⟩ := independent_yields hid hserial v r hslot
    exact ⟨_, r', hexec⟩

/-- A handle is marked dependent on a tape that the session owns, if it is a constant or lies on
    that tape. -/
theorem dependent_succeeds_iff (s : Session w) (x : Handle (C w)) (i : ThreadId)
    (r : Recorder C) :
    (∃ v r', (s.dependent x).exec i r = (.ok v, r')) ↔
      ∃ t, r.slot? w i = some t ∧ s.Owns t ∧ ∀ m, x.mark = some m →
        m.tape = t.id ∧ m.session = t.session ∧ m.loc.toNat < t.values.size := by
  constructor
  · rintro ⟨v, r', hexec⟩
    rcases onTape_cases r i s.id s.serial (s.checkDependent x) (fun _ => appendDependent x) with
      ⟨e, h⟩ | ⟨t, u, hslot, hid, hserial, hcheck, -⟩
    · have herror : (s.dependent x).exec i r = (.error (.violation e), r) := exec_bind_of_error h
      rw [herror] at hexec
      cases hexec
    · exact ⟨t, hslot, ⟨hid, hserial⟩, (checkDependent_eq_ok_iff hid).mp hcheck⟩
  · rintro ⟨t, hslot, ⟨hid, hserial⟩, hx⟩
    have hexec : r.onTape w i s.id s.serial (s.checkDependent x) (fun _ => appendDependent x) =
        (.ok (), r.modifySlot w i (appendDependent x)) :=
      onTape_of_slot hslot hid hserial ((checkDependent_eq_ok_iff hid).mpr hx)
    exact ⟨_, _, exec_bind_of_ok hexec⟩

/-! ## What is sealed, and what should be -/

/-- A session seals a tape that is not its own exactly if the slot has one of its id and of another
    serial. -/
theorem sealsOwn_iff (s : Session w) (i : ThreadId) (r : Recorder C) :
    s.SealsOwn i r ↔ ¬ ∃ t, r.slot? w i = some t ∧ t.id = s.id ∧ t.session ≠ s.serial := by
  constructor
  · rintro hown ⟨t, hslot, hid, hserial⟩
    obtain ⟨r₁, hexec, hsealed⟩ := endTrace_of_tape hslot hid
    rcases hown with ⟨t', r₂, howns, hexec', hsealed'⟩ | ⟨f, r₂, hexec', -⟩
    · -- both tapes stand in the one place that was changed
      have heq : r₁ = r₂ := (Prod.mk.inj (hexec.symm.trans hexec')).2
      rw [← heq, hsealed] at hsealed'
      have hsame := congrFun (congrFun (congrFun hsealed' w) s.store) s.id
      rw [Shelves.set_self, Shelves.set_self] at hsame
      cases hsame
      exact hserial howns.2
    · rw [hexec] at hexec'
      cases hexec'
  · intro hnone
    by_cases htape : ∃ t, r.slot? w i = some t ∧ t.id = s.id
    · obtain ⟨t, hslot, hid⟩ := htape
      obtain ⟨r', hexec, hsealed⟩ := endTrace_of_tape hslot hid
      have hserial : t.session = s.serial := by
        by_contra hne
        exact hnone ⟨t, hslot, hid, hne⟩
      exact Or.inl ⟨t, r', ⟨hid, hserial⟩, hexec, hsealed⟩
    · obtain ⟨r', hexec, hsealed⟩ :=
        endTrace_of_none (s := s) fun t hslot hid => htape ⟨t, hslot, hid⟩
      exact Or.inr ⟨_, r', hexec, hsealed⟩

end Session

variable [∀ w, Scalar (C w)] [∀ w, Elementary (C w)]

/-- What an open session makes of the tape in the slot of its thread, after every call of every run.
    A recording call takes it if its id and its serial are those of the session.  The end of the
    session takes it if its id is.  So the session seals nothing but its own recording exactly if
    the slot has no tape of its id from another session, and that is so if nobody goes to the slots
    directly. -/
theorem sealing_compares_ids {direct : Prop} {past : List (Turn C)} {W : World C}
    (h : ({} : World C).Run direct past W) {s : Session w} (hs : (i, s) ∈ W.sessions.get w) :
    ((∃ stats r, s.endTrace.exec i W.recorder = (.ok stats, r)) ↔
        ∃ t, W.recorder.slot? w i = some t ∧ t.id = s.id) ∧
      ((∃ stats r, s.stats.exec i W.recorder = (.ok stats, r)) ↔
        ∃ t, W.recorder.slot? w i = some t ∧ s.Owns t) ∧
      (∀ v, (∃ x r, (s.independent v).exec i W.recorder = (.ok x, r)) ↔
        ∃ t, W.recorder.slot? w i = some t ∧ s.Owns t) ∧
      (∀ x, (∃ v r, (s.dependent x).exec i W.recorder = (.ok v, r)) ↔
        ∃ t, W.recorder.slot? w i = some t ∧ s.Owns t ∧ ∀ m, x.mark = some m →
          m.tape = t.id ∧ m.session = t.session ∧ m.loc.toNat < t.values.size) ∧
      (s.SealsOwn i W.recorder ↔
        ¬ ∃ t, W.recorder.slot? w i = some t ∧ t.id = s.id ∧ t.session ≠ s.serial) ∧
      (¬ direct → s.SealsOwn i W.recorder) := by
  refine ⟨s.endTrace_succeeds_iff i _, s.stats_succeeds_iff i _,
    fun v => s.independent_succeeds_iff v i _, fun x => s.dependent_succeeds_iff x i _,
    s.sealsOwn_iff i _, fun hdirect => ?_⟩
  rw [eq_false hdirect] at h
  obtain ⟨t, hslot, -, hserial⟩ := h.slot_of_session hs
  rw [s.sealsOwn_iff]
  rintro ⟨t', hslot', -, hne⟩
  rw [hslot] at hslot'
  cases hslot'
  exact hne hserial

/-- The tape of the open session was taken away.  Ending the session is an error, as it should be:
    it has nothing of its own to seal. -/
theorem sealing_compares_ids_of_taken_tape :
    ∃ (past : List (Turn Width.Number)) (W : World Width.Number) (s : Session .double),
      ({} : World Width.Number).Run True past W ∧ (0, s) ∈ W.sessions.get .double ∧
      s.SealsOwn 0 W.recorder ∧
      ¬ ∃ stats r, s.endTrace.exec 0 W.recorder = (.ok stats, r) := by
  let s : Session .double := ⟨"a", 7, 1⟩
  let W₁ := ({} : World Width.Number).perform 0 (.begin "a" 7 0 : Call _ .double)
  let W := W₁.perform 0 (.takeSlot : Call _ .double)
  have h₁ : ({} : World Width.Number).Run True _ W₁ := .call trivial fun _ => trivial
  have h : ({} : World Width.Number).Run True _ W := h₁.step 0 .takeSlot trivial fun _ => trivial
  have hs : (0, s) ∈ W.sessions.get .double := List.mem_cons_self
  have hslot : W.recorder.slot? .double 0 = none := W₁.recorder.slot?_clearSlot_self .double 0
  obtain ⟨hend, -, -, -, hown, -⟩ := sealing_compares_ids h hs
  refine ⟨_, W, s, h, hs, hown.mpr ?_, ?_⟩
  · rintro ⟨t, ht, -⟩
    rw [hslot] at ht
    cases ht
  · rw [hend]
    rintro ⟨t, ht, -⟩
    rw [hslot] at ht
    cases ht

/-- A tape was sealed and removed, and its id is recorded again.  The old tape is put in the slot,
    and the session does not know it, but seals it. -/
theorem session_seals_tape_of_earlier_session :
    ∃ (past : List (Turn Width.Number)) (W : World Width.Number) (s : Session .double),
      ({} : World Width.Number).Run True past W ∧ (0, s) ∈ W.sessions.get .double ∧
      (∃ T ∈ past, ∃ t, T.before.recorder.sealed? .double s.store s.id = some t ∧
        W.recorder.slot? .double 0 = some t) ∧
      (¬ ∃ stats r, s.stats.exec 0 W.recorder = (.ok stats, r)) ∧
      (∃ stats r, s.endTrace.exec 0 W.recorder = (.ok stats, r)) ∧
      ¬ s.SealsOwn 0 W.recorder := by
  let s₁ : Session .double := ⟨"s", 7, 1⟩
  let s₂ : Session .double := ⟨"s", 7, 2⟩
  let old : Tape (Width.Number .double) := ⟨7, 1, #[], #[(1 : Float)], #[0], #[]⟩
  let W₁ := ({} : World Width.Number).perform 0 (.begin "s" 7 0 : Call _ .double)
  let W₂ := W₁.perform 0 (.independent s₁ (1 : Float))
  let W₃ := W₂.perform 0 (.endTrace s₁)
  let W₄ := W₃.perform 0 (.remove "s" 7 : Call _ .double)
  let W₅ := W₄.perform 0 (.begin "s" 7 0 : Call _ .double)
  let W := W₅.perform 0 (.replaceSlot old)
  have h₁ : ({} : World Width.Number).Run True _ W₁ := .call trivial fun _ => trivial
  have h₂ : ({} : World Width.Number).Run True _ W₂ :=
    h₁.step 0 _ List.mem_cons_self fun _ => trivial
  have h₃ : ({} : World Width.Number).Run True _ W₃ :=
    h₂.step 0 _ List.mem_cons_self fun _ => trivial
  have h₄ : ({} : World Width.Number).Run True _ W₄ := h₃.step 0 _ trivial fun _ => trivial
  have h₅ : ({} : World Width.Number).Run True _ W₅ := h₄.step 0 _ trivial fun _ => trivial
  have h : ({} : World Width.Number).Run True _ W := h₅.step 0 _ trivial fun _ => trivial
  have hold : W₃.recorder.sealed? .double "s" 7 = some old :=
    World.sealed_endTrace (s := s₁) (t := old) rfl rfl
  have hslot : W.recorder.slot? .double 0 = some old :=
    W₅.recorder.slot?_putSlot_self 0 old
  have hs : (0, s₂) ∈ W.sessions.get .double := List.mem_cons_self
  refine ⟨_, W, s₂, h, hs, ?_, ?_, (s₂.endTrace_succeeds_iff 0 _).mpr ⟨old, hslot, rfl⟩, ?_⟩
  · -- what the first session sealed was there when it was removed
    refine ⟨⟨W₃, 0, .double, .remove "s" 7⟩, ?_, old, hold, hslot⟩
    exact List.mem_append_left _ (List.mem_append_left _
      (List.mem_append_right _ (List.mem_singleton_self _)))
  · rw [s₂.stats_succeeds_iff]
    rintro ⟨t, ht, -, hserial⟩
    rw [hslot] at ht
    cases ht
    cases hserial
  · rw [s₂.sealsOwn_iff]
    exact fun hnone => hnone ⟨old, hslot, rfl, by decide⟩

end DiffTape
