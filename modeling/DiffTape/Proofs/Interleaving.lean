/-
  LOOKING UP A TAPE BESIDE A SESSION.

  A lookup reads the mark of the store, and later the map.  Between the two, and before and after,
  sessions open and close on other threads, of the same id too.

  1. `shelves_perform`  — what a section does to the maps: it puts a tape there that was out of the
                          slot, or removes one, or leaves them alone
  2. `Floor.Outdates`   — every tape that is still to be put in a map is of a later session than
                          this serial; no section undoes it
  3. `Floor.Dated`      — that is so of every tape in a map
  4. `Floor.Reading`    — a lookup of a run, with its two sections
-/
import DiffTape.Proofs.History
import DiffTape.Proofs.Sections

namespace DiffTape

variable {C : Width → Type} {w v : Width} {i j : ThreadId}

namespace Floor

variable {Φ : Floor C} {s : Session w} {store : StoreName} {id : TapeId}

/-! ## The maps -/

/-- The sealed tapes of all stores. -/
abbrev shelves (Φ : Floor C) : Shelves C := Φ.world.recorder.sealed?

/-- What a section leaves of the maps. -/
inductive Shelved (Φ : Floor C) (i : ThreadId) (part : Section C) (S : Shelves C) : Prop
  | same (h : S = Φ.shelves)
  | inserted {w : Width} {s : Session w} {t : Tape (C w)} (hpart : part = .next)
      (ha : Φ.activity i = .sealing s t) (h : S = Φ.shelves.set w s.store s.id (some t))
  | removed {w : Width} {store : StoreName} {id : TapeId}
      (hpart : part = .call (.remove store id : Call C w)) (h : S = Φ.shelves.set w store id none)

/-- The tape that was out of the slot is put in its place. -/
theorem shelves_of_sealing {t : Tape (C w)} (ha : Φ.activity i = .sealing s t) :
    (Φ.next i).shelves = Φ.shelves.set w s.store s.id (some t) := by
  have hinsert : (Φ.world.recorder.modifyStore w s.store (·.insert s.id t)).sealed? =
      Φ.shelves.set w s.store s.id (some t) :=
    Recorder.shelves_of_set (.modifyStore _ s.store _) (Recorder.sealed?_insert _ s.store s.id t)
  rw [next_of_sealing ha]
  exact hinsert

theorem shelves_next (Φ : Floor C) (i : ThreadId) : Φ.Shelved i .next (Φ.next i).shelves := by
  cases ha : Φ.activity i with
  | idle =>
    rw [next_of_idle ha]
    exact .same rfl
  | sealing s t => exact .inserted rfl ha (shelves_of_sealing ha)
  | @unmarking w s events =>
    have hunmark : (Φ.world.recorder.modifyStore w s.store (·.unmark s.id)).sealed? =
        Φ.shelves :=
      Recorder.shelves_of_same (.modifyStore _ s.store _) (Φ.world.recorder.sealed?_released s)
    rw [next_of_unmarking ha]
    exact .same hunmark
  | freeing s events =>
    rw [next_of_freeing ha]
    exact .same rfl
  | looking w store id mark =>
    rw [next_of_looking ha]
    exact .same rfl

variable [∀ w, Scalar (C w)] [∀ w, Elementary (C w)]

/-- No section does anything else to the maps. -/
theorem shelves_perform (Φ : Floor C) (i : ThreadId) (part : Section C) :
    Φ.Shelved i part (Φ.perform i part).shelves := by
  cases part with
  | look w store id => exact .same rfl
  | next => exact shelves_next Φ i
  | @call w c =>
    show Φ.Shelved i _ (Φ.start i c).shelves
    by_cases hc : c.Closes
    · -- a tape that is taken out of the slot is not in a map yet
      obtain ⟨s, a, -, -, -, -, hstart⟩ := Φ.start_of_closes i hc
      rw [hstart]
      rcases Φ.world.recorder.takeSlot_cases w i s.id with htake | ⟨t, -, htake⟩
      · rw [htake]
        exact .same rfl
      · rw [htake]
        exact .same rfl
    · rw [start_eq hc]
      by_cases hchanges : c.CanChangeStores
      · cases c with
        | endTrace => exact absurd trivial hc
        | remove store id => exact .removed rfl (World.sealed_remove Φ.world i w store id)
        | _ => cases hchanges
      · exact .same (World.sealed_perform_of_quiet Φ.world i hchanges)

/-- What a section does to one place. -/
theorem place_perform (Φ : Floor C) (i : ThreadId) (part : Section C) (w : Width)
    (store : StoreName) (id : TapeId) :
    (Φ.perform i part).shelves w store id = Φ.shelves w store id ∨
      (∃ (s : Session w) (t : Tape (C w)), part = .next ∧ Φ.activity i = .sealing s t ∧
        s.store = store ∧ s.id = id ∧ (Φ.perform i part).shelves w store id = some t) ∨
      (part = .call (.remove store id : Call C w) ∧
        (Φ.perform i part).shelves w store id = none) := by
  cases Φ.shelves_perform i part with
  | same hsame =>
    left
    rw [hsame]
  | @inserted v s t hpart ha hset =>
    rw [hset]
    by_cases hplace : w = v ∧ store = s.store ∧ id = s.id
    · obtain ⟨rfl, rfl, rfl⟩ := hplace
      exact Or.inr (Or.inl ⟨s, t, hpart, ha, rfl, rfl, Shelves.set_self ..⟩)
    · exact Or.inl (Shelves.set_of_ne _ _ hplace)
  | @removed v name j hpart hset =>
    rw [hset]
    by_cases hplace : w = v ∧ store = name ∧ id = j
    · obtain ⟨rfl, rfl, rfl⟩ := hplace
      exact Or.inr (Or.inr ⟨hpart, Shelves.set_self ..⟩)
    · exact Or.inl (Shelves.set_of_ne _ _ hplace)

/-! ## Serials -/

/-- The session has yet to put its tape in the map. -/
def Unsealed (Φ : Floor C) (i : ThreadId) (s : Session w) : Prop :=
  (i, s) ∈ Φ.world.sessions.get w ∨ ∃ t, Φ.activity i = .sealing s t

/-- Every tape that is still to be put in a map is of a later session. -/
structure Outdates (Φ : Floor C) (serial : Nat) : Prop where
  next : serial < Φ.world.recorder.nextSerial
  unsealed : ∀ (w : Width) (i : ThreadId) (s : Session w), Φ.Unsealed i s → serial < s.serial

omit [∀ w, Scalar (C w)] [∀ w, Elementary (C w)] in
/-- A turn after which no more is unsealed than before. -/
theorem unsealed_of_turn {a : Activity C} {W : World C} (h : (Φ.turn i a W).Unsealed j s)
    (hsessions : ∀ {v : Width} {j : ThreadId} {s : Session v}, (j, s) ∈ W.sessions.get v →
      (j, s) ∈ Φ.world.sessions.get v)
    (ha : ∀ {v : Width} {s : Session v} {t : Tape (C v)}, a = .sealing s t → Φ.Unsealed i s) :
    Φ.Unsealed j s := by
  rcases h with hs | ⟨t, ht⟩
  · exact Or.inl (hsessions hs)
  · by_cases hj : j = i
    · subst hj
      rw [activity_turn_self] at ht
      exact ha ht
    · rw [activity_turn_of_ne _ _ _ hj] at ht
      exact Or.inr ⟨t, ht⟩

omit [∀ w, Scalar (C w)] [∀ w, Elementary (C w)] in
theorem unsealed_of_next (h : (Φ.next i).Unsealed j s) : Φ.Unsealed j s := by
  cases ha : Φ.activity i with
  | idle =>
    rw [next_of_idle ha] at h
    exact h
  | sealing =>
    rw [next_of_sealing ha] at h
    exact unsealed_of_turn h (fun hs => hs) fun h => nomatch h
  | unmarking =>
    rw [next_of_unmarking ha] at h
    exact unsealed_of_turn h (fun hs => hs) fun h => nomatch h
  | freeing =>
    rw [next_of_freeing ha] at h
    exact unsealed_of_turn h (fun hs => hs) fun h => nomatch h
  | looking =>
    rw [next_of_looking ha] at h
    exact unsealed_of_turn h (fun hs => hs) fun h => nomatch h

/-- A session that is unsealed after a section was so before, or it was opened by it, and got the
    next serial. -/
theorem unsealed_of_perform {part : Section C} (legal : Φ.Legal i part)
    (h : (Φ.perform i part).Unsealed j s) : Φ.Unsealed j s ∨
      s.serial = Φ.world.recorder.nextSerial ∧
        s.serial < (Φ.perform i part).world.recorder.nextSerial := by
  cases part with
  | look w store id => exact Or.inl (unsealed_of_turn h (fun hs => hs) fun h => nomatch h)
  | next => exact Or.inl (unsealed_of_next h)
  | @call v c =>
    by_cases hc : c.Closes
    · obtain ⟨s₀, a, hopen, ha, -, -, hstart⟩ := Φ.start_of_closes i hc
      change (Φ.start i c).Unsealed j s at h
      rw [hstart] at h
      refine Or.inl (unsealed_of_turn h (fun hq => World.mem_sessions_lose hq rfl) ?_)
      rintro u q t rfl
      cases ha
      exact Or.inl (hopen legal.2.1)
    · have hstart : Φ.perform i (.call c) = { Φ with world := Φ.world.perform i c } := start_eq hc
      rw [hstart] at h ⊢
      rcases h with hs | hsealing
      · rcases Φ.world.sessions_perform i c w with hold | ⟨new, hserial, hlt, hnew⟩
        · exact Or.inl (Or.inl (hold j s hs))
        · rcases hnew j s hs with hs | rfl
          · exact Or.inl (Or.inl hs)
          · exact Or.inr ⟨hserial, hserial ▸ hlt⟩
      · exact Or.inl (Or.inr hsealing)

/-- No serial is given out twice. -/
theorem nextSerial_perform (Φ : Floor C) (i : ThreadId) (part : Section C) :
    Φ.world.recorder.nextSerial ≤ (Φ.perform i part).world.recorder.nextSerial := by
  cases part with
  | look w store id => exact Nat.le_refl _
  | next =>
    show _ ≤ (Φ.next i).world.recorder.nextSerial
    unfold next
    split <;> exact Nat.le_refl _
  | @call w c =>
    show _ ≤ (Φ.start i c).world.recorder.nextSerial
    by_cases hc : c.Closes
    · obtain ⟨s, a, -, -, -, -, hstart⟩ := Φ.start_of_closes i hc
      rw [hstart]
      exact (Recorder.Within.takeSlot Φ.world.recorder i s.id).serial
    · rw [start_eq hc]
      exact (World.within_perform Φ.world i c).recorder.serial

/-- What is outdated stays so. -/
theorem Outdates.perform {n : Nat} (h : Φ.Outdates n) {part : Section C} (legal : Φ.Legal i part) :
    (Φ.perform i part).Outdates n := by
  refine ⟨Nat.lt_of_lt_of_le h.next (nextSerial_perform Φ i part), fun w j s hs => ?_⟩
  rcases unsealed_of_perform legal hs with hs | ⟨hserial, -⟩
  · exact h.unsealed w j s hs
  · rw [hserial]
    exact h.next

/-- Every tape in a map is outdated, and every session that is yet to seal has a serial that was
    given out. -/
structure Dated (Φ : Floor C) : Prop where
  shelved : ∀ (w : Width) store id t, Φ.shelves w store id = some t → Φ.Outdates t.session
  unsealed : ∀ (w : Width) (i : ThreadId) (s : Session w), Φ.Unsealed i s →
    s.serial < Φ.world.recorder.nextSerial

omit [∀ w, Scalar (C w)] [∀ w, Elementary (C w)] in
/-- The tape that is out of the slot is that of the session, and no other session is in flight. -/
theorem Ordered.closing_of_sealing (h : Φ.Ordered) {t : Tape (C w)}
    (ha : Φ.activity i = .sealing s t) : Φ.Closing i s := by
  have hcloses : (Φ.activity i).closes = some ⟨w, s⟩ := by
    rw [ha]
    rfl
  rcases h with ⟨-, hnone⟩ | ⟨v, j, s', h⟩
  · rw [hnone] at hcloses
    cases hcloses
  · by_cases hij : i = j
    · subst hij
      rw [h.closes] at hcloses
      cases hcloses
      exact h
    · rw [h.alone i hij] at hcloses
      cases hcloses

omit [∀ w, Scalar (C w)] [∀ w, Elementary (C w)] in
/-- When the tape of a session is put in its map, nothing else is left to be. -/
theorem not_unsealed_of_sealing (h : Φ.Ordered) {t : Tape (C w)}
    (ha : Φ.activity i = .sealing s t) (s' : Session v) : ¬ (Φ.next i).Unsealed j s' := by
  have hclosing := h.closing_of_sealing ha
  have hsessions : Φ.world.sessions.get v = [] := congrFun hclosing.registry.sessions v
  rw [next_of_sealing ha]
  rintro (hs | ⟨t', ht'⟩)
  · have hs' : (j, s') ∈ Φ.world.sessions.get v := hs
    rw [hsessions] at hs'
    cases hs'
  · by_cases hj : j = i
    · subst hj
      rw [activity_turn_self] at ht'
      cases ht'
    · have hnone := hclosing.alone j hj
      rw [activity_turn_of_ne _ _ _ hj] at ht'
      rw [ht'] at hnone
      cases hnone

theorem Dated.perform (h : Φ.Dated) (hordered : Φ.Ordered) {part : Section C}
    (legal : Φ.Legal i part) : (Φ.perform i part).Dated := by
  refine ⟨fun w store id t ht => ?_, fun w j s hs => ?_⟩
  · rcases Φ.place_perform i part w store id with
      hsame | ⟨s, u, hpart, ha, -, -, hu⟩ | ⟨-, hnone⟩
    · rw [hsame] at ht
      exact (h.shelved w store id t ht).perform legal
    · -- the tape that was inserted is that of the session, which was the last one to be unsealed
      rw [hu] at ht
      cases ht
      have howns := (hordered.closing_of_sealing ha).owns t ha
      refine ⟨?_, fun v j s' hs' => ?_⟩
      · rw [howns.2]
        exact Nat.lt_of_lt_of_le (h.unsealed w i s (Or.inr ⟨t, ha⟩)) (nextSerial_perform Φ i part)
      · rw [hpart] at hs'
        exact absurd hs' (not_unsealed_of_sealing hordered ha s')
    · rw [hnone] at ht
      cases ht
  · rcases unsealed_of_perform legal hs with hs | ⟨-, hlt⟩
    · exact Nat.lt_of_lt_of_le (h.unsealed w j s hs) (nextSerial_perform Φ i part)
    · exact hlt

omit [∀ w, Scalar (C w)] [∀ w, Elementary (C w)] in
/-- At the start there are no tapes and no sessions. -/
theorem dated_start : ({} : Floor C).Dated := by
  refine ⟨fun w store id t ht => ?_, fun w i s hs => ?_⟩
  · have hnone : ({} : Floor C).shelves w store id = none := by
      show (({} : Recorder C).store w store).tapes[id]? = none
      rw [Recorder.store_start]
      exact Std.TreeMap.getElem?_emptyc
    rw [hnone] at ht
    cases ht
  · have hnone : ({} : World C).sessions.get w = [] := congrFun World.registry_start.1.sessions w
    rcases hs with hs | ⟨t, ht⟩
    · have hs' : (i, s) ∈ ({} : World C).sessions.get w := hs
      rw [hnone] at hs'
      cases hs'
    · cases ht

/-! ## Runs -/

section Runs

variable {Φ' : Floor C} {past past' : List (Moment C)}

/-- What every section of a run leaves true is true after it. -/
theorem Run.preserves {P : Floor C → Prop} (h : Φ.Run past Φ')
    (hstep : ∀ m ∈ past, m.before.Legal m.thread m.part → P m.before →
      P (m.before.perform m.thread m.part)) (hP : P Φ) : P Φ' := by
  induction h with
  | start => exact hP
  | step _ i part legal ih =>
    obtain ⟨hpast, hlast⟩ := List.forall_mem_append.mp hstep
    exact hlast _ (List.mem_singleton_self _) legal (ih hpast)

/-- A run can be cut at any moment. -/
theorem Run.cut {m : Moment C} (h : Φ.Run (past ++ m :: past') Φ') :
    Φ.Run past m.before ∧ m.before.Legal m.thread m.part ∧
      (m.before.perform m.thread m.part).Run past' Φ' := by
  generalize hall : past ++ m :: past' = all at h
  induction h generalizing past' with
  | start =>
    cases past <;> cases hall
  | @step all Ψ hrun i part legal ih =>
    rcases past'.eq_nil_or_concat' with rfl | ⟨rest, last, rfl⟩
    · -- it is cut at its last moment
      obtain ⟨rfl, hlast⟩ := List.append_inj' hall rfl
      cases hlast
      exact ⟨hrun, legal, .start⟩
    · have hsplit : (past ++ m :: rest) ++ [last] = all ++ [⟨Ψ, i, part⟩] := by
        rw [← hall, List.append_assoc, List.cons_append]
      obtain ⟨hall', hlast⟩ := List.append_inj' hsplit rfl
      cases hlast
      obtain ⟨hbefore, hlegal, hafter⟩ := ih hall'
      exact ⟨hbefore, hlegal, hafter.step i part legal⟩

/-- A section, and a run after it. -/
theorem Run.cons {m : Moment C} (legal : m.before.Legal m.thread m.part)
    (h : (m.before.perform m.thread m.part).Run past Φ') : m.before.Run (m :: past) Φ' := by
  induction h with
  | start => exact Run.start.step m.thread m.part legal
  | step _ i part hlegal ih => exact ih.step i part hlegal

theorem Run.dated (h : Φ.Run past Φ') (hordered : Φ.Ordered) (hdated : Φ.Dated) : Φ'.Dated := by
  have hboth : Φ'.Ordered ∧ Φ'.Dated := by
    refine h.preserves (P := fun Φ => Φ.Ordered ∧ Φ.Dated) (fun m _ legal hm => ?_)
      ⟨hordered, hdated⟩
    exact ⟨hm.1.perform legal, hm.2.perform hm.1 legal⟩
  exact hboth.2

end Runs

/-! ## Lookups -/

/-- What a thread does leaves another one in the midst of what it was. -/
theorem activity_perform_of_ne (Φ : Floor C) (part : Section C) (h : j ≠ i) :
    (Φ.perform i part).activity j = Φ.activity j := by
  cases part with
  | look w store id => exact activity_turn_of_ne _ _ _ h
  | next =>
    show (Φ.next i).activity j = _
    unfold next
    split
    · rfl
    all_goals exact activity_turn_of_ne _ _ _ h
  | @call w c =>
    show (Φ.start i c).activity j = _
    by_cases hc : c.Closes
    · obtain ⟨s, a, -, -, -, -, hstart⟩ := Φ.start_of_closes i hc
      rw [hstart]
      exact activity_turn_of_ne _ _ _ h
    · rw [start_eq hc]

/-- A lookup of a run: its two sections, what happened before, between and after them, and what was
    answered. -/
structure Reading (past : List (Moment C)) (w : Width) (store : StoreName) (id : TapeId) where
  earlier : List (Moment C)
  first : Moment C
  during : List (Moment C)
  last : Moment C
  later : List (Moment C)
  answer : Except Error (Tape (C w))
  past_eq : past = (earlier ++ first :: during) ++ last :: later
  begins : first.part = .look w store id
  /-- The thread does nothing in between. -/
  apart : ∀ m ∈ during, m.thread ≠ first.thread
  ends : last.thread = first.thread ∧ last.part = .next
  answers : last.before.Answers last.thread w store id answer

/-- All that happened before the lookup returned. -/
def Reading.before {past : List (Moment C)} (L : Reading past w store id) : List (Moment C) :=
  L.earlier ++ L.first :: L.during

/-- The run up to where the lookup goes on. -/
theorem Reading.run {past : List (Moment C)} (L : Reading past w store id) {Φ' : Floor C}
    (h : Φ.Run past Φ') : Φ.Run L.before L.last.before ∧
      L.last.before.Legal L.last.thread L.last.part := by
  rw [L.past_eq] at h
  exact ⟨h.cut.1, h.cut.2.1⟩

/-- What a lookup answers: the mark is that of its first section, the map that of its last. -/
theorem Reading.answer_eq {past : List (Moment C)} (L : Reading past w store id)
    {Φ' : Floor C} (h : Φ.Run past Φ') :
    L.answer = Store.tapeAfter (L.first.before.world.recorder.store w store).recording
      (L.last.before.world.recorder.store w store) id := by
  obtain ⟨-, -, hduring⟩ := (L.run h).1.cut
  obtain ⟨mark, hactivity, hanswer⟩ := L.answers
  -- the thread is in the midst of its lookup until it goes on
  have hlooking : L.last.before.activity L.first.thread = .looking w store id
      (L.first.before.world.recorder.store w store).recording := by
    refine hduring.preserves (P := fun Ψ => Ψ.activity L.first.thread = .looking w store id
      (L.first.before.world.recorder.store w store).recording) (fun m hm _ hΨ => ?_) ?_
    · exact (activity_perform_of_ne _ _ (Ne.symm (L.apart m hm))).trans hΨ
    · rw [L.begins]
      exact activity_turn_self ..
  rw [L.ends.1, hlooking] at hactivity
  cases hactivity
  exact hanswer

section Answers

variable {past : List (Moment C)} {Φ' : Floor C} (L : Reading past w store id)
  (h : Φ.Run past Φ')
include h

theorem Reading.unsealed (hanswer : L.answer = .error (.tapeNotSealed id)) :
    (L.first.before.world.recorder.store w store).recording = some id := by
  rw [L.answer_eq h] at hanswer
  rcases Store.tapeAfter_cases (L.first.before.world.recorder.store w store).recording
    (L.last.before.world.recorder.store w store) id with
    ⟨hmark, -⟩ | ⟨-, -, heq⟩ | ⟨t, -, -, heq⟩
  · exact hmark
  · rw [heq] at hanswer
    cases hanswer
  · rw [heq] at hanswer
    cases hanswer

theorem Reading.missing (hanswer : L.answer = .error (.tapeNotFound id)) :
    L.last.before.shelves w store id = none := by
  rw [L.answer_eq h] at hanswer
  rcases Store.tapeAfter_cases (L.first.before.world.recorder.store w store).recording
    (L.last.before.world.recorder.store w store) id with
    ⟨-, heq⟩ | ⟨-, hnone, -⟩ | ⟨t, -, -, heq⟩
  · rw [heq] at hanswer
    cases hanswer
  · exact hnone
  · rw [heq] at hanswer
    cases hanswer

theorem Reading.found {t : Tape (C w)} (hanswer : L.answer = .ok t) :
    L.last.before.shelves w store id = some t := by
  rw [L.answer_eq h] at hanswer
  rcases Store.tapeAfter_cases (L.first.before.world.recorder.store w store).recording
    (L.last.before.world.recorder.store w store) id with
    ⟨-, heq⟩ | ⟨-, -, heq⟩ | ⟨u, -, hsome, heq⟩
  · rw [heq] at hanswer
    cases hanswer
  · rw [heq] at hanswer
    cases hanswer
  · rw [heq] at hanswer
    cases hanswer
    exact hsome

end Answers

end Floor

/-- The section put a tape in this place. -/
inductive Moment.Seals : Moment C → (w : Width) → StoreName → TapeId → Prop
  | inserted {Φ : Floor C} {i : ThreadId} {w : Width} {s : Session w} {t : Tape (C w)}
      (ha : Φ.activity i = .sealing s t) : Seals ⟨Φ, i, .next⟩ w s.store s.id

/-- The section removed the tape of this place, if there was one. -/
def Moment.Removes (m : Moment C) (w : Width) (store : StoreName) (id : TapeId) : Prop :=
  m.part = .call (.remove store id : Call C w)

namespace Floor

variable {Φ Φ' : Floor C} {store : StoreName} {id : TapeId} {past : List (Moment C)}

/-- In this place there is this tape, or one of a later session, and so it will be. -/
structure FollowedBy (Φ : Floor C) (store : StoreName) (id : TapeId) (t : Tape (C w)) : Prop where
  outdates : Φ.Outdates t.session
  later : ∀ u, Φ.shelves w store id = some u → u = t ∨ t.session < u.session

variable [∀ w, Scalar (C w)] [∀ w, Elementary (C w)]

/-- A place has a tape after a section if it had one before, and that was not removed. -/
theorem shelves_ne_none_of_perform {m : Moment C} (hquiet : ¬ m.Removes w store id)
    (h : m.before.shelves w store id ≠ none) :
    (m.before.perform m.thread m.part).shelves w store id ≠ none := by
  rcases m.before.place_perform m.thread m.part w store id with
    hsame | ⟨-, t, -, -, -, -, ht⟩ | ⟨hpart, -⟩
  · rw [hsame]
    exact h
  · rw [ht]
    exact Option.some_ne_none t
  · exact absurd hpart hquiet

/-- A tape that was put in a place is there until it is removed. -/
theorem Run.shelves_of_seals {before after : List (Moment C)} {m : Moment C}
    (h : Φ.Run (before ++ m :: after) Φ') (hseals : m.Seals w store id)
    (hquiet : ∀ m' ∈ after, ¬ m'.Removes w store id) : Φ'.shelves w store id ≠ none := by
  obtain ⟨-, -, hafter⟩ := h.cut
  refine hafter.preserves (P := fun Ψ => Ψ.shelves w store id ≠ none)
    (fun m' hm' _ hΨ => shelves_ne_none_of_perform (hquiet m' hm') hΨ) ?_
  cases hseals with
  | @inserted Ψ i v s t ha =>
    show (Ψ.next i).shelves w s.store s.id ≠ none
    rw [shelves_of_sealing ha, Shelves.set_self]
    exact Option.some_ne_none t

theorem FollowedBy.perform {t : Tape (C w)} (h : Φ.FollowedBy store id t) (hordered : Φ.Ordered)
    {i : ThreadId} {part : Section C} (legal : Φ.Legal i part) :
    (Φ.perform i part).FollowedBy store id t := by
  refine ⟨h.outdates.perform legal, fun u hu => ?_⟩
  rcases Φ.place_perform i part w store id with
    hsame | ⟨s, u', -, ha, -, -, hu'⟩ | ⟨-, hnone⟩
  · rw [hsame] at hu
    exact h.later u hu
  · -- a tape that was still to be put in a map is of a later session
    rw [hu'] at hu
    cases hu
    right
    rw [((hordered.closing_of_sealing ha).owns u ha).2]
    exact h.outdates.unsealed w i s (Or.inr ⟨u, ha⟩)
  · rw [hnone] at hu
    cases hu

/-- What is in a place now is followed by no earlier tape. -/
theorem Run.later_of_shelves (h : Φ.Run past Φ') (hordered : Φ.Ordered) (hdated : Φ.Dated)
    {t u : Tape (C w)} (ht : Φ.shelves w store id = some t)
    (hu : Φ'.shelves w store id = some u) : u = t ∨ t.session < u.session := by
  have hboth : Φ'.Ordered ∧ Φ'.FollowedBy store id t := by
    refine h.preserves (P := fun Ψ => Ψ.Ordered ∧ Ψ.FollowedBy store id t)
      (fun m _ legal hm => ⟨hm.1.perform legal, hm.2.perform hm.1 legal⟩) ⟨hordered, ?_⟩
    refine ⟨hdated.shelved w store id t ht, fun u hu => Or.inl ?_⟩
    rw [ht] at hu
    cases hu
    rfl
  exact hboth.2.later u hu

end Floor

variable [∀ w, Scalar (C w)] [∀ w, Elementary (C w)]

/-- In every interleaving of sections, by any number of threads, none of which goes to a slot
    directly, and at whatever moment it is stopped: a store is marked only if the process is, with
    the same id; and one session at most is in flight.  And for every lookup in it:

    * it does not find the id missing, if a tape was put in its place before it returned, and was
      not removed since;
    * if it finds the id unsealed, then a session of that id had marked the store when the lookup
      read the mark;
    * if it answers a tape, then no lookup of the place that returns later answers a tape of an
      earlier session, nor another tape of the same session; and none finds the id missing, unless
      the tape was removed in the meantime. -/
theorem lookup_beside_sessions {past : List (Moment C)} {Φ : Floor C}
    (h : ({} : Floor C).Run past Φ) :
    (∀ w store id, (Φ.world.recorder.store w store).recording = some id →
        Φ.world.recorder.process = some id) ∧
      (∀ (w v : Width) (i j : ThreadId) (s : Session w) (s' : Session v), Φ.InFlight i s →
        Φ.InFlight j s' → (⟨w, i, s⟩ : (w : Width) × ThreadId × Session w) = ⟨v, j, s'⟩) ∧
      ∀ w store id (L : Floor.Reading past w store id),
        (∀ before m after, L.before = before ++ m :: after → m.Seals w store id →
          (∀ m' ∈ after, ¬ m'.Removes w store id) → L.answer ≠ .error (.tapeNotFound id)) ∧
        (L.answer = .error (.tapeNotSealed id) →
          ∃ (i : ThreadId) (s : Session w),
            L.first.before.Marks i s ∧ s.store = store ∧ s.id = id) ∧
        ∀ t, L.answer = .ok t → ∀ (L' : Floor.Reading past w store id) meantime,
          L'.before = L.before ++ L.last :: meantime →
            (∀ u, L'.answer = .ok u → u = t ∨ t.session < u.session) ∧
            ((∀ m ∈ meantime, ¬ m.Removes w store id) →
              L'.answer ≠ .error (.tapeNotFound id)) := by
  have hordered := h.ordered Floor.ordered_start
  refine ⟨fun w store id hmark => (hordered.marks hmark).1,
    fun w v i j s s' hs hs' => hordered.inFlight_unique hs hs', fun w store id L => ⟨?_, ?_, ?_⟩⟩
  · intro before m after hbefore hseals hquiet hmissing
    have hrun := (L.run h).1
    rw [hbefore] at hrun
    exact hrun.shelves_of_seals hseals hquiet (L.missing h hmissing)
  · intro hunsealed
    have hmark := L.unsealed h hunsealed
    exact (((L.run h).1.cut.1.ordered Floor.ordered_start).marks hmark).2
  · intro t hanswer L' meantime hbefore
    have hfound := L.found h hanswer
    obtain ⟨hrun, hlegal⟩ := L.run h
    have hrun' := (L'.run h).1
    rw [hbefore] at hrun'
    have hmeantime := hrun'.cut.2.2.cons hlegal
    refine ⟨fun u hu => ?_, fun hquiet hmissing => ?_⟩
    · exact hmeantime.later_of_shelves (hrun.ordered Floor.ordered_start)
        (hrun.dated Floor.ordered_start Floor.dated_start) hfound (L'.found h hu)
    · refine hmeantime.preserves (P := fun Ψ => Ψ.shelves w store id ≠ none)
        (fun m hm _ hΨ => Floor.shelves_ne_none_of_perform ?_ hΨ) ?_ (L'.missing h hmissing)
      · rcases List.mem_cons.mp hm with rfl | hm
        · intro hremoves
          cases L.ends.2.symm.trans hremoves
        · exact hquiet m hm
      · rw [hfound]
        exact Option.some_ne_none t

/-- A lookup reads the mark of a session, which then puts its tape in the map.  The lookup still
    finds the id unsealed. -/
theorem lookup_beside_sessions_of_late_seal :
    ∃ (past : List (Moment Width.Number)) (Φ : Floor Width.Number)
      (L : Floor.Reading past .double "a" 7), ({} : Floor Width.Number).Run past Φ ∧
      L.answer = .error (.tapeNotSealed 7) ∧ L.last.before.shelves .double "a" 7 ≠ none ∧
      ∃ (i : ThreadId) (s : Session .double),
        L.first.before.Marks i s ∧ s.store = "a" ∧ s.id = 7 := by
  let s : Session .double := ⟨"a", 7, 1⟩
  let begins : Section Width.Number := .call (.begin "a" 7 0 : Call _ .double)
  let looks : Section Width.Number := .look .double "a" 7
  let ends : Section Width.Number := .call (.endTrace s)
  let Φ₁ := ({} : Floor Width.Number).perform 0 begins
  let Φ₂ := Φ₁.perform 1 looks
  let Φ₃ := Φ₂.perform 0 ends
  let Φ₄ := Φ₃.perform 0 .next
  have h₁ : ({} : Floor Width.Number).Run [⟨{}, 0, begins⟩] Φ₁ :=
    .step .start 0 begins ⟨rfl, trivial, id⟩
  have h₂ := h₁.step 1 looks rfl
  have h₃ := h₂.step 0 ends ⟨rfl, List.mem_cons_self, id⟩
  have h₄ := h₃.step 0 .next (fun h => nomatch h)
  have h := h₄.step 1 .next (fun h => nomatch h)
  let L : Floor.Reading _ .double "a" 7 := {
    earlier := [⟨{}, 0, begins⟩]
    first := ⟨Φ₁, 1, looks⟩
    during := [⟨Φ₂, 0, ends⟩, ⟨Φ₃, 0, .next⟩]
    last := ⟨Φ₄, 1, .next⟩
    later := []
    answer := .error (.tapeNotSealed 7)
    past_eq := rfl
    begins := rfl
    apart := by simp
    ends := ⟨rfl, rfl⟩
    answers := ⟨some 7, rfl, rfl⟩ }
  have hseals : Moment.Seals ⟨Φ₃, 0, .next⟩ .double s.store s.id :=
    .inserted (t := (⟨7, 1, #[], #[], #[], #[]⟩ : Tape Float)) rfl
  have hsealed := h₄.shelves_of_seals hseals fun m hm => nomatch hm
  exact ⟨_, _, L, h, rfl, hsealed, ((lookup_beside_sessions h).2.2 _ _ _ L).2.1 rfl⟩

end DiffTape
