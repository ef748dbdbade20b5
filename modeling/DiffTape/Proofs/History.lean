/-
  STORES FOLLOW THE HISTORY OF SEALS.

  Of all the state that a session goes through (slots, marks, serials) nothing is left in a store
  but its tape.  So a store can be told from the past of a run alone: it maps an id to the tape that
  was sealed last under it, unless that was removed since (`LastSealed`).

  * `sealed_perform_iff` — the step: a place has a tape after a turn exactly if the turn sealed it
                           there, or left the place alone and the tape was there before.
  * `lastSealed_append`  — the same of the past, read from its end.
  * `record_history`     — a whole recording seals its tape in its last turn, or nothing if it
                           fails.

  The first two have one form, so the induction over a run is short.  That an end of a session
  always seals is `Run.slot_of_session`: as long as nobody goes to the slots directly, the tape in
  the slot is that of the open session.  And nothing is sealed as long as a session stays open, for
  that could only be its own end (`seals_none_of_open`).
-/
import DiffTape.Proofs.Exclusion
import DiffTape.Proofs.Lookup
import DiffTape.Proofs.Sealing
import Mathlib.Data.List.Basic

namespace DiffTape

variable {C : Width → Type} {w : Width} {i : ThreadId} {α : Type}

/-! ## What a turn does to the stores -/

/-- The call can change what is sealed. -/
def Call.CanChangeStores : Call C w → Prop
  | .endTrace _ | .remove _ _ => True
  | _ => False

/-- The call appends to a tape that is being recorded, if it does anything. -/
def Call.Appends : Call C w → Prop
  | .independent .. | .apply .. | .frexp _ | .combine .. | .dependent .. => True
  | _ => False

/-- The turn removed the tape of this place, if there was one. -/
inductive Turn.Removes : Turn C → Width → StoreName → TapeId → Prop
  | removed {W : World C} {i : ThreadId} {w : Width} {store : StoreName} {id : TapeId} :
      Removes ⟨W, i, w, .remove store id⟩ w store id

section Seals

variable [∀ w, Scalar (C w)] [∀ w, Elementary (C w)]

/-- The turn ended a session with success, and this is the tape that the session had recorded. -/
inductive Turn.Seals : Turn C → (w : Width) → StoreName → TapeId → Tape (C w) → Prop
  | ended {W : World C} {i : ThreadId} {w : Width} {s : Session w} {t : Tape (C w)}
      (hslot : W.recorder.slot? w i = some t) (howns : s.Owns t)
      (hok : W.outcome i (.endTrace s) = .ok none) :
      Seals ⟨W, i, w, .endTrace s⟩ w s.store s.id t

/-- The turn sealed a tape. -/
def Turn.SealsSome (T : Turn C) : Prop := ∃ w store id t, T.Seals w store id t

/-- Nothing but the end of a session seals. -/
theorem Turn.not_sealsSome {W : World C} {i : ThreadId} {call : Call C w}
    (h : ∀ s, call ≠ .endTrace s) : ¬ Turn.SealsSome ⟨W, i, w, call⟩ := by
  rintro ⟨v, store, id, t, hseals⟩
  cases hseals
  exact h _ rfl

/-- The turn sealed a tape in this place, or removed it. -/
def Turn.Changes (T : Turn C) (w : Width) (store : StoreName) (id : TapeId) : Prop :=
  (∃ t, T.Seals w store id t) ∨ T.Removes w store id

/-- A turn that leaves a place alone makes no difference to what is true of it. -/
theorem Turn.iff_of_not_changes {T : Turn C} {store : StoreName} {id : TapeId} {t : Tape (C w)}
    {P : Prop} (h : ¬ T.Changes w store id) :
    P ↔ T.Seals w store id t ∨ ¬ T.Changes w store id ∧ P := by
  constructor
  · exact fun hP => Or.inr ⟨h, hP⟩
  · rintro (hseals | ⟨-, hP⟩)
    · exact absurd (Or.inl ⟨t, hseals⟩) h
    · exact hP

/-- The tape was sealed in this place in the past, and the place was left alone since. -/
def LastSealed (past : List (Turn C)) (w : Width) (store : StoreName) (id : TapeId)
    (t : Tape (C w)) : Prop :=
  ∃ before T after, past = before ++ T :: after ∧ T.Seals w store id t ∧
    ∀ T' ∈ after, ¬ T'.Changes w store id

/-- The last turn sealed the tape, or left the place alone in which it was. -/
theorem lastSealed_append {past : List (Turn C)} {T : Turn C} {store : StoreName} {id : TapeId}
    {t : Tape (C w)} :
    LastSealed (past ++ [T]) w store id t ↔
      T.Seals w store id t ∨ ¬ T.Changes w store id ∧ LastSealed past w store id t := by
  constructor
  · rintro ⟨before, T', after, heq, hseals, hquiet⟩
    rcases after.eq_nil_or_concat' with rfl | ⟨after', T'', rfl⟩
    · -- the tape was sealed by the last turn
      obtain ⟨-, hlast⟩ := List.append_inj' heq rfl
      cases hlast
      exact Or.inl hseals
    · have hsplit : past ++ [T] = (before ++ T' :: after') ++ [T''] := by
        rw [heq, List.append_assoc, List.cons_append]
      obtain ⟨hpast, hlast⟩ := List.append_inj' hsplit rfl
      cases hlast
      refine Or.inr ⟨hquiet T (List.mem_append_right _ (List.mem_singleton_self T)), before, T',
        after', hpast, hseals, fun T' hT' => hquiet T' (List.mem_append_left _ hT')⟩
  · rintro (hseals | ⟨hquiet, before, T', after, rfl, hseals, hafter⟩)
    · exact ⟨past, T, [], rfl, hseals, fun T' hT' => absurd hT' List.not_mem_nil⟩
    · refine ⟨before, T', after ++ [T], ?_, hseals, fun T'' hT'' => ?_⟩
      · rw [List.append_assoc, List.cons_append]
      · rcases List.mem_append.mp hT'' with hT'' | hT''
        · exact hafter T'' hT''
        · rw [List.mem_singleton.mp hT'']
          exact hquiet

end Seals

/-- At most the tape in the slot of a thread is changed. -/
def Recorder.ChangesSlot (w : Width) (i : ThreadId) (r r' : Recorder C) : Prop :=
  r' = r ∨ ∃ f, r' = r.modifySlot w i f

namespace Recorder.ChangesSlot

variable {r r' : Recorder C}

theorem store (h : ChangesSlot w i r r') : r'.store = r.store := by
  rcases h with rfl | ⟨f, rfl⟩ <;> rfl

theorem nextSerial (h : ChangesSlot w i r r') : r'.nextSerial = r.nextSerial := by
  rcases h with rfl | ⟨f, rfl⟩ <;> rfl

end Recorder.ChangesSlot

/-- Taking a tape from a slot uses up no serial. -/
theorem Recorder.nextSerial_takeSlot (r : Recorder C) (w : Width) (i : ThreadId) (id : TapeId) :
    (r.takeSlot w i id).2.nextSerial = r.nextSerial := by
  rcases r.takeSlot_cases w i id with h | ⟨t, -, h⟩
  · rw [h]
  · rw [h]
    rfl

namespace World

variable {W : World C}

/-- What the host keeps of an answer is no part of the recorder. -/
theorem recorder_after (i : ThreadId) (m : RecorderT C Id α) (keep : α → World C → World C)
    (hkeep : ∀ a W', (keep a W').recorder = W'.recorder) :
    (W.after i m keep).recorder = (m.exec i W.recorder).2 := by
  cases hexec : m.exec i W.recorder with
  | mk answer r =>
    cases answer with
    | ok a => rw [after_of_ok hexec, hkeep]
    | error f => rw [after_of_error hexec]

variable [∀ w, Scalar (C w)] [∀ w, Elementary (C w)] {past : List (Turn C)}

theorem changesSlot_recordUnary (op : Opcode) (aux : Aux) (x : Handle (C w)) (r : Recorder C) :
    Recorder.ChangesSlot w i r ((x.recordUnary op aux).exec i r).2 := by
  rcases x.recordUnary_cases (i := i) op aux r with ⟨f, h⟩ | ⟨-, h⟩ | ⟨t, -, -, -, h⟩
  · exact Or.inl (congrArg Prod.snd h)
  · exact Or.inl (congrArg Prod.snd h)
  · exact Or.inr ⟨_, congrArg Prod.snd h⟩

theorem changesSlot_recordBinary (op : Opcode) (x y : Handle (C w)) (r : Recorder C) :
    Recorder.ChangesSlot w i r ((x.recordBinary op y).exec i r).2 := by
  rcases x.recordBinary_cases (i := i) op y r with ⟨f, h⟩ | ⟨-, -, h⟩ | ⟨t, -, -, -, -, h⟩
  · exact Or.inl (congrArg Prod.snd h)
  · exact Or.inl (congrArg Prod.snd h)
  · exact Or.inr ⟨_, congrArg Prod.snd h⟩

/-- Traced code changes the tape in the slot of its thread, and nothing else of the recorder. -/
theorem changesSlot_perform (W : World C) (i : ThreadId) {call : Call C w} (h : call.Appends) :
    Recorder.ChangesSlot w i W.recorder (W.perform i call).recorder := by
  cases call with
  | independent s v =>
    show Recorder.ChangesSlot w i _ (W.after i (s.independent v) gain).recorder
    rw [recorder_after i _ gain fun _ _ => rfl]
    rcases s.independent_cases (i := i) v W.recorder with ⟨f, h⟩ | ⟨t, -, -, -, h⟩
    · exact Or.inl (congrArg Prod.snd h)
    · exact Or.inr ⟨_, congrArg Prod.snd h⟩
  | apply op x =>
    show Recorder.ChangesSlot w i _ (W.after i (x.apply op) gain).recorder
    rw [recorder_after i _ gain fun _ _ => rfl]
    exact changesSlot_recordUnary _ _ x _
  | frexp x =>
    show Recorder.ChangesSlot w i _ (W.after i x.frexp fun answer => gain answer.1).recorder
    rw [after_frexp, recorder_after i _ gain fun _ _ => rfl]
    exact changesSlot_recordUnary _ _ x _
  | combine op x y =>
    show Recorder.ChangesSlot w i _ (W.after i (x.combine op y) gain).recorder
    rw [recorder_after i _ gain fun _ _ => rfl]
    exact changesSlot_recordBinary _ x y _
  | dependent s x =>
    show Recorder.ChangesSlot w i _ (W.after i (s.dependent x) (hear s.serial)).recorder
    rw [recorder_after i _ (hear s.serial) fun _ _ => rfl]
    rcases s.dependent_cases (i := i) x W.recorder with ⟨f, h⟩ | ⟨t, -, -, -, h⟩
    · exact Or.inl (congrArg Prod.snd h)
    · exact Or.inr ⟨_, congrArg Prod.snd h⟩
  | _ => exact h.elim

/-- Whatever comes of it, a call other than the end of a session or a removal leaves the sealed
    tapes of all stores alone. -/
theorem sealed_perform_of_quiet (W : World C) (i : ThreadId) {call : Call C w}
    (h : ¬ call.CanChangeStores) : (W.perform i call).recorder.sealed? = W.recorder.sealed? := by
  have hsame : ∀ {r : Recorder C}, r.store = W.recorder.store → r.sealed? = W.recorder.sealed? := by
    intro r hstore
    funext v name id
    unfold Recorder.sealed?
    rw [hstore]
  by_cases happends : call.Appends
  · exact hsame (W.changesSlot_perform i happends).store
  cases call with
  | begin store id capacity =>
    show (W.after i (beginTraceWithCapacity w store id capacity) (hold i)).recorder.sealed? = _
    rw [recorder_after i _ (hold i) fun _ _ => rfl]
    rcases Session.begin_outcome (i := i) store id capacity W.recorder with
      ⟨f, r, h, rfl | rfl⟩ | ⟨-, -, h⟩
    · rw [h]
    · rw [h]
      exact hsame rfl
    · -- a session that opens sets a mark, and no more
      rw [h]
      exact Recorder.shelves_of_same (.opened W.recorder w i store id)
        (W.recorder.sealed?_opened w i store id)
  | independent | apply | frexp | combine | dependent => exact absurd trivial happends
  | drop s =>
    show (W.after i s.drop ignore).recorder.sealed? = _
    rw [recorder_after i _ ignore fun _ _ => rfl]
    have htaken := (Recorder.Within.takeSlot W.recorder i s.id).trans (.released _ s)
    refine Recorder.shelves_of_same (htaken.note [.sessionDropped s.id]) ?_
    show (s.released (W.recorder.takeSlot w i s.id).2).sealed? w = _
    rw [Recorder.sealed?_released]
    rcases W.recorder.takeSlot_cases w i s.id with htake | ⟨t, -, htake⟩
    · rw [htake]
    · rw [htake]
      rfl
  | takeSlot => exact hsame rfl
  | replaceSlot t => exact hsame rfl
  | endTrace s => exact absurd trivial h
  | remove store id => exact absurd trivial h

/-- The end of an open session seals its tape. -/
theorem Run.seals_endTrace (h : ({} : World C).Run False past W) {s : Session w}
    (hs : (i, s) ∈ W.sessions.get w) :
    ∃ t r, W.recorder.slot? w i = some t ∧ s.Owns t ∧
      s.endTrace.exec i W.recorder = (.ok t.stats, r) ∧
      Turn.Seals ⟨W, i, w, .endTrace s⟩ w s.store s.id t ∧
      (W.perform i (.endTrace s)).recorder.sealed? =
        Shelves.set W.recorder.sealed? w s.store s.id (some t) := by
  obtain ⟨t, hslot, hid, hserial⟩ := h.slot_of_session hs
  obtain ⟨r, hexec, hsealed⟩ := Session.endTrace_of_tape hslot hid
  have hok : W.outcome i (.endTrace s) = .ok none := by
    show (s.endTrace.exec i W.recorder).1.map (fun _ => none) = _
    rw [hexec]
    rfl
  refine ⟨t, r, hslot, ⟨hid, hserial⟩, hexec, .ended hslot ⟨hid, hserial⟩ hok, ?_⟩
  show (W.after i s.endTrace ignore).recorder.sealed? = _
  rw [recorder_after i _ ignore fun _ _ => rfl, hexec]
  exact hsealed

/-- A removal empties one place. -/
theorem sealed_remove (W : World C) (i : ThreadId) (w : Width) (store : StoreName) (id : TapeId) :
    (W.perform i (.remove store id : Call C w)).recorder.sealed? =
      Shelves.set W.recorder.sealed? w store id none :=
  Recorder.shelves_of_set (.modifyStore W.recorder store fun s => (s.remove id).2)
    (W.recorder.sealed?_remove store id)

/-- After a turn a place has a tape exactly if the turn sealed it there, or left the place alone and
    the tape was there before. -/
theorem Run.sealed_perform_iff (h : ({} : World C).Run False past W) {call : Call C w}
    (legal : W.Legal i call) {v : Width} {store : StoreName} {id : TapeId} {t : Tape (C v)} :
    (W.perform i call).recorder.sealed? v store id = some t ↔
      Turn.Seals ⟨W, i, w, call⟩ v store id t ∨
        ¬ Turn.Changes ⟨W, i, w, call⟩ v store id ∧ W.recorder.sealed? v store id = some t := by
  by_cases hquiet : call.CanChangeStores
  · cases call with
    | endTrace s =>
      obtain ⟨t₀, -, hslot, -, -, hseals, hperform⟩ := h.seals_endTrace legal
      rw [hperform]
      by_cases hplace : v = w ∧ store = s.store ∧ id = s.id
      · obtain ⟨rfl, rfl, rfl⟩ := hplace
        rw [Shelves.set_self]
        constructor
        · rintro ⟨⟩
          exact Or.inl hseals
        · rintro (h | ⟨h, -⟩)
          · cases h with
            | ended hslot' _ _ =>
              rw [hslot] at hslot'
              exact hslot'
          · exact absurd (Or.inl ⟨t₀, hseals⟩) h
      · rw [Shelves.set_of_ne _ _ hplace]
        have hother : ¬ Turn.Changes ⟨W, i, w, .endTrace s⟩ v store id := by
          rintro (⟨t, h⟩ | h)
          · cases h
            exact hplace ⟨rfl, rfl, rfl⟩
          · cases h
        exact Turn.iff_of_not_changes hother
    | remove name j =>
      rw [sealed_remove]
      have hnone : ¬ Turn.Seals ⟨W, i, w, .remove name j⟩ v store id t := by
        intro h
        cases h
      by_cases hplace : v = w ∧ store = name ∧ id = j
      · obtain ⟨rfl, rfl, rfl⟩ := hplace
        rw [Shelves.set_self]
        exact ⟨fun ht => (nomatch ht),
          fun ht => ht.elim (fun h => absurd h hnone) fun h => absurd (Or.inr .removed) h.1⟩
      · rw [Shelves.set_of_ne _ _ hplace]
        have hother : ¬ Turn.Changes ⟨W, i, w, .remove name j⟩ v store id := by
          rintro (⟨t, h⟩ | h)
          · cases h
          · cases h
            exact hplace ⟨rfl, rfl, rfl⟩
        exact Turn.iff_of_not_changes hother
    | _ => exact hquiet.elim
  · rw [sealed_perform_of_quiet W i hquiet]
    have hother : ¬ Turn.Changes ⟨W, i, w, call⟩ v store id := by
      rintro (⟨t, h⟩ | h)
      · cases h
        exact hquiet trivial
      · cases h
        exact hquiet trivial
    exact Turn.iff_of_not_changes hother

/-- The stores are what the past makes of them. -/
theorem Run.sealed_iff_lastSealed (h : ({} : World C).Run False past W) {store : StoreName}
    {id : TapeId} {t : Tape (C w)} :
    W.recorder.sealed? w store id = some t ↔ LastSealed past w store id t := by
  induction h with
  | start =>
    have hnone : ({} : World C).recorder.sealed? w store id = none := by
      show (({} : Recorder C).store w store).tapes[id]? = none
      rw [Recorder.store_start]
      exact Std.TreeMap.getElem?_emptyc
    rw [hnone]
    refine ⟨fun ht => (nomatch ht), ?_⟩
    rintro ⟨before, T, after, hpast, -⟩
    cases before <;> cases hpast
  | step h i call legal _ ih => rw [h.sealed_perform_iff legal, lastSealed_append, ih]

/-- A run that leaves a place alone leaves its tape there. -/
theorem Run.sealed_of_unchanged (h : ({} : World C).Run False past W) {past' : List (Turn C)}
    {W' : World C} (h' : W.Run False past' W') {store : StoreName} {id : TapeId}
    (hquiet : ∀ T ∈ past', ¬ T.Changes w store id) :
    W'.recorder.sealed? w store id = W.recorder.sealed? w store id := by
  induction h' with
  | start => rfl
  | step hrun i call legal _ ih =>
    have hsame := ih fun T hT => hquiet T (List.mem_append_left _ hT)
    have hlast := hquiet _ (List.mem_append_right _ (List.mem_singleton_self _))
    rw [← hsame]
    ext t
    rw [(h.trans hrun).sealed_perform_iff legal]
    exact (Turn.iff_of_not_changes hlast).symm

/-! ## Calls that fail -/

/-- A call that fails leaves the stores alone, marks and all. -/
theorem Run.store_perform_of_error (h : ({} : World C).Run False past W) {call : Call C w}
    (legal : W.Legal i call) {f : Failure} (hf : W.outcome i call = .error f) :
    (W.perform i call).recorder.store = W.recorder.store := by
  by_cases hrefused : call.operands ≠ [] ∨ ∃ s x, call = .dependent s x
  · rw [(perform_of_refused hrefused hf).2]
  cases call with
  | begin store id capacity =>
    have houtcome : W.outcome i (.begin store id capacity) =
        ((beginTraceWithCapacity w store id capacity).exec i W.recorder).1.map
          fun _ => none := rfl
    show (W.after i (beginTraceWithCapacity w store id capacity) (hold i)).recorder.store = _
    rcases Session.begin_outcome (i := i) store id capacity W.recorder with
      ⟨f, r, hexec, rfl | rfl⟩ | ⟨-, -, hexec⟩
    · rw [after_of_error hexec]
    · rw [after_of_error hexec]
      rfl
    · rw [houtcome, hexec] at hf
      cases hf
  | independent s v =>
    have houtcome : W.outcome i (.independent s v) =
        ((s.independent v).exec i W.recorder).1.map some := rfl
    show (W.after i (s.independent v) gain).recorder.store = _
    rcases s.independent_cases (i := i) v W.recorder with ⟨e, hexec⟩ | ⟨t, -, -, -, hexec⟩
    · rw [after_of_error hexec]
    · rw [houtcome, hexec] at hf
      cases hf
  | endTrace s =>
    -- the end of a session does not fail
    obtain ⟨t, r, -, -, hexec, -⟩ := h.seals_endTrace legal
    have houtcome : W.outcome i (.endTrace s) =
        (s.endTrace.exec i W.recorder).1.map fun _ => none := rfl
    rw [houtcome, hexec] at hf
    cases hf
  | apply op x | frexp x | combine op x y => exact absurd (Or.inl (List.cons_ne_nil _ _)) hrefused
  | dependent s x => exact absurd (Or.inr ⟨s, x, rfl⟩) hrefused
  | drop s | remove store id | takeSlot | replaceSlot t => cases hf

/-! ## The slots -/

/-- While a session is open its tape is in the slot of its thread, and there is no other tape in any
    slot. -/
theorem Run.slot_eq_none (h : ({} : World C).Run False past W) {s : Session w}
    (hs : (i, s) ∈ W.sessions.get w) {v : Width} {j : ThreadId} (hother : v ≠ w ∨ j ≠ i) :
    W.recorder.slot? v j = none := by
  have hheld := (h.exclusive (Or.inl registry_start.1)).heldBy hs
  cases hslot : W.recorder.slot? v j with
  | none => rfl
  | some t =>
    obtain ⟨s', hs', -, -⟩ := h.session_of_slot hslot
    cases hheld.eq_of_mem hs'
    exact absurd rfl (hother.resolve_left (not_not.mpr rfl))

/-! ## A whole recording -/

section Sessions

variable {direct : Prop} {W' : World C}

theorem Run.nextSerial_le (h : W.Run direct past W') :
    W.recorder.nextSerial ≤ W'.recorder.nextSerial := by
  induction h with
  | start => exact Nat.le_refl _
  | @step _ W' _ i w call _ _ ih => exact Nat.le_trans ih (within_perform W' i call).recorder.serial

/-- A call uses up one serial at most: one to open a session. -/
theorem nextSerial_perform_le (W : World C) (i : ThreadId) (call : Call C w) :
    (W.perform i call).recorder.nextSerial ≤ W.recorder.nextSerial + 1 := by
  by_cases happends : call.Appends
  · exact Nat.le_succ_of_le (Nat.le_of_eq (W.changesSlot_perform i happends).nextSerial)
  cases call with
  | begin store id capacity =>
    show (W.after i (beginTraceWithCapacity w store id capacity) (hold i)).recorder.nextSerial ≤ _
    rw [recorder_after i _ (hold i) fun _ _ => rfl]
    rcases Session.begin_outcome (i := i) store id capacity W.recorder with
      ⟨f, r, h, rfl | rfl⟩ | ⟨-, -, h⟩
    · rw [h]
      exact Nat.le_succ _
    · rw [h]
      exact Nat.le_refl _
    · rw [h]
      exact Nat.le_refl _
  | independent | apply | frexp | combine | dependent => exact absurd trivial happends
  | endTrace s =>
    show (W.after i s.endTrace ignore).recorder.nextSerial ≤ _
    rw [recorder_after i _ ignore fun _ _ => rfl, s.endTrace_exec]
    -- whether a tape is sealed or not, the serials are those after it was taken
    have htake := W.recorder.nextSerial_takeSlot w i s.id
    generalize W.recorder.takeSlot w i s.id = taken at htake ⊢
    rcases taken with ⟨_ | t, r⟩
    · exact Nat.le_succ_of_le (Nat.le_of_eq htake)
    · exact Nat.le_succ_of_le (Nat.le_of_eq htake)
  | drop s =>
    exact Nat.le_succ_of_le (Nat.le_of_eq (W.recorder.nextSerial_takeSlot w i s.id))
  | remove | takeSlot | replaceSlot => exact Nat.le_succ _

/-- A run takes at most one serial for each of its calls. -/
theorem Run.nextSerial_le_add_length (h : W.Run direct past W') :
    W'.recorder.nextSerial ≤ W.recorder.nextSerial + past.length := by
  induction h with
  | start => exact Nat.le_refl _
  | @step _ W' _ i w call _ _ ih =>
    rw [List.length_append, List.length_singleton, ← Nat.add_assoc]
    exact Nat.le_trans (nextSerial_perform_le W' i call) (Nat.succ_le_succ ih)

/-- The serials of a run are 64-bit words, unless it makes as many calls as there are words. -/
theorem Run.nextSerial_lt_size (h : ({} : World C).Run direct past W)
    (hcalls : past.length < UInt64.size - 1) : W.recorder.nextSerial < UInt64.size := by
  have hle : W.recorder.nextSerial ≤ 1 + past.length := h.nextSerial_le_add_length
  omega

/-- A session that is open now, and had its serial before, was open then: none is opened twice. -/
theorem Run.mem_sessions_of_later (h : W.Run direct past W') {s : Session w}
    (hserial : s.serial < W.recorder.nextSerial) (hs : (i, s) ∈ W'.sessions.get w) :
    (i, s) ∈ W.sessions.get w := by
  induction h with
  | start => exact hs
  | @step _ W' hrun j v call _ _ ih =>
    rcases W'.sessions_perform j call w with hsame | ⟨new, hnew, -, hcases⟩
    · exact ih (hsame i s hs)
    · rcases hcases i s hs with hold | rfl
      · exact ih hold
      · -- a session that is opened on the way has a later serial
        have hle := hrun.nextSerial_le
        omega

omit [∀ w, Scalar (C w)] [∀ w, Elementary (C w)] in
/-- Closing a session, well or not, takes it from the open ones. -/
theorem sessions_closed (W : World C) (i : ThreadId) (s : Session w) (m : RecorderT C Id α) :
    ((W.after i m ignore).lose i s).sessions = W.sessions.modify w (·.erase (i, s)) := by
  have hsame : (W.after i m ignore).sessions = W.sessions := W.sessions_after i m fun _ _ => rfl
  show (W.after i m ignore).sessions.modify w (·.erase (i, s)) = _
  rw [hsame]

/-- As long as a session stays open, nothing is sealed, for only its own end could do that. -/
theorem Run.seals_none_of_open (h : ({} : World C).Run direct past W) {past' : List (Turn C)}
    (h' : W.Run direct past' W') {s : Session w} (hs : (i, s) ∈ W.sessions.get w)
    (hs' : (i, s) ∈ W'.sessions.get w) : ∀ T ∈ past', ¬ T.SealsSome := by
  have hserial : s.serial < W.recorder.nextSerial := h.remembers.serial s (Or.inl ⟨i, hs⟩)
  induction h' with
  | start => exact fun T hT => absurd hT List.not_mem_nil
  | @step _ W' hrun j v call legal allowed ih =>
    have hopen : (i, s) ∈ W'.sessions.get w :=
      (Run.call legal allowed).mem_sessions_of_later
        (Nat.lt_of_lt_of_le hserial hrun.nextSerial_le) hs'
    intro T hT
    rcases List.mem_append.mp hT with hT | hT
    · exact ih hopen T hT
    · rw [List.mem_singleton.mp hT]
      rintro ⟨v', store, id, t, hseals⟩
      -- the only session that can end is the one that is open, and then it is open no longer
      cases hseals with
      | @ended _ _ _ s' _ _ _ _ =>
        have hheld := ((h.trans hrun).exclusive (Or.inl registry_start.1)).heldBy hopen
        cases hheld.eq_of_mem (show (j, s') ∈ W'.registry.sessions v from legal)
        have hone : W'.sessions.get w = [(i, s)] := by
          have hsessions : W'.sessions.get = Function.update Registry.noSessions w [(i, s)] :=
            hheld.sessions
          rw [hsessions, Function.update_self]
        have hclosed : (W'.perform i (.endTrace s)).sessions =
            W'.sessions.modify w (·.erase (i, s)) := W'.sessions_closed i s s.endTrace
        rw [hclosed, PerWidth.get_modify_self, hone, List.erase_cons_head] at hs'
        cases hs'

end Sessions

/-- What happens in the session of a recording: it stays open, and nothing is sealed. -/
theorem Run.traced_history (h : ({} : World C).Run False past W)
    {body : Array (Handle (C w)) → RecorderT C Id (Array (Handle (C w)))}
    (hbody : W.Traces False i body) {store : StoreName} {id : TapeId} {x : Array (C w)}
    {s : Session w} {r : Recorder C}
    (hbegin : (beginTraceWithCapacity w store id (x.size * 10)).exec i W.recorder = (.ok s, r)) :
    ∃ past' answer W', W.Run False past' W' ∧ (∀ T ∈ past', ¬ T.SealsSome) ∧
      (s.tracing x body).exec i r = (answer, W'.recorder) ∧
      W'.sessions = (W.hold i s).sessions ∧ (i, s) ∈ W'.sessions.get w := by
  let opening : Call C w := .begin store id (x.size * 10)
  have hcall : W.Run False [⟨W, i, w, opening⟩] (W.perform i opening) :=
    .call trivial fun h => nomatch h
  have hopened : W.perform i opening = hold i s { W with recorder := r } := after_of_ok hbegin
  rw [hopened] at hcall
  have hs : (i, s) ∈ (hold i s { W with recorder := r }).sessions.get w := by
    show (i, s) ∈ (W.sessions.modify w ((i, s) :: ·)).get w
    rw [PerWidth.get_modify_self]
    exact List.mem_cons_self
  obtain ⟨past₂, answer, W₂, hrun₂, hexec₂, hsessions₂⟩ := does_traced hbody hcall hs x
  have hs₂ : (i, s) ∈ W₂.sessions.get w := by
    rw [hsessions₂]
    exact hs
  refine ⟨_, answer, W₂, hcall.trans hrun₂, List.forall_mem_append.mpr ⟨?_, ?_⟩, hexec₂,
    hsessions₂, hs₂⟩
  · exact List.forall_mem_singleton.mpr (Turn.not_sealsSome fun s h => nomatch h)
  · exact (h.trans hcall).seals_none_of_open hrun₂ hs hs₂

/-- Whatever the traced code does: a recording that succeeds seals its tape at the very end, one
    that fails seals nothing, and either leaves open what was open. -/
theorem Run.record_history (h : ({} : World C).Run False past W)
    {body : Array (Handle (C w)) → RecorderT C Id (Array (Handle (C w)))}
    (hbody : W.Traces False i body) (store : StoreName) (id : TapeId) (x : Array (C w)) :
    ∃ past' answer W', W.Run False past' W' ∧
      (record store id x body).exec i W.recorder = (answer, W'.recorder) ∧
      W'.sessions = W.sessions ∧
      (∀ f, answer = .error f → ∀ T ∈ past', ¬ T.SealsSome) ∧
      ∀ values, answer = .ok values → ∃ before T t, past' = before ++ [T] ∧
        (∀ T' ∈ before, ¬ T'.SealsSome) ∧ T.Seals w store id t := by
  cases hbegin : (beginTraceWithCapacity w store id (x.size * 10)).exec i W.recorder with
  | mk answer r =>
    cases answer with
    | error f =>
      let opening : Call C w := .begin store id (x.size * 10)
      have hcall : W.Run False [⟨W, i, w, opening⟩] (W.perform i opening) :=
        .call trivial fun h => nomatch h
      have hrefused : W.perform i opening = { W with recorder := r } := after_of_error hbegin
      rw [hrefused] at hcall
      refine ⟨_, .error f, _, hcall, record_of_refused hbegin, rfl, fun _ _ => ?_,
        fun values hvalues => nomatch hvalues⟩
      exact List.forall_mem_singleton.mpr (Turn.not_sealsSome fun s h => nomatch h)
    | ok s =>
      obtain ⟨past', answer, W', hrun, hquiet, hexec, hsessions, hs⟩ :=
        h.traced_history hbody hbegin
      have hclosed : W'.sessions.modify w (·.erase (i, s)) = W.sessions := by
        rw [hsessions]
        exact PerWidth.modify_modify_cancel _ w fun l => List.erase_cons_head _ l
      cases answer with
      | error f =>
        -- the session is dropped
        have hdropped : (W'.perform i (.drop s)).recorder = (s.drop.exec i W'.recorder).2 := rfl
        refine ⟨_, .error f, _, hrun.step i (.drop s) hs (fun h => nomatch h), ?_,
          (W'.sessions_closed i s s.drop).trans hclosed, fun _ _ => ?_,
          fun values hvalues => nomatch hvalues⟩
        · rw [hdropped]
          exact record_of_failed hbegin hexec
        · exact List.forall_mem_append.mpr ⟨hquiet,
            List.forall_mem_singleton.mpr (Turn.not_sealsSome fun s h => nomatch h)⟩
      | ok values =>
        obtain ⟨t, r', -, -, hend, hseals, -⟩ := (h.trans hrun).seals_endTrace hs
        have hended : (W'.perform i (.endTrace s)).recorder = r' := by
          show (W'.after i s.endTrace ignore).recorder = r'
          rw [recorder_after i _ ignore fun _ _ => rfl, hend]
        obtain ⟨-, rfl, -⟩ := Session.begin_opened hbegin
        refine ⟨_, .ok values, _, hrun.step i (.endTrace _) hs (fun h => nomatch h), ?_,
          (W'.sessions_closed i _ _).trans hclosed, (fun f hf => nomatch hf),
          fun _ _ => ⟨past', _, t, rfl, hquiet, hseals⟩⟩
        rw [hended]
        exact record_of_traced hbegin hexec hend

end World

variable [∀ w, Scalar (C w)] [∀ w, Elementary (C w)]

/-- After every call of every run that leaves the slots alone:

    * an open session has its own tape in the slot of its thread, so that ending it succeeds, and
      every other slot is empty;
    * a store has the tape of an id that was sealed last, if it was not removed since, and no other;
    * opening a session, recording in it and dropping it change no sealed tape, and a call that
      fails changes nothing of a store;
    * recording a piece of traced code as a whole seals its tape at the very end, or nothing if it
      fails, and then only the removals that the code made itself change a store;
    * a lookup tells an id under recording from one without a sealed tape, and the ids of a store
      are listed in ascending order. -/
theorem stores_follow_history {past : List (Turn C)} {W : World C}
    (h : ({} : World C).Run False past W) :
    (∀ w i (s : Session w), (i, s) ∈ W.sessions.get w →
      (∃ t r, W.recorder.slot? w i = some t ∧ s.Owns t ∧
        s.endTrace.exec i W.recorder = (.ok t.stats, r)) ∧
      ∀ v j, v ≠ w ∨ j ≠ i → W.recorder.slot? v j = none) ∧
    (∀ w store id t,
      W.recorder.sealed? w store id = some t ↔ LastSealed past w store id t) ∧
    (∀ i w (call : Call C w), W.Legal i call →
      (¬ call.CanChangeStores → (W.perform i call).recorder.sealed? = W.recorder.sealed?) ∧
      ∀ f, W.outcome i call = .error f →
        (W.perform i call).recorder.store = W.recorder.store) ∧
    (∀ i w store id (x : Array (C w)) body, W.Traces False i body →
      ∃ past' answer W', W.Run False past' W' ∧
        (record store id x body).exec i W.recorder = (answer, W'.recorder) ∧
        W'.sessions = W.sessions ∧
        (∀ f, answer = .error f → (∀ T ∈ past', ¬ T.SealsSome) ∧
          ∀ v name j, (∀ T ∈ past', ¬ T.Removes v name j) →
            W'.recorder.sealed? v name j = W.recorder.sealed? v name j) ∧
        ∀ values, answer = .ok values → ∃ before T t, past' = before ++ [T] ∧
          (∀ T' ∈ before, ¬ T'.SealsSome) ∧ T.Seals w store id t ∧
          W'.recorder.sealed? w store id = some t) ∧
    ∀ w store, (W.recorder.store w store).ids.Pairwise (· < ·) ∧
      ∀ id, (W.recorder.store w store).Answers id (W.OpenOn w store id)
        (W.recorder.sealed? w store id) := by
  refine ⟨fun w i s hs => ⟨?_, fun v j hother => h.slot_eq_none hs hother⟩,
    fun w store id t => h.sealed_iff_lastSealed, fun i w call legal =>
      ⟨World.sealed_perform_of_quiet W i, fun f hf => h.store_perform_of_error legal hf⟩,
    fun i w store id x body hbody => ?_, fun w store => ⟨Store.ids_ascending _, fun id => ?_⟩⟩
  · obtain ⟨t, r, hslot, howns, hend, -, -⟩ := h.seals_endTrace hs
    exact ⟨t, r, hslot, howns, hend⟩
  · obtain ⟨past', answer, W', hrun, hexec, hsessions, herror, hok⟩ :=
      h.record_history hbody store id x
    refine ⟨past', answer, W', hrun, hexec, hsessions, fun f hf => ⟨herror f hf, ?_⟩,
      fun values hvalues => ?_⟩
    · intro v name j hkept
      refine h.sealed_of_unchanged hrun fun T hT => ?_
      rintro (⟨t, hseals⟩ | hremoves)
      · exact herror f hf T hT ⟨v, name, j, t, hseals⟩
      · exact hkept T hT hremoves
    · obtain ⟨before, T, t, rfl, hquiet, hseals⟩ := hok values hvalues
      refine ⟨before, T, t, rfl, hquiet, hseals, ?_⟩
      rw [(h.trans hrun).sealed_iff_lastSealed, ← List.append_assoc, lastSealed_append]
      exact Or.inl hseals
  · -- the mark of a store is that of the session that is open on it
    have hmark := World.recording_iff (h.exclusive (Or.inl World.registry_start.1)) w store id
    rw [← propext hmark]
    exact (W.recorder.store w store).answers id

/-- An id that has a sealed tape is recorded again.  Every lookup says that it is not sealed; and if
    the new session is dropped, the old tape is still there. -/
theorem stores_follow_history_of_retrace :
    ∃ (past : List (Turn Width.Number)) (W : World Width.Number) (s : Session .double)
      (old : Tape (Width.Number .double)),
      ({} : World Width.Number).Run False past W ∧ (0, s) ∈ W.sessions.get .double ∧
      LastSealed past .double s.store s.id old ∧
      (∀ q, (W.recorder.store .double s.store).failure? s.id q =
        some (.error (.tapeNotSealed s.id))) ∧
      (W.perform 0 (.drop s)).recorder.sealed? .double s.store s.id = some old := by
  let s₁ : Session .double := ⟨"s", 7, 1⟩
  let s₂ : Session .double := ⟨"s", 7, 2⟩
  let old : Tape (Width.Number .double) := ⟨7, 1, #[], #[(1 : Float)], #[0], #[]⟩
  let W₁ := ({} : World Width.Number).perform 0 (.begin "s" 7 0 : Call _ .double)
  let W₂ := W₁.perform 0 (.independent s₁ (1 : Float))
  let W₃ := W₂.perform 0 (.endTrace s₁)
  let W := W₃.perform 0 (.begin "s" 7 0 : Call _ .double)
  have h₁ : ({} : World Width.Number).Run False _ W₁ := .call trivial id
  have h₂ : ({} : World Width.Number).Run False _ W₂ := h₁.step 0 _ List.mem_cons_self id
  have h₃ : ({} : World Width.Number).Run False _ W₃ := h₂.step 0 _ List.mem_cons_self id
  have h : ({} : World Width.Number).Run False _ W := h₃.step 0 _ trivial id
  have hs : (0, s₂) ∈ W.sessions.get .double := List.mem_cons_self
  -- opening the second session leaves the tape of the first in its place
  obtain ⟨-, -, hquiet₃, -⟩ := stores_follow_history h₃
  have hopened : W.recorder.sealed? = W₃.recorder.sealed? :=
    (hquiet₃ 0 .double (.begin "s" 7 0) trivial).1 id
  have hold : W.recorder.sealed? .double "s" 7 = some old := by
    rw [hopened]
    exact World.sealed_endTrace (s := s₁) (t := old) rfl rfl
  obtain ⟨-, hlast, hquiet, -, hanswers⟩ := stores_follow_history h
  have hdropped : (W.perform 0 (.drop s₂)).recorder.sealed? = W.recorder.sealed? :=
    (hquiet 0 .double (.drop s₂) hs).1 id
  have hopen : W.OpenOn .double "s" 7 := ⟨0, s₂, hs, rfl, rfl⟩
  refine ⟨_, W, s₂, old, h, hs, (hlast .double "s" 7 old).mp hold,
    fun q => (((hanswers .double "s").2 7).notSealed q).mpr hopen, ?_⟩
  rw [hdropped]
  exact hold

end DiffTape
