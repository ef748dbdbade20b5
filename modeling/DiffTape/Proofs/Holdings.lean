/-
  THE TAPES THERE ARE.

  A host can take the tape out of a slot, keep it, and put it in a slot again: of another thread, of
  a later session, or twice.  What it cannot do is make a tape, other than an empty one.  So every
  tape that is ever in a slot or a store is `Recorded`, whatever the host does with the slots.

  The runs of `Hosted` are all runs, in which a tape that is put in a slot is one that the host can
  have had.  The invariant is one of a view (`View.AllRecorded`).  No step of it needs to know whose
  tape it is that grows: an append keeps a recorded tape recorded, at any length
  (`View.AllRecorded.step`).
-/
import DiffTape.Proofs.Soundness

namespace DiffTape

/-! ## One format -/

namespace View

variable {F : Type}

/-- Every tape in a slot or a store is recorded. -/
structure AllRecorded (V : View F) : Prop where
  slot : ∀ i t, V.slot i = some t → t.Recorded
  sealed : ∀ store id t, V.sealed store id = some t → t.Recorded

variable {V V' : View F}

/-- What is put in a slot or in a store is the only thing that has to be looked at. -/
theorem AllRecorded.setSlot (h : V.AllRecorded) (i : ThreadId) {o : Option (Tape F)}
    (ho : ∀ t, o = some t → t.Recorded) : (V.setSlot i o).AllRecorded := by
  refine ⟨fun j t ht => ?_, h.sealed⟩
  rcases eq_or_of_update ht with ⟨-, hnew⟩ | ⟨-, hold⟩
  · exact ho t hnew
  · exact h.slot j t hold

theorem AllRecorded.clearSlot (h : V.AllRecorded) (i : ThreadId) :
    (V.setSlot i none).AllRecorded :=
  h.setSlot i fun _ hnone => nomatch hnone

theorem AllRecorded.setSealed (h : V.AllRecorded) (store : StoreName) (id : TapeId)
    {o : Option (Tape F)} (ho : ∀ t, o = some t → t.Recorded) :
    (V.setSealed store id o).AllRecorded := by
  refine ⟨h.slot, fun name j t ht => ?_⟩
  rcases sealed_of_setSealed ht with hnew | hold
  · exact ho t hnew
  · exact h.sealed name j t hold

theorem AllRecorded.gain (h : V.AllRecorded) (x : Handle F) : (V.gain x).AllRecorded :=
  ⟨h.slot, h.sealed⟩

theorem AllRecorded.answer (h : V.AllRecorded) (serial : Nat) (v : F) :
    (V.answer serial v).AllRecorded :=
  ⟨h.slot, h.sealed⟩

/-- A tape in a slot is replaced by one that grew out of it. -/
theorem AllRecorded.grow (h : V.AllRecorded) {i : ThreadId} {t t' : Tape F}
    (hslot : V.slot i = some t) (hgrow : t.Recorded → t'.Recorded) :
    (V.setSlot i (some t')).AllRecorded := by
  refine h.setSlot i fun u hu => ?_
  cases hu
  exact hgrow (h.slot i t hslot)

variable [Scalar F] [Elementary F]

/-- A step appends to a tape, moves one, makes an empty one, or takes one away. -/
theorem AllRecorded.step (h : V.AllRecorded) (hstep : V.Step V') : V'.AllRecorded := by
  cases hstep with
  | idle hn => exact ⟨h.slot, h.sealed⟩
  | opened id hslot =>
    refine ⟨fun j t ht => ?_, h.sealed⟩
    rcases slot_of_start ht with ⟨-, rfl⟩ | hold
    · exact Tape.recorded_empty _ _
    · exact h.slot j t hold
  | bound hslot v => exact (h.grow hslot fun ht => ht.appendIndependent v).gain _
  | folded v => exact h.gain _
  | applied hslot harity hop haux hbranch hx hon hmark =>
    refine (h.grow hslot fun ht => ?_).gain _
    exact ht.appendEntry hon.below (Operand.below_unused _)
      (Handle.shaped_unary hmark harity hop haux _) _
  | combined hslot harity hx hy hxon hyon hmark =>
    refine (h.grow hslot fun ht => ?_).gain _
    exact ht.appendEntry hxon.below hyon.below (Handle.shaped_binary hmark harity _) _
  | marked hslot hx hon =>
    refine (h.grow hslot fun ht => ?_).answer _ _
    exact Session.recorded_appendDependent ht fun m hm => (hon m hm).2.2
  | dropped i => exact h.clearSlot i
  | sealed hslot store id =>
    refine (h.clearSlot _).setSealed store id fun u hu => ?_
    cases hu
    exact h.slot _ _ hslot
  | removed store id => exact h.setSealed store id fun _ hnone => nomatch hnone

end View

/-! ## Every run -/

namespace World

variable {C : Width → Type} {w : Width}

/-- The tape is in the slot of a thread, or sealed in a store. -/
def HasTape (W : World C) (t : Tape (C w)) : Prop :=
  (∃ i, W.recorder.slot? w i = some t) ∨ ∃ store id, W.recorder.sealed? w store id = some t

/-- A host that has seen these worlds can have the tape: it made it, and the tape is empty, or the
    tape was there. -/
def CanHave (past : List (World C)) (t : Tape (C w)) : Prop :=
  (∃ id session, t = { id, session }) ∨ ∃ W ∈ past, W.HasTape t

/-- Of a recorded view the tapes are recorded. -/
theorem recorded_of_hasTape {W : World C} (h : (W.view w).AllRecorded) {t : Tape (C w)}
    (ht : W.HasTape t) : t.Recorded := by
  rcases ht with ⟨i, hslot⟩ | ⟨store, id, hsealed⟩
  · exact h.slot i t hslot
  · exact h.sealed store id t hsealed

variable [∀ w, Scalar (C w)] [∀ w, Elementary (C w)]

/-- The worlds of all runs, each with the worlds before it, latest first.  A tape that is put in a
    slot is one that the host can have. -/
inductive Hosted : List (World C) → World C → Prop
  | start : Hosted [] {}
  | step {past : List (World C)} {W : World C} (h : Hosted past W) (i : ThreadId) {w : Width}
      (call : Call C w) (legal : W.Legal i call)
      (own : ∀ t, call = .replaceSlot t → CanHave (W :: past) t) :
      Hosted (W :: past) (W.perform i call)

/-- No call brings in a tape that is not recorded, if the host has none. -/
theorem allRecorded_perform {W : World C} (h : ∀ v, (W.view v).AllRecorded) {i : ThreadId}
    {call : Call C w} (legal : W.Legal i call)
    (own : ∀ t, call = .replaceSlot t → t.Recorded) (v : Width) :
    ((W.perform i call).view v).AllRecorded := by
  by_cases hdirect : call.IsDirect
  · by_cases hv : v = w
    · subst hv
      cases call with
      | takeSlot =>
        show (({ W with recorder := W.recorder.clearSlot v i } : World C).view v).AllRecorded
        rw [view_clearSlot]
        exact (h v).clearSlot i
      | replaceSlot t =>
        show (({ W with recorder := W.recorder.putSlot i t } : World C).view v).AllRecorded
        have hview : ({ W with recorder := W.recorder.putSlot i t } : World C).view v =
            (W.view v).setSlot i (some t) := by
          unfold view View.setSlot
          rw [Recorder.slot?_putSlot]
          rfl
        rw [hview]
        refine (h v).setSlot i fun u hu => ?_
        cases hu
        exact own t rfl
      | _ => exact absurd hdirect id
    · rw [view_of_within (within_perform W i call) hv]
      exact ⟨(h v).slot, (h v).sealed⟩
  · exact (h v).step (perform_step legal hdirect v)

/-- In every run all tapes are recorded, those that there were too. -/
theorem Hosted.allRecorded {past : List (World C)} {W : World C} (h : Hosted past W) :
    ∀ W' ∈ W :: past, ∀ w, (W'.view w).AllRecorded := by
  induction h with
  | start =>
    intro W' hW' w
    rw [List.mem_singleton.mp hW']
    exact ⟨fun i t ht => ((sound_start w).slot i t ht).recorded,
      fun store id t ht => ((sound_start w).sealed store id t ht).recorded⟩
  | step _ i call legal own ih =>
    intro W' hW' w
    rcases List.mem_cons.mp hW' with rfl | hold
    · refine allRecorded_perform (ih _ List.mem_cons_self) legal (fun t ht => ?_) w
      rcases own t ht with ⟨id, session, rfl⟩ | ⟨W', hW', ht⟩
      · exact Tape.recorded_empty _ _
      · exact recorded_of_hasTape (ih W' hW' _) ht
    · exact ih W' hold w

/-- So every tape that the host can have is recorded, and can be swept. -/
theorem Hosted.recorded {past : List (World C)} {W : World C} (h : Hosted past W)
    {t : Tape (C w)} (ht : CanHave (W :: past) t) : t.Recorded := by
  rcases ht with ⟨id, session, rfl⟩ | ⟨W', hW', ht⟩
  · exact Tape.recorded_empty _ _
  · exact recorded_of_hasTape (h.allRecorded W' hW' w) ht

end World

end DiffTape
