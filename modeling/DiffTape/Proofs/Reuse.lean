/-
  REUSING A SCRATCH CARRIES NOTHING FROM CALL TO CALL.

  A caller may keep one scratch for all its evaluations: of any tapes, in any numbers of directions,
  whether they succeed or not.  The rows of the next call then have another length, and stand at
  other offsets, than what the last call left there.

  1. `ScratchCall.on_eq_fresh` — where everything fits, a call does what it does with a new scratch,
                                 and leaves the cells of its own pass (`ScratchCall.on_gives`).
  2. `ScratchCall.scratch_of_not_fits` — otherwise it leaves the scratch as it is.
  3. `Scratch.after_cases`     — so after any history a scratch is as it was, or as the last call
                                 that fitted has left it.
  4. `Scratch.outcomes_eq`     — and whatever the calls, what is seen of them beside the scratch is
                                 what one sees without it.
-/
import DiffTape.Proofs.Checks
import Mathlib.Data.List.Induction

namespace DiffTape

variable {F : Type}

/-! ## Calls with a scratch -/

/-- The outcome for a caller that does not look at the scratch. -/
def Outcome.withoutScratch {α β : Type} (o : Outcome α (β × Scratch F)) : Outcome α β :=
  { answer := o.answer, buffers := o.buffers.1, events := o.events }

/-- The arguments of an evaluation with a scratch, other than the scratch. -/
structure ScratchCall (F : Type) where
  tape : Tape F
  policy : BranchPolicy
  p : Nat
  x : Array F
  xd : Array (Array F)
  out : Outputs F

namespace ScratchCall

/-- All arguments have the shapes of the tape. -/
def Fits (c : ScratchCall F) : Prop := c.tape.FitsDirections c.p c.x c.xd c.out

variable [Scalar F] [Elementary F]

/-- The evaluation with this scratch. -/
def on (c : ScratchCall F) (s : Scratch F) : Outcome (Report F) (Outputs F × Scratch F) :=
  c.tape.forwardWithScratch c.policy c.p c.x c.xd c.out s

/-- The evaluation with a scratch of its own. -/
def alone (c : ScratchCall F) : Outcome (Report F) (Outputs F) :=
  c.tape.forwardInto c.policy c.p c.x c.xd c.out

variable {c : ScratchCall F}

/-- A call that fits is the same with every scratch. -/
theorem on_eq_fresh (ht : c.tape.Replayable) (hc : c.Fits) (s : Scratch F) : c.on s = c.on {} :=
  (ht.evaluatorsCheckFirst.forwardWithScratch c.policy c.p c.x c.xd).overwrites
    (c.out, s) (c.out, {}) hc hc

/-- It leaves the cells of its own pass. -/
theorem on_gives (ht : c.tape.Replayable) (hc : c.Fits) (s : Scratch F) :
    ∃ s', (c.on s).Gives { switches := c.tape.switchesAt c.x }
        (⟨c.tape.dependents.map (c.tape.valuesAt c.x), c.tape.rowsAt c.policy c.x c.p c.xd⟩, s') ∧
      s'.Holds c.tape.values.size c.p (c.tape.cells c.policy c.x c.p c.xd) := by
  obtain ⟨hx, hy, hxd, hyd⟩ := hc
  obtain ⟨s', hholds, hanswer, hbuffers⟩ :=
    c.tape.forwardWithScratch_eq ht c.policy hx hxd hy hyd s
  exact ⟨s', ⟨hanswer, hbuffers⟩, hholds⟩

/-- A call that does not fit leaves the scratch as it is. -/
theorem scratch_of_not_fits (ht : c.tape.Replayable) (hc : ¬ c.Fits) (s : Scratch F) :
    (c.on s).buffers.2 = s := by
  have hchecks := ht.evaluatorsCheckFirst.forwardWithScratch c.policy c.p c.x c.xd
  exact congrArg Prod.snd (hchecks.buffers_of_not_fits (b := (c.out, s)) hc)

/-- Apart from the scratch, every call does what it does alone: even one that is refused, or whose
    tape cannot be swept. -/
theorem on_alone (c : ScratchCall F) (s : Scratch F) : (c.on s).withoutScratch = c.alone := by
  show (c.on s).withoutScratch = (c.on {}).withoutScratch
  unfold on Tape.forwardWithScratch Tape.evaluate
  rw [Tape.replay?_fresh]
  cases c.tape.checkDirections c.p c.x c.xd c.out with
  | error e => rfl
  | ok u => cases c.tape.replay? c.policy c.x c.p c.xd {} <;> rfl

end ScratchCall

/-! ## Histories -/

variable [Scalar F] [Elementary F]

/-- The scratch after some calls. -/
def Scratch.after (s : Scratch F) (calls : List (ScratchCall F)) : Scratch F :=
  calls.foldl (fun s c => (c.on s).buffers.2) s

/-- What the calls leave behind, each with the scratch that those before it left. -/
def Scratch.outcomes (s : Scratch F) :
    List (ScratchCall F) → List (Outcome (Report F) (Outputs F × Scratch F))
  | [] => []
  | c :: rest => c.on s :: outcomes (c.on s).buffers.2 rest

namespace Scratch

theorem after_concat (s : Scratch F) (calls : List (ScratchCall F)) (c : ScratchCall F) :
    s.after (calls ++ [c]) = (c.on (s.after calls)).buffers.2 := by
  unfold after
  rw [List.foldl_append, List.foldl_cons, List.foldl_nil]

/-- After any history a scratch is as it was, and no call fitted, or it holds the cells of the last
    call that fitted. -/
theorem after_cases (s : Scratch F) {calls : List (ScratchCall F)}
    (ht : ∀ c ∈ calls, c.tape.Replayable) :
    (s.after calls = s ∧ ∀ c ∈ calls, ¬ c.Fits) ∨
      ∃ before c rest, calls = before ++ c :: rest ∧ c.Fits ∧ (∀ c' ∈ rest, ¬ c'.Fits) ∧
        (s.after calls).Holds c.tape.values.size c.p (c.tape.cells c.policy c.x c.p c.xd) := by
  -- on the last call, which decides if it fits
  induction calls using List.reverseRecOn with
  | nil => exact Or.inl ⟨rfl, fun c hc => absurd hc List.not_mem_nil⟩
  | append_singleton calls c ih =>
    have hlast : c.tape.Replayable := ht c (List.mem_append_right _ (List.mem_singleton_self c))
    rw [after_concat]
    by_cases hc : c.Fits
    · obtain ⟨s', hgives, hholds⟩ := c.on_gives hlast hc (s.after calls)
      refine Or.inr ⟨calls, c, [], rfl, hc, fun c' hc' => absurd hc' List.not_mem_nil, ?_⟩
      rw [hgives.2]
      exact hholds
    · rw [c.scratch_of_not_fits hlast hc]
      rcases ih fun c' hc' => ht c' (List.mem_append_left _ hc') with
        ⟨hs, hnone⟩ | ⟨before, c', rest, rfl, hc', hrest, hholds⟩
      · exact Or.inl ⟨hs, List.forall_mem_append.mpr ⟨hnone, List.forall_mem_singleton.mpr hc⟩⟩
      · refine Or.inr ⟨before, c', rest ++ [c], by simp, hc', ?_, hholds⟩
        exact List.forall_mem_append.mpr ⟨hrest, List.forall_mem_singleton.mpr hc⟩

/-- Whatever the scratch held and whatever the calls are, what they answer, write and report is what
    each of them does alone. -/
theorem outcomes_eq (s : Scratch F) (calls : List (ScratchCall F)) :
    (s.outcomes calls).map Outcome.withoutScratch = calls.map ScratchCall.alone := by
  induction calls generalizing s with
  | nil => rfl
  | cons c rest ih =>
    unfold outcomes
    rw [List.map_cons, List.map_cons, c.on_alone, ih]

/-- A scratch may be used for anything, again and again: a call that fits a well-formed tape does
    with it exactly what it does with a new one.  It succeeds, and leaves the scratch with the cells
    of its own pass, in its own directions. -/
theorem reuse_carries_nothing (calls : List (ScratchCall F)) {c : ScratchCall F}
    (ht : c.tape.isWellFormed = true) (hc : c.Fits) :
    c.on (after {} calls) = c.on {} ∧
      ∃ s', (c.on {}).Gives { switches := c.tape.switchesAt c.x }
          (⟨c.tape.dependents.map (c.tape.valuesAt c.x), c.tape.rowsAt c.policy c.x c.p c.xd⟩, s') ∧
        s'.Holds c.tape.values.size c.p (c.tape.cells c.policy c.x c.p c.xd) ∧
        after {} (calls ++ [c]) = s' := by
  have hrep := Tape.replayable_of_isWellFormed ht
  have hfresh := c.on_eq_fresh hrep hc (after {} calls)
  obtain ⟨s', hgives, hholds⟩ := c.on_gives hrep hc {}
  refine ⟨hfresh, s', hgives, hholds, ?_⟩
  rw [after_concat, hfresh, hgives.2]

/-- A tape with a kink is evaluated in two directions, a tape of one location in none, the first one
    again at arguments that do not fit, and then in one direction. -/
theorem reuse_carries_nothing_on_shrunk_scratch :
    ∃ big small : Tape Float, big.isWellFormed = true ∧ big.values.size = 2 ∧
      small.values.size = 1 ∧
      let out : Outputs Float := ⟨#[5], #[#[6]]⟩
      let calls : List (ScratchCall Float) :=
        [⟨big, .replay, 2, #[-3], #[#[1, 2]], ⟨#[5], #[#[6, 6]]⟩⟩,
          ⟨small, .recorded, 0, #[4], #[#[]], ⟨#[], #[]⟩⟩, ⟨big, .replay, 2, #[], #[], out⟩]
      let c : ScratchCall Float := ⟨big, .replay, 1, #[7], #[#[1]], out⟩
      (after {} calls).values.size = 1 ∧ (after {} calls).width = 0 ∧
        c.on (after {} calls) = c.on {} ∧ (after {} (calls ++ [c])).values.size = 2 ∧
        (after {} (calls ++ [c])).width = 1 := by
  let big : Tape Float :=
    ⟨7, 1, #[⟨.abs, 1, .location 0, .unused, .branch .zero⟩], #[0, 0], #[0], #[1]⟩
  let small : Tape Float := ⟨8, 2, #[], #[0], #[0], #[]⟩
  have hbig : big.isWellFormed = true := by
    simp [big, Tape.isWellFormed, entriesFit, Entry.resultFits, Entry.slotsFit, Tape.nextLocation,
      Operand.readableBelow, Operand.isUnused, Opcode.arity]
  have hsmall : small.isWellFormed = true := by
    simp [small, Tape.isWellFormed, entriesFit, Tape.nextLocation]
  let out : Outputs Float := ⟨#[5], #[#[6]]⟩
  let first : ScratchCall Float := ⟨big, .replay, 2, #[-3], #[#[1, 2]], ⟨#[5], #[#[6, 6]]⟩⟩
  let second : ScratchCall Float := ⟨small, .recorded, 0, #[4], #[#[]], ⟨#[], #[]⟩⟩
  let third : ScratchCall Float := ⟨big, .replay, 2, #[], #[], out⟩
  let c : ScratchCall Float := ⟨big, .replay, 1, #[7], #[#[1]], out⟩
  have hsecond : second.Fits := ⟨rfl, rfl, ⟨rfl, by simp [second]⟩, rfl, by simp [second]⟩
  have hthird : ¬ third.Fits := fun h => absurd h.1 Nat.zero_ne_one
  have hc : c.Fits := ⟨rfl, rfl, ⟨rfl, by simp [c]⟩, rfl, by simp [c, out]⟩
  -- the history leaves what the second call left
  obtain ⟨s, hgives, hs⟩ := second.on_gives (Tape.replayable_of_isWellFormed hsmall) hsecond
    (after {} [first])
  have hcalls : after {} [first, second, third] = s :=
    (third.scratch_of_not_fits (Tape.replayable_of_isWellFormed hbig) hthird _).trans
      (congrArg Prod.snd hgives.2)
  obtain ⟨hfresh, s', -, hs', hafter⟩ := reuse_carries_nothing [first, second, third] hbig hc
  exact ⟨big, small, hbig, rfl, rfl, hcalls ▸ hs.size_values, hcalls ▸ hs.width, hfresh,
    hafter ▸ hs'.size_values, hafter ▸ hs'.width⟩

end Scratch

end DiffTape
