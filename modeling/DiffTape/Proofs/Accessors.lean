/-
  WHAT THE ACCESSORS OF A SCRATCH SHOW.

  The value of a location and its row are looked up in buffers of two shapes: one cell for each
  location, and `p` cells for each.  After any history of calls both show every location of the last
  call that succeeded, with what its sweep left there (`Scratch.accessors_show_last`).

  Beyond these locations `value?` shows nothing, and neither does `directionRow?` if there are
  directions.  WITHOUT DIRECTIONS all rows are empty and begin where the matrix begins, which is in
  bounds even if the matrix is empty.  So then `directionRow?` shows an empty row for every word,
  whether it is a location of the tape or not, and does so on a scratch that was never used.

  The matrix of every call that is not refused has to have room, and beyond the locations of the
  last one the row that is asked for has to end at a word.  Then bounds that are formed as words are
  not cut (`Scratch.wordRow?_eq`).  For fewer than `2 ^ 32` directions all rows end at a word.

  1. `Scratch.IsFor.directionRow?_of_le` — what is shown beyond the locations of a scratch;
  2. `ScratchCall.scratch_of_fits`       — what a call that succeeds leaves;
  3. `Scratch.after_of_not_fits`         — and no later one that fails changes.
-/
import DiffTape.Proofs.Accesses
import DiffTape.Proofs.Reuse

namespace DiffTape

variable {F : Type}

/-! ## Beyond the locations of a scratch -/

namespace Scratch

variable {s : Scratch F} {n p : Nat} {loc : Location}

theorem Holds.isFor {env : Location → Cell F} (h : s.Holds n p env) : s.IsFor n p :=
  ⟨h.width, h.size_values, h.size_tangents⟩

/-- Beyond the last location there is no value. -/
theorem IsFor.value?_of_le (h : s.IsFor n p) (hloc : n ≤ loc.toNat) : s.value? loc = none :=
  Array.getElem?_eq_none (h.size_values ▸ hloc)

/-- Without directions there is an empty row beyond the last location. -/
theorem IsFor.directionRow?_of_le (h : s.IsFor n p) (hloc : n ≤ loc.toNat) :
    s.directionRow? loc = if p = 0 then some #[] else none := by
  unfold directionRow?
  rw [h.width]
  by_cases hp : p = 0
  · subst hp
    rw [if_pos rfl]
    exact slice?_eq_some_iff.mpr ⟨Nat.zero_le _, rfl, fun j hj => absurd hj (Nat.not_lt_zero j)⟩
  · rw [if_neg hp]
    have hbelow : n * p ≤ loc.toNat * p := Nat.mul_le_mul_right p hloc
    refine if_neg ?_
    rw [h.size_tangents]
    omega

/-- The derivative row of a location, between bounds that are formed as words.  Bounds in the wrong
    order have nothing between them. -/
def wordRow? (s : Scratch F) (loc : Location) : Option (Array F) :=
  let start := rowStart loc s.width
  let stop := rowStop loc s.width
  if start ≤ stop then slice? s.tangents start.toNat (stop.toNat - start.toNat) else none

/-- A row that ends at a word is the same between words as between numbers. -/
theorem wordRow?_eq (h : loc.toNat * s.width + s.width < UInt64.size) :
    s.wordRow? loc = s.directionRow? loc := by
  obtain ⟨hstart, hstop⟩ := toNat_rowStart_rowStop h
  have hle : rowStart loc s.width ≤ rowStop loc s.width := by
    rw [UInt64.le_iff_toNat_le, hstart, hstop]
    exact Nat.le_add_right _ _
  unfold wordRow? directionRow?
  dsimp only
  rw [if_pos hle, hstart, hstop, Nat.add_sub_cancel_left]

end Scratch

variable [Scalar F] [Elementary F]

/-! ## What a call leaves -/

namespace ScratchCall

variable {c : ScratchCall F}

/-- The call succeeds.  This does not depend on the scratch (`on_alone`). -/
def Succeeds (c : ScratchCall F) : Prop := ∃ report, c.alone.answer = .ok report

/-- On a well-formed tape it is the shapes that decide. -/
theorem succeeds_iff (ht : c.tape.Replayable) : c.Succeeds ↔ c.Fits :=
  (ht.evaluatorsCheckFirst.forwardInto c.policy c.p c.x c.xd).succeeds_iff c.out

/-- A call that fits leaves the scratch of its sweep. -/
theorem scratch_of_fits (ht : c.tape.Replayable) (hc : c.Fits) (s : Scratch F) :
    ∃ sweep, c.tape.sweep? c.policy c.x c.p c.xd s = some sweep ∧
      (c.on s).buffers.2 = sweep.scratch ∧
      sweep.scratch.Holds c.tape.values.size c.p (c.tape.cells c.policy c.x c.p c.xd) := by
  obtain ⟨hx, hy, hxd, hyd⟩ := hc
  obtain ⟨s', hs', hreplay⟩ := c.tape.replay?_eq ht c.policy hx hxd s
  have hbuffers : (c.on s).buffers.2 = s' := by
    unfold on Tape.forwardWithScratch Tape.evaluate
    rw [Tape.checkDirections_eq_ok_iff.mpr ⟨hx, hy, hxd, hyd⟩]
    simp only [hreplay]
  -- a replay leaves the scratch of the sweep that it is read off
  obtain ⟨sweep, hsweep, hread⟩ := Option.bind_eq_some_iff.mp hreplay
  obtain ⟨y, -, hread⟩ := Option.bind_eq_some_iff.mp hread
  obtain ⟨yd, -, hread⟩ := Option.bind_eq_some_iff.mp hread
  have hscratch : sweep.scratch = s' := congrArg Tape.Replayed.scratch (Option.some.inj hread)
  exact ⟨sweep, hsweep, hbuffers.trans hscratch.symm, hscratch ▸ hs'⟩

end ScratchCall

/-! ## Histories -/

namespace Scratch

theorem after_append (s : Scratch F) (calls calls' : List (ScratchCall F)) :
    s.after (calls ++ calls') = (s.after calls).after calls' :=
  List.foldl_append

/-- Calls that do not fit leave the scratch as it is. -/
theorem after_of_not_fits (s : Scratch F) {calls : List (ScratchCall F)}
    (ht : ∀ c ∈ calls, c.tape.Replayable) (hc : ∀ c ∈ calls, ¬ c.Fits) : s.after calls = s := by
  induction calls with
  | nil => rfl
  | cons c rest ih =>
    rw [List.forall_mem_cons] at ht hc
    show ((c.on s).buffers.2).after rest = s
    rw [c.scratch_of_not_fits ht.1 hc.1 s]
    exact ih ht.2 hc.2

/-- The accessors show what the sweep of `c` left at each location of its tape.  At other locations
    `value?` shows nothing, and `directionRow?` shows `beyond p` for `p` directions.  The rows are
    those between bounds that are words. -/
structure Shows (s : Scratch F) (c : ScratchCall F) (beyond : Nat → Option (Array F)) : Prop where
  value : ∀ loc : Location, loc.toNat < c.tape.values.size →
    s.value? loc = some (c.tape.valuesAt c.x loc)
  row : ∀ loc : Location, loc.toNat < c.tape.values.size →
    ∃ row, s.directionRow? loc = some row ∧ row.size = c.p ∧
      row = (c.tape.cells c.policy c.x c.p c.xd loc).row
  no_value : ∀ loc : Location, c.tape.values.size ≤ loc.toNat → s.value? loc = none
  no_row : ∀ loc : Location, c.tape.values.size ≤ loc.toNat →
    loc.toNat * c.p + c.p < UInt64.size → s.directionRow? loc = beyond c.p
  words : ∀ loc : Location,
    loc.toNat < c.tape.values.size ∨ loc.toNat * c.p + c.p < UInt64.size →
      s.wordRow? loc = s.directionRow? loc

/-- A scratch that holds the cells of a call shows that call. -/
theorem Holds.shows {s : Scratch F} {c : ScratchCall F} (hroom : c.tape.HasRoom c.p)
    (h : s.Holds c.tape.values.size c.p (c.tape.cells c.policy c.x c.p c.xd)) :
    s.Shows c fun p => if p = 0 then some #[] else none where
  value loc hloc := by
    rw [h.value loc hloc, ← c.tape.value_cells c.policy c.x c.p c.xd]
    rfl
  row loc hloc := ⟨_, h.row loc hloc, h.size_row hloc, rfl⟩
  no_value loc hloc := h.isFor.value?_of_le hloc
  no_row loc hloc _ := h.isFor.directionRow?_of_le hloc
  words loc hloc := by
    refine wordRow?_eq ?_
    rw [h.width]
    -- where there is room for the matrix, every row of it ends at a word
    exact hloc.elim
      (fun hlt => Nat.lt_of_le_of_lt (rowStop_le_size hlt c.p) hroom.lt_size) id

/-- After these calls a scratch shows the last of them that succeeds: the buffers are those that its
    sweep left.  If none does, there is no location, and there are no directions. -/
def ShowsLast (calls : List (ScratchCall F)) (beyond : Nat → Option (Array F)) : Prop :=
  ((∀ c ∈ calls, ¬ c.Succeeds) ∧ ∀ loc : Location,
    (after {} calls).value? loc = none ∧ (after {} calls).directionRow? loc = beyond 0 ∧
      (after {} calls).wordRow? loc = (after {} calls).directionRow? loc) ∨
  ∃ before c rest, calls = before ++ c :: rest ∧ c.Succeeds ∧ (∀ c' ∈ rest, ¬ c'.Succeeds) ∧
    ∃ sweep, c.tape.sweep? c.policy c.x c.p c.xd (after {} before) = some sweep ∧
      after {} calls = sweep.scratch ∧ (after {} calls).Shows c beyond

/-- After any calls on well-formed tapes, whether they succeed or not, both accessors show the
    locations of the last evaluation.  Elsewhere `directionRow?` shows nothing either, unless there
    are no directions: then it shows an empty row.  A call that is not refused needs room for its
    matrix. -/
theorem accessors_show_last {calls : List (ScratchCall F)}
    (ht : ∀ c ∈ calls, c.tape.isWellFormed = true)
    (hroom : ∀ c ∈ calls, c.Fits → c.tape.HasRoom c.p) :
    ShowsLast calls fun p => if p = 0 then some #[] else none := by
  have hrep : ∀ c ∈ calls, c.tape.Replayable := fun c hc =>
    Tape.replayable_of_isWellFormed (ht c hc)
  have hfails : ∀ {l : List (ScratchCall F)}, (∀ c ∈ l, c.tape.Replayable) →
      (∀ c ∈ l, ¬ c.Fits) → ∀ c ∈ l, ¬ c.Succeeds :=
    fun hl hnone c hc => mt (c.succeeds_iff (hl c hc)).mp (hnone c hc)
  rcases after_cases {} hrep with ⟨hs, hnone⟩ | ⟨before, c, rest, rfl, hc, hrest, -⟩
  · have hfresh : (after {} calls).IsFor 0 0 := by
      rw [hs]
      exact ⟨rfl, rfl, rfl⟩
    refine Or.inl ⟨hfails hrep hnone, fun loc => ⟨hfresh.value?_of_le (Nat.zero_le _),
      hfresh.directionRow?_of_le (Nat.zero_le _), wordRow?_eq ?_⟩⟩
    rw [hfresh.width]
    exact Nat.zero_lt_succ _
  · have hfits : c.tape.HasRoom c.p :=
      hroom c (List.mem_append_right before List.mem_cons_self) hc
    rw [List.forall_mem_append, List.forall_mem_cons] at hrep
    obtain ⟨-, hlast, hreps⟩ := hrep
    obtain ⟨sweep, hsweep, hbuffers, hholds⟩ := c.scratch_of_fits hlast hc (after {} before)
    -- what comes after the last success changes nothing
    have hafter : after {} (before ++ c :: rest) = sweep.scratch := by
      rw [after_append]
      show ((c.on (after {} before)).buffers.2).after rest = sweep.scratch
      rw [after_of_not_fits _ hreps hrest, hbuffers]
    refine Or.inr ⟨before, c, rest, rfl, (c.succeeds_iff hlast).mpr hc, hfails hreps hrest, sweep,
      hsweep, hafter, ?_⟩
    rw [hafter]
    exact hholds.shows hfits

/-- Two directions on a tape with a kink, no directions on a tape of one location, and arguments
    that do not fit. -/
theorem accessors_show_last_without_directions :
    ∃ big small : Tape Float, big.values.size = 2 ∧ small.values.size = 1 ∧
      ShowsLast [⟨big, .replay, 2, #[-3], #[#[1, 2]], ⟨#[5], #[#[6, 6]]⟩⟩,
        ⟨small, .recorded, 0, #[4], #[#[]], ⟨#[], #[]⟩⟩, ⟨big, .replay, 2, #[], #[], ⟨#[], #[]⟩⟩]
        fun p => if p = 0 then some #[] else none := by
  let big : Tape Float :=
    ⟨7, 1, #[⟨.abs, 1, .location 0, .unused, .branch .zero⟩], #[0, 0], #[0], #[1]⟩
  let small : Tape Float := ⟨8, 2, #[], #[0], #[0], #[]⟩
  have hbig : big.isWellFormed = true := by
    simp [big, Tape.isWellFormed, entriesFit, Entry.resultFits, Entry.slotsFit, Tape.nextLocation,
      Operand.readableBelow, Operand.isUnused, Opcode.arity]
  have hsmall : small.isWellFormed = true := by
    simp [small, Tape.isWellFormed, entriesFit, Tape.nextLocation]
  have hroom : big.HasRoom 2 ∧ small.HasRoom 0 := by
    show 2 * 2 ≤ maxCells ∧ 1 * 0 ≤ maxCells
    decide
  refine ⟨big, small, rfl, rfl, accessors_show_last ?_ ?_⟩
  · simp [hbig, hsmall]
  · simp [hroom]

/-- It is not true that both accessors show nothing where there is no location: a scratch that was
    never used has an empty row for the location `0`. -/
theorem accessors_disagree_without_directions :
    ¬ ∀ calls : List (ScratchCall Float), (∀ c ∈ calls, c.tape.isWellFormed = true) →
      (∀ c ∈ calls, c.Fits → c.tape.HasRoom c.p) → ShowsLast calls fun _ => none := by
  intro h
  rcases h [] (fun c hc => absurd hc List.not_mem_nil) (fun c hc => absurd hc List.not_mem_nil) with
    ⟨-, hfresh⟩ | ⟨before, c, rest, hl, -⟩
  · have hrow : (after {} ([] : List (ScratchCall Float))).directionRow? 0 = some #[] := rfl
    rw [(hfresh 0).2.1] at hrow
    cases hrow
  · exact absurd hl.symm (List.append_ne_nil_of_right_ne_nil before (List.cons_ne_nil c rest))

end Scratch

end DiffTape
