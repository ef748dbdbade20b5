/-
  EVERY ACCESS OF A REPLAY IS IN BOUNDS.

  A replay reads and writes its buffers at places that it computes from the tape: the value of a
  location `l` at `l`, its row of `p` derivatives from `l · p` on.  Here these accesses are written
  out as inequalities against the sizes of the buffers, for seeding (`SeedInBounds`), for the
  entries (`Entry.InBounds`) and for gathering (`GatherInBounds`).

  1. `Sweep.step_isSome_iff`    — a step fails exactly if one of its accesses is out of bounds;
  2. `foldlM_isSome_iff`        — a run fails exactly if one of its steps fails in the state that it
                                  is taken in, and all these states have buffers of one size;
  3. `Tape.replay?_isSome_iff`  — so a replay of ANY tape fails exactly if an access is out of
                                  bounds;
  4. `Tape.replaysInBounds`     — and on a tape that passes its check none is.

  Sizes and offsets are numbers here.  In memory they are 64-bit words, whose products and sums are
  cut to a word.  No offset is above the size of the matrix, so words give the numbers exactly if
  that size is a word (`Scratch.exactOffsets_iff`).  The shapes of a call do not say that it is: a
  tape without independents and dependents fits any number of directions.
-/
import DiffTape.Proofs.Drivers

namespace DiffTape

variable {F : Type}

/-! ## Sizes and offsets as words -/

namespace Scratch

/-- The number of cells of a matrix of `n` rows of `p` cells, as a word. -/
def matrixSize (n p : Nat) : UInt64 := n.toUInt64 * p.toUInt64

/-- Where the row of a location begins, as a word. -/
def rowStart (loc : Location) (p : Nat) : UInt64 := loc.toUInt64 * p.toUInt64

/-- Where the row of a location ends, as a word. -/
def rowStop (loc : Location) (p : Nat) : UInt64 := rowStart loc p + p.toUInt64

/-- Where the row after that of a location begins, as a word. -/
def nextRow (loc : Location) (p : Nat) : UInt64 := (loc.toUInt64 + 1) * p.toUInt64

/-- For `n` locations and `p` directions, words give the numbers: nothing is cut off.  Operands are
    read up to the end of their row, seeds are written and outputs read up to the next row. -/
structure ExactOffsets (n p : Nat) : Prop where
  size : (matrixSize n p).toNat = n * p
  start : ∀ loc : Location, loc.toNat < n → (rowStart loc p).toNat = loc.toNat * p
  stop : ∀ loc : Location, loc.toNat < n → (rowStop loc p).toNat = loc.toNat * p + p
  next : ∀ loc : Location, loc.toNat < n → (nextRow loc p).toNat = loc.toNat * p + p

/-- The most cells a buffer can have.  Its numbers, of at most 8 bytes each, have to fit into
    `2 ^ 63 - 1` bytes. -/
def maxCells : Nat := 0x7FFFFFFFFFFFFFFF / 8

section Words

variable {n p : Nat} {loc : Location}

/-- Words are added and multiplied modulo the number of words, so an offset that is formed with
    words is the number, cut to a word at the end. -/
theorem matrixSize_eq (n p : Nat) : matrixSize n p = UInt64.ofNat (n * p) :=
  (UInt64.ofNat_mul n p).symm

theorem rowStart_eq (loc : Location) (p : Nat) :
    rowStart loc p = UInt64.ofNat (loc.toNat * p) := by
  rw [UInt64.ofNat_mul, UInt64.ofNat_uInt32ToNat]
  rfl

theorem rowStop_eq (loc : Location) (p : Nat) :
    rowStop loc p = UInt64.ofNat (loc.toNat * p + p) := by
  rw [UInt64.ofNat_add, ← rowStart_eq]
  rfl

/-- The next row begins where a row ends, also where words are cut. -/
theorem nextRow_eq (loc : Location) (p : Nat) : nextRow loc p = rowStop loc p := by
  unfold nextRow rowStop rowStart
  rw [UInt64.add_mul, UInt64.one_mul]

/-- The bounds of one row are exact if its end is a word, on the tape or not. -/
theorem toNat_rowStart_rowStop (h : loc.toNat * p + p < UInt64.size) :
    (rowStart loc p).toNat = loc.toNat * p ∧ (rowStop loc p).toNat = loc.toNat * p + p := by
  rw [rowStart_eq, rowStop_eq]
  exact ⟨UInt64.toNat_ofNat_of_lt' (Nat.lt_of_le_of_lt (Nat.le_add_right _ p) h),
    UInt64.toNat_ofNat_of_lt' h⟩

/-- Every row of the matrix ends within it. -/
theorem rowStop_le_size (h : loc.toNat < n) (p : Nat) : loc.toNat * p + p ≤ n * p := by
  rw [← Nat.succ_mul]
  exact Nat.mul_le_mul_right p h

/-- All offsets are exact if and only if the size of the matrix is a word. -/
theorem exactOffsets_iff : ExactOffsets n p ↔ n * p < UInt64.size := by
  constructor
  · intro h
    rw [← h.size]
    exact (matrixSize n p).toNat_lt
  · intro h
    have hsize : (matrixSize n p).toNat = n * p := by
      rw [matrixSize_eq]
      exact UInt64.toNat_ofNat_of_lt' h
    -- the bounds of a row are not above the size
    have hrow : ∀ loc : Location, loc.toNat < n →
        (rowStart loc p).toNat = loc.toNat * p ∧ (rowStop loc p).toNat = loc.toNat * p + p :=
      fun loc hloc => toNat_rowStart_rowStop (Nat.lt_of_le_of_lt (rowStop_le_size hloc p) h)
    refine ⟨hsize, fun loc hloc => (hrow loc hloc).1, fun loc hloc => (hrow loc hloc).2,
      fun loc hloc => ?_⟩
    rw [nextRow_eq]
    exact (hrow loc hloc).2

-- the size of two rows, cut to a word in which there is no room for even one of them
example : matrixSize 2 (2 ^ 63) = 0 := by decide

end Words

end Scratch

/-- There is room for the matrix of a replay in `p` directions. -/
def Tape.HasRoom (t : Tape F) (p : Nat) : Prop := t.values.size * p ≤ Scratch.maxCells

/-- Where there is room for a matrix, its size is a word. -/
theorem Tape.HasRoom.lt_size {t : Tape F} {p : Nat} (h : t.HasRoom p) :
    t.values.size * p < UInt64.size :=
  Nat.lt_of_le_of_lt h (by decide)

/-! ## The sizes of the buffers -/

/-- The buffers are for `n` locations and `p` directions. -/
structure Scratch.IsFor (s : Scratch F) (n p : Nat) : Prop where
  width : s.width = p
  size_values : s.values.size = n
  size_tangents : s.tangents.size = n * p

namespace Scratch

variable {s s' : Scratch F} {n p : Nat} {loc : Location}

/-- What a reset leaves is for the locations and directions it was asked for. -/
theorem isFor_reset [Scalar F] (s : Scratch F) (n p : Nat) : (s.reset n p).IsFor n p :=
  ⟨rfl, Array.size_replicate, Array.size_replicate⟩

/-- A value is written where the location has its cell. -/
theorem setValue?_isSome_iff {v : F} : (s.setValue? loc v).isSome ↔ loc.toNat < s.values.size := by
  unfold setValue?
  split <;> simp [*]

/-- A write of a value changes no size, and nothing of the matrix. -/
theorem of_setValue? {v : F} (h : s.setValue? loc v = some s') :
    s'.width = s.width ∧ s'.values.size = s.values.size ∧ s'.tangents = s.tangents := by
  unfold setValue? at h
  split at h
  · rename_i hloc
    cases h
    exact ⟨rfl, Array.size_set hloc, rfl⟩
  · cases h

/-- A row is written where it ends within the matrix, and it has to be as long as its place. -/
theorem setRow?_isSome_iff {row : Array F} : (s.setRow? loc row).isSome ↔
    row.size = s.width ∧ loc.toNat * s.width + s.width ≤ s.tangents.size := by
  unfold setRow?
  by_cases hrow : row.size = s.width
  · rw [if_pos hrow, Option.isSome_map, overwrite?_isSome_iff, hrow]
    exact (and_iff_right rfl).symm
  · rw [if_neg hrow]
    exact ⟨fun h => (nomatch h), fun h => absurd h.1 hrow⟩

/-- A write of a row changes no size. -/
theorem of_setRow? {row : Array F} (h : s.setRow? loc row = some s') :
    s'.width = s.width ∧ s'.values.size = s.values.size ∧ s'.tangents.size = s.tangents.size := by
  unfold setRow? at h
  split at h
  · obtain ⟨cells, hcells, rfl⟩ := Option.map_eq_some_iff.mp h
    exact ⟨rfl, rfl, size_of_overwrite? hcells⟩
  · cases h

/-- The value and the row of a location are written exactly if both are within the buffers, and the
    row is as long as its place. -/
theorem write_iff {v : F} {row : Array F} :
    (∃ s₁, s.setValue? loc v = some s₁ ∧ ∃ s₂, s₁.setRow? loc row = some s₂) ↔
      loc.toNat < s.values.size ∧ row.size = s.width ∧
        loc.toNat * s.width + s.width ≤ s.tangents.size := by
  -- the value leaves the matrix alone
  constructor
  · rintro ⟨s₁, hs₁, s₂, hs₂⟩
    obtain ⟨hwidth, -, htangents⟩ := of_setValue? hs₁
    have hrow := setRow?_isSome_iff.mp (Option.isSome_of_eq_some hs₂)
    rw [hwidth, htangents] at hrow
    exact ⟨setValue?_isSome_iff.mp (Option.isSome_of_eq_some hs₁), hrow⟩
  · rintro ⟨hvalue, hrow⟩
    obtain ⟨s₁, hs₁⟩ := Option.isSome_iff_exists.mp (setValue?_isSome_iff (v := v).mpr hvalue)
    obtain ⟨hwidth, -, htangents⟩ := of_setValue? hs₁
    rw [← hwidth, ← htangents] at hrow
    exact ⟨s₁, hs₁, Option.isSome_iff_exists.mp (setRow?_isSome_iff.mpr hrow)⟩

theorem IsFor.setValue? (hs : s.IsFor n p) {v : F} (h : s.setValue? loc v = some s') :
    s'.IsFor n p := by
  obtain ⟨hwidth, hvalues, htangents⟩ := of_setValue? h
  exact ⟨hwidth.trans hs.width, hvalues.trans hs.size_values, htangents ▸ hs.size_tangents⟩

theorem IsFor.setRow? (hs : s.IsFor n p) {row : Array F} (h : s.setRow? loc row = some s') :
    s'.IsFor n p := by
  obtain ⟨hwidth, hvalues, htangents⟩ := of_setRow? h
  exact ⟨hwidth.trans hs.width, hvalues.trans hs.size_values, htangents.trans hs.size_tangents⟩

theorem value?_isSome_iff : (s.value? loc).isSome ↔ loc.toNat < s.values.size := by
  unfold value?
  simp

/-- A row is read where it ends within the matrix.  Nothing more is asked: without directions an
    empty row is found anywhere. -/
theorem directionRow?_isSome_iff : (s.directionRow? loc).isSome ↔
    loc.toNat * s.width + s.width ≤ s.tangents.size := by
  unfold directionRow? slice?
  split <;> simp [*]

theorem size_of_directionRow? {row : Array F} (h : s.directionRow? loc = some row) :
    row.size = s.width :=
  (slice?_eq_some_iff.mp h).2.1

end Scratch

/-! ## The accesses of an entry -/

/-- The value of the operand is read within the buffer. -/
def Operand.ValueInBounds (o : Operand F) (s : Scratch F) : Prop :=
  ∀ loc, o = .location loc → loc.toNat < s.values.size

/-- The row of the operand is read from the part of the matrix before the row of `result`. -/
def Operand.RowInBounds (o : Operand F) (s : Scratch F) (result : Location) : Prop :=
  ∀ loc, o = .location loc → loc.toNat * s.width + s.width ≤ result.toNat * s.width

/-- The accesses of one entry to these buffers.  The row of the second operand of `abs` is not
    looked at. -/
structure Entry.InBounds (e : Entry F) (s : Scratch F) : Prop where
  lhs_value : e.lhs.ValueInBounds s
  rhs_value : e.rhs.ValueInBounds s
  result_value : e.result.toNat < s.values.size
  lhs_row : e.lhs.RowInBounds s e.result
  rhs_row : e.op ≠ .abs → e.rhs.RowInBounds s e.result
  /-- The matrix is split where the row of the result begins, and holds that row after it. -/
  result_row : e.result.toNat * s.width + s.width ≤ s.tangents.size

section Operands

variable {s : Scratch F} {r : Location} {o : Operand F}

/-- Only a location is read; a literal and an unused operand are never out of bounds. -/
theorem Operand.value?_isSome_iff [Scalar F] : (o.value? s).isSome ↔ o.ValueInBounds s := by
  cases o with
  | location loc =>
    refine Scratch.value?_isSome_iff.trans ⟨?_, fun h => h loc rfl⟩
    rintro h _ ⟨⟩
    exact h
  | literal c => exact ⟨fun _ _ h => (nomatch h), fun _ => rfl⟩
  | unused => exact ⟨fun _ _ h => (nomatch h), fun _ => rfl⟩

/-- Where there is room for the row of the result, there is for all rows before it. -/
theorem Operand.row?_isSome_iff (hr : r.toNat * s.width + s.width ≤ s.tangents.size) :
    (o.row? s r).isSome ↔ o.RowInBounds s r := by
  cases o with
  | location loc =>
    unfold Operand.row?
    dsimp only
    constructor
    · rintro h _ ⟨⟩
      split at h
      · assumption
      · cases h
    · intro h
      have hbefore := h loc rfl
      have hfits : loc.toNat * s.width + s.width ≤ s.tangents.size := by omega
      rw [if_pos hbefore, Option.isSome_map]
      exact Scratch.directionRow?_isSome_iff.mpr hfits
  | literal c => exact ⟨fun _ _ h => (nomatch h), fun _ => rfl⟩
  | unused => exact ⟨fun _ _ h => (nomatch h), fun _ => rfl⟩

/-- The row of an operand has one component for each direction, or there is none. -/
theorem Operand.size_of_row? {row : Option (Array F)} (h : o.row? s r = some row) :
    ∀ cells ∈ row, cells.size = s.width := by
  rintro cells rfl
  cases o with
  | location loc =>
    unfold Operand.row? at h
    dsimp only at h
    split at h
    · obtain ⟨cells', hcells, hsome⟩ := Option.map_eq_some_iff.mp h
      cases hsome
      exact Scratch.size_of_directionRow? hcells
    · cases h
  | literal c => cases h
  | unused => cases h

end Operands

/-! ## One step -/

section Rows

variable [Scalar F] [Elementary F] {s : Scratch F} {e : Entry F} {policy : BranchPolicy}
variable {a b r : F}

/-- To find the row of an entry, the rows of its operands are read, that of the second operand of
    `abs` excepted. -/
theorem Entry.row?_isSome_iff (policy : BranchPolicy) (a b r : F)
    (hres : e.result.toNat * s.width + s.width ≤ s.tangents.size) :
    (e.row? policy s a b r).isSome ↔
      e.lhs.RowInBounds s e.result ∧ (e.op ≠ .abs → e.rhs.RowInBounds s e.result) := by
  rw [← Operand.row?_isSome_iff hres, ← Operand.row?_isSome_iff hres]
  unfold Entry.row?
  by_cases habs : e.op = .abs
  · cases e.lhs.row? s e.result <;> simp [habs]
  · cases e.lhs.row? s e.result with
    | none => simp
    | some rowA => cases e.rhs.row? s e.result <;> simp [habs]

/-- The row of an entry has one component for each direction. -/
theorem Entry.size_of_row? {row : Array F} (h : e.row? policy s a b r = some row) :
    row.size = s.width := by
  unfold Entry.row? at h
  obtain ⟨rowA, hA, h⟩ := Option.bind_eq_some_iff.mp h
  split at h
  · cases h
    exact size_absRow policy e.aux a (Operand.size_of_row? hA)
  · obtain ⟨rowB, hB, h⟩ := Option.bind_eq_some_iff.mp h
    cases h
    exact size_combineRows (Operand.size_of_row? hA) (Operand.size_of_row? hB)

variable {n p : Nat}

/-- What a step that succeeds has read and written. -/
theorem Sweep.step_eq_some_iff {switches : Array (BranchSwitch F)} {sweep : Sweep F} :
    Sweep.step policy ⟨s, switches⟩ e = some sweep ↔
      ∃ a, e.lhs.value? s = some a ∧ ∃ b, e.rhs.value? s = some b ∧
        ∃ row, e.row? policy s a b (evalValue e.op a b e.aux) = some row ∧
          ∃ s₁, s.setValue? e.result (evalValue e.op a b e.aux) = some s₁ ∧
            ∃ s₂, s₁.setRow? e.result row = some s₂ ∧
              ⟨s₂, switches ++ (e.switch? a).toArray⟩ = sweep := by
  unfold Sweep.step
  simp only [Option.bind_eq_bind, Option.bind_eq_some_iff, Option.pure_def, Option.some_inj]

/-- A step fails exactly if one of its accesses is out of bounds. -/
theorem Sweep.step_isSome_iff {sweep : Sweep F} :
    (Sweep.step policy sweep e).isSome ↔ e.InBounds sweep.scratch := by
  obtain ⟨s, switches⟩ := sweep
  rw [Option.isSome_iff_exists]
  simp only [Sweep.step_eq_some_iff]
  constructor
  · -- from the writes back to the reads, whose bound is that there is room for the result
    rintro ⟨_, a, ha, b, hb, row, hrow, s₁, hs₁, s₂, hs₂, -⟩
    obtain ⟨hvalue, -, hres⟩ := Scratch.write_iff.mp ⟨s₁, hs₁, s₂, hs₂⟩
    obtain ⟨hlhs, hrhs⟩ :=
      (Entry.row?_isSome_iff policy a b _ hres).mp (Option.isSome_of_eq_some hrow)
    exact ⟨Operand.value?_isSome_iff.mp (Option.isSome_of_eq_some ha),
      Operand.value?_isSome_iff.mp (Option.isSome_of_eq_some hb), hvalue, hlhs, hrhs, hres⟩
  · intro h
    obtain ⟨a, ha⟩ := Option.isSome_iff_exists.mp (Operand.value?_isSome_iff.mpr h.lhs_value)
    obtain ⟨b, hb⟩ := Option.isSome_iff_exists.mp (Operand.value?_isSome_iff.mpr h.rhs_value)
    obtain ⟨row, hrow⟩ := Option.isSome_iff_exists.mp
      ((Entry.row?_isSome_iff policy a b (evalValue e.op a b e.aux) h.result_row).mpr
        ⟨h.lhs_row, h.rhs_row⟩)
    obtain ⟨s₁, hs₁, s₂, hs₂⟩ := Scratch.write_iff.mpr
      ⟨h.result_value, Entry.size_of_row? hrow, h.result_row⟩
    exact ⟨_, a, ha, b, hb, row, hrow, s₁, hs₁, s₂, hs₂, rfl⟩

/-- A step changes no size. -/
theorem Sweep.step_isFor {sweep sweep' : Sweep F} (h : sweep.scratch.IsFor n p)
    (hstep : Sweep.step policy sweep e = some sweep') : sweep'.scratch.IsFor n p := by
  obtain ⟨_, -, _, -, _, -, s₁, hs₁, s₂, hs₂, rfl⟩ := Sweep.step_eq_some_iff.mp hstep
  exact (h.setValue? hs₁).setRow? hs₂

end Rows

/-! ## Runs -/

/-- A run fails exactly if one of its steps fails, in the state that the steps before it lead to.
    What the steps keep holds in each of these states. -/
theorem foldlM_isSome_iff {σ α : Type} {step : σ → α → Option σ} {I : σ → Prop}
    {P : σ → α → Prop} (hkeep : ∀ {s a s'}, I s → step s a = some s' → I s')
    (hstep : ∀ {s a}, (step s a).isSome ↔ P s a) {s : σ} (hs : I s) {l : List α} :
    (l.foldlM step s).isSome ↔ ∀ before a after, l = before ++ a :: after →
      ∃ s', before.foldlM step s = some s' ∧ I s' ∧ P s' a := by
  -- an element is the first, met in the state `s`, or one of the rest, met after the first step
  induction l generalizing s with
  | nil =>
    refine ⟨fun _ before a after h => ?_, fun _ => rfl⟩
    exact absurd h.symm (List.append_ne_nil_of_right_ne_nil before (List.cons_ne_nil a after))
  | cons first rest ih =>
    rw [List.foldlM_cons]
    constructor
    · intro h before a after hl
      obtain ⟨s₁, hfirst⟩ := Option.isSome_iff_exists.mp (Option.isSome_of_isSome_bind h)
      rw [hfirst, Option.bind_eq_bind, Option.bind_some] at h
      cases before with
      | nil =>
        cases hl
        exact ⟨s, rfl, hs, hstep.mp (hfirst ▸ rfl)⟩
      | cons first' before =>
        cases hl
        obtain ⟨s', hbefore, hs'⟩ := (ih (hkeep hs hfirst)).mp h before a after rfl
        refine ⟨s', ?_, hs'⟩
        rw [List.foldlM_cons, hfirst, Option.bind_eq_bind, Option.bind_some, hbefore]
    · intro h
      obtain ⟨s₀, ⟨⟩, -, hfits⟩ := h [] first rest rfl
      obtain ⟨s₁, hfirst⟩ := Option.isSome_iff_exists.mp (hstep.mpr hfits)
      rw [hfirst, Option.bind_eq_bind, Option.bind_some, ih (hkeep hs hfirst)]
      intro before a after hl
      obtain ⟨s', hbefore, hs'⟩ := h (first :: before) a after (congrArg (first :: ·) hl)
      rw [List.foldlM_cons, hfirst, Option.bind_eq_bind, Option.bind_some] at hbefore
      exact ⟨s', hbefore, hs'⟩

/-- What the steps keep holds after a run that succeeds. -/
theorem foldlM_keeps {σ α : Type} {step : σ → α → Option σ} {I : σ → Prop}
    (hkeep : ∀ {s a s'}, I s → step s a = some s' → I s') {s s' : σ} (hs : I s) {l : List α}
    (h : l.foldlM step s = some s') : I s' := by
  induction l generalizing s with
  | nil =>
    cases h
    exact hs
  | cons first rest ih =>
    rw [List.foldlM_cons] at h
    obtain ⟨s₁, hfirst, hrest⟩ := Option.bind_eq_some_iff.mp h
    exact ih (hkeep hs hfirst) hrest

/-! ## Seeding and gathering -/

/-- The accesses that give the independent `y.1`, which is the `y.2`-th, its value and its row. -/
structure SeedInBounds (x : Array F) (seeds : Array (Array F)) (s : Scratch F)
    (y : Location × Nat) : Prop where
  point : y.2 < x.size
  value : y.1.toNat < s.values.size
  row : y.1.toNat * s.width + s.width ≤ s.tangents.size
  /-- The row that is copied is as long as its place. -/
  seed : ∃ row, seeds[y.2]? = some row ∧ row.size = s.width

/-- The accesses that read off the dependent `loc`. -/
structure GatherInBounds (s : Scratch F) (loc : Location) : Prop where
  value : loc.toNat < s.values.size
  row : loc.toNat * s.width + s.width ≤ s.tangents.size

/-- Gives one independent its value and its row. -/
def seedStep (x : Array F) (seeds : Array (Array F)) (s : Scratch F) (y : Location × Nat) :
    Option (Scratch F) := do
  let s ← s.setValue? y.1 (← x[y.2]?)
  s.setRow? y.1 (← seeds[y.2]?)

section Seeding

variable {x : Array F} {seeds : Array (Array F)} {s s' : Scratch F} {y : Location × Nat}

theorem seedStep_eq_some_iff : seedStep x seeds s y = some s' ↔
    ∃ v, x[y.2]? = some v ∧ ∃ s₁, s.setValue? y.1 v = some s₁ ∧
      ∃ row, seeds[y.2]? = some row ∧ s₁.setRow? y.1 row = some s' := by
  unfold seedStep
  simp only [Option.bind_eq_bind, Option.bind_eq_some_iff]

/-- Seeding fails exactly if one of its accesses is out of bounds. -/
theorem seedStep_isSome_iff : (seedStep x seeds s y).isSome ↔ SeedInBounds x seeds s y := by
  rw [Option.isSome_iff_exists]
  simp only [seedStep_eq_some_iff]
  constructor
  · rintro ⟨s₂, v, hv, s₁, hs₁, row, hrow, hs₂⟩
    obtain ⟨hvalue, hsize, hplace⟩ := Scratch.write_iff.mp ⟨s₁, hs₁, s₂, hs₂⟩
    exact ⟨(Array.getElem?_eq_some_iff.mp hv).1, hvalue, hplace, row, hrow, hsize⟩
  · rintro ⟨hpoint, hvalue, hplace, row, hrow, hsize⟩
    obtain ⟨s₁, hs₁, s₂, hs₂⟩ := Scratch.write_iff.mpr ⟨hvalue, hsize, hplace⟩
    exact ⟨s₂, _, Array.getElem?_eq_getElem hpoint, s₁, hs₁, row, hrow, hs₂⟩

theorem seedStep_isFor {n p : Nat} (h : s.IsFor n p) (hstep : seedStep x seeds s y = some s') :
    s'.IsFor n p := by
  obtain ⟨v, -, s₁, hs₁, row, -, hs'⟩ := seedStep_eq_some_iff.mp hstep
  exact (h.setValue? hs₁).setRow? hs'

theorem Tape.seed?_eq_foldlM (t : Tape F) :
    t.seed? x seeds s = t.independents.toList.zipIdx.foldlM (seedStep x seeds) s := by
  unfold Tape.seed?
  rw [← Array.foldlM_toList, Array.toList_zipIdx]
  rfl

end Seeding

/-- Reading off a list of places fails exactly if one of the reads fails. -/
theorem mapM_isSome_iff {α β : Type} {f : α → Option β} {xs : Array α} :
    (xs.mapM f).isSome ↔ ∀ a ∈ xs, (f a).isSome := by
  have hlist : ∀ l : List α, (l.mapM f).isSome ↔ ∀ a ∈ l, (f a).isSome := by
    intro l
    induction l with
    | nil => exact ⟨fun _ a ha => absurd ha List.not_mem_nil, fun _ => rfl⟩
    | cons a rest ih =>
      rw [List.forall_mem_cons, ← ih, List.mapM_cons]
      cases f a with
      | none => simp
      | some b => cases rest.mapM f <;> simp
  rw [Array.mapM_eq_mapM_toList, Option.map_eq_map, Option.isSome_map, hlist]
  simp only [Array.mem_toList_iff]

/-! ## A whole replay -/

namespace Tape

variable [Scalar F] [Elementary F]

/-- All accesses of a replay, each in the state of the buffers in which it is made.  In all these
    states the buffers are for the locations of the tape and the directions of the call. -/
structure ReplaysInBounds (t : Tape F) (policy : BranchPolicy) (x : Array F) (p : Nat)
    (seeds : Array (Array F)) (s : Scratch F) : Prop where
  seeding : ∀ before y after, t.independents.toList.zipIdx = before ++ y :: after →
    ∃ s', before.foldlM (seedStep x seeds) (s.reset t.values.size p) = some s' ∧
      s'.IsFor t.values.size p ∧ SeedInBounds x seeds s' y
  sweeping : ∃ s₀, t.seed? x seeds (s.reset t.values.size p) = some s₀ ∧
    ∀ before e after, t.entries.toList = before ++ e :: after →
      ∃ sweep, before.foldlM (Sweep.step policy) ⟨s₀, #[]⟩ = some sweep ∧
        sweep.scratch.IsFor t.values.size p ∧ e.InBounds sweep.scratch
  gathering : ∃ sweep, t.sweep? policy x p seeds s = some sweep ∧
    sweep.scratch.IsFor t.values.size p ∧ ∀ loc ∈ t.dependents, GatherInBounds sweep.scratch loc

variable {t : Tape F} {policy : BranchPolicy} {x : Array F} {p : Nat} {seeds : Array (Array F)}
variable {s : Scratch F}

omit [Elementary F] in
/-- Seeding keeps the sizes of the buffers. -/
theorem seed?_isFor {n : Nat} {s₀ : Scratch F} (h : t.seed? x seeds (s.reset n p) = some s₀) :
    s₀.IsFor n p := by
  rw [seed?_eq_foldlM] at h
  exact foldlM_keeps seedStep_isFor (s.isFor_reset n p) h

/-- So does the sweep. -/
theorem sweep?_isFor {sweep : Sweep F} (h : t.sweep? policy x p seeds s = some sweep) :
    sweep.scratch.IsFor t.values.size p := by
  obtain ⟨s₀, hseed, hsweep⟩ := Option.bind_eq_some_iff.mp h
  rw [← Array.foldlM_toList] at hsweep
  exact foldlM_keeps (I := fun sweep => sweep.scratch.IsFor t.values.size p) Sweep.step_isFor
    (seed?_isFor hseed) hsweep

omit [Elementary F] in
theorem seed?_isSome_iff {n : Nat} : (t.seed? x seeds (s.reset n p)).isSome ↔
    ∀ before y after, t.independents.toList.zipIdx = before ++ y :: after →
      ∃ s', before.foldlM (seedStep x seeds) (s.reset n p) = some s' ∧ s'.IsFor n p ∧
        SeedInBounds x seeds s' y := by
  rw [seed?_eq_foldlM]
  exact foldlM_isSome_iff seedStep_isFor seedStep_isSome_iff (s.isFor_reset n p)

/-- From buffers of these sizes on, the entries run through exactly if each is in bounds in its
    turn. -/
theorem steps_isSome_iff {n : Nat} {s₀ : Scratch F} (h : s₀.IsFor n p)
    {switches : Array (BranchSwitch F)} :
    (t.entries.foldlM (Sweep.step policy) ⟨s₀, switches⟩).isSome ↔
      ∀ before e after, t.entries.toList = before ++ e :: after →
        ∃ sweep, before.foldlM (Sweep.step policy) ⟨s₀, switches⟩ = some sweep ∧
          sweep.scratch.IsFor n p ∧ e.InBounds sweep.scratch := by
  rw [← Array.foldlM_toList]
  exact foldlM_isSome_iff (I := fun sweep : Sweep F => sweep.scratch.IsFor n p)
    (s := ⟨s₀, switches⟩) Sweep.step_isFor Sweep.step_isSome_iff h

omit [Scalar F] [Elementary F] in
/-- Gathering reads only, so its accesses are all made in one state. -/
theorem gather_isSome_iff : (t.dependentValues? s).isSome ∧ (t.dependentRows? s).isSome ↔
    ∀ loc ∈ t.dependents, GatherInBounds s loc := by
  unfold dependentValues? dependentRows?
  rw [mapM_isSome_iff, mapM_isSome_iff]
  constructor
  · rintro ⟨hvalues, hrows⟩ loc hloc
    exact ⟨Scratch.value?_isSome_iff.mp (hvalues loc hloc),
      Scratch.directionRow?_isSome_iff.mp (hrows loc hloc)⟩
  · intro h
    exact ⟨fun loc hloc => Scratch.value?_isSome_iff.mpr (h loc hloc).value,
      fun loc hloc => Scratch.directionRow?_isSome_iff.mpr (h loc hloc).row⟩

/-- A replay of any tape fails exactly if one of its accesses is out of bounds. -/
theorem replay?_isSome_iff :
    (t.replay? policy x p seeds s).isSome ↔ t.ReplaysInBounds policy x p seeds s := by
  constructor
  · -- a replay that succeeds is taken apart into the results of its three phases
    intro h
    obtain ⟨r, hr⟩ := Option.isSome_iff_exists.mp h
    obtain ⟨sweep, hsweep, hr⟩ := Option.bind_eq_some_iff.mp hr
    obtain ⟨y, hy, hr⟩ := Option.bind_eq_some_iff.mp hr
    obtain ⟨yd, hyd, -⟩ := Option.bind_eq_some_iff.mp hr
    obtain ⟨s₀, hseed, hsteps⟩ := Option.bind_eq_some_iff.mp hsweep
    refine ⟨seed?_isSome_iff.mp (Option.isSome_of_eq_some hseed), ⟨s₀, hseed, ?_⟩,
      sweep, hsweep, sweep?_isFor hsweep, ?_⟩
    · exact (steps_isSome_iff (seed?_isFor hseed)).mp (Option.isSome_of_eq_some hsteps)
    · exact gather_isSome_iff.mp ⟨Option.isSome_of_eq_some hy, Option.isSome_of_eq_some hyd⟩
  · rintro ⟨-, -, sweep, hsweep, -, hgather⟩
    obtain ⟨hvalues, hrows⟩ := gather_isSome_iff.mpr hgather
    obtain ⟨y, hy⟩ := Option.isSome_iff_exists.mp hvalues
    obtain ⟨yd, hyd⟩ := Option.isSome_iff_exists.mp hrows
    unfold replay?
    rw [hsweep]
    simp only [Option.bind_eq_bind, Option.bind_some, hy, hyd, Option.pure_def, Option.isSome_some]

/-- On a replayable tape no access is out of bounds, whatever the buffers held before. -/
theorem replaysInBounds (ht : t.Replayable) (policy : BranchPolicy)
    (hx : x.size = t.independents.size) (hs : IsMatrix seeds t.independents.size p)
    (s : Scratch F) : t.ReplaysInBounds policy x p seeds s := by
  obtain ⟨s', -, hreplay⟩ := t.replay?_eq ht policy hx hs s
  exact replay?_isSome_iff.mp (Option.isSome_of_eq_some hreplay)

/-- The check of a tape is strong enough for accesses that are not checked.  If a well-formed tape
    accepts the shapes of a call, and the size of the matrix is a word, then so is every offset,
    every access of its replay is in bounds, and each output has its place: with many directions,
    none, one, and the identity.  The call succeeds if there is room for the matrix. -/
theorem evaluators_stay_in_bounds (ht : t.isWellFormed = true) (policy : BranchPolicy)
    (x : Array F) :
    (∀ p xd out s, t.checkDirections p x xd out = .ok () → t.values.size * p < UInt64.size →
      Scratch.ExactOffsets t.values.size p ∧ t.ReplaysInBounds policy x p xd s ∧
        out.y.size = t.dependents.size ∧ IsMatrix out.yd t.dependents.size p ∧
        (t.HasRoom p → ∃ report, (t.forwardWithScratch policy p x xd out s).answer = .ok report)) ∧
    (∀ y, t.checkPoint x y = .ok () →
      Scratch.ExactOffsets t.values.size 0 ∧
        t.ReplaysInBounds default x 0 (Array.replicate t.independents.size #[]) {} ∧
        y.size = t.dependents.size ∧ ∃ report, (t.forwardValues x y).answer = .ok report) ∧
    (∀ d out, t.checkDirection x d out = .ok () → t.values.size < UInt64.size →
      Scratch.ExactOffsets t.values.size 1 ∧
        t.ReplaysInBounds policy x 1 (d.map fun c => #[c]) {} ∧
        out.y.size = t.dependents.size ∧ out.yd.size = t.dependents.size ∧
        (t.HasRoom 1 → ∃ report, (t.forwardAlong policy x d out).answer = .ok report)) ∧
    (checkSize .independents t.independents.size x.size = .ok () →
      t.values.size * t.independents.size < UInt64.size →
      Scratch.ExactOffsets t.values.size t.independents.size ∧
        t.ReplaysInBounds policy x t.independents.size (identityRows t.independents.size) {} ∧
        (t.HasRoom t.independents.size →
          ∃ jacobian, (t.jacobian policy x).answer = .ok jacobian)) := by
  have hrep := replayable_of_isWellFormed ht
  refine ⟨fun p xd out s hfits hsize => ?_, fun y hfits => ?_, fun d out hfits hsize => ?_,
    fun hfits hsize => ?_⟩
  · obtain ⟨hx, hy, hxd, hyd⟩ := checkDirections_eq_ok_iff.mp hfits
    obtain ⟨s', hanswer, -⟩ := t.forwardWithScratch_gives hrep policy hx hxd hy hyd s
    exact ⟨Scratch.exactOffsets_iff.mpr hsize, replaysInBounds hrep policy hx hxd s, hy, hyd,
      fun _ => ⟨_, hanswer⟩⟩
  · obtain ⟨hx, hy⟩ := checkPoint_eq_ok_iff.mp hfits
    exact ⟨Scratch.exactOffsets_iff.mpr (Nat.zero_lt_succ _),
      replaysInBounds hrep default hx (isMatrix_replicate _ 0 0) {}, hy, _,
      (t.forwardValues_gives hrep hx hy).1⟩
  · obtain ⟨hx, hy, hd, hyd⟩ := checkDirection_eq_ok_iff.mp hfits
    have hone : t.values.size * 1 < UInt64.size := by rwa [Nat.mul_one]
    exact ⟨Scratch.exactOffsets_iff.mpr hone,
      replaysInBounds hrep policy hx (hd ▸ isMatrix_singletons d) {}, hy, hyd,
      fun _ => ⟨_, (t.forwardAlong_gives hrep policy hx hd hy hyd).1⟩⟩
  · have hx := (checkSize_eq_ok_iff.mp hfits).symm
    exact ⟨Scratch.exactOffsets_iff.mpr hsize,
      replaysInBounds hrep policy hx (isMatrix_identityRows _) {},
      fun _ => ⟨_, (t.jacobian_gives hrep policy hx).1⟩⟩

/-- A tape whose second independent comes after an entry, in two directions and in none. -/
theorem evaluators_stay_in_bounds_after_entry :
    ∃ t : Tape Float, t.isWellFormed = true ∧ t.independents = #[0, 2] ∧
      t.entries.map (·.result) = #[1, 3] ∧
      t.ReplaysInBounds .replay #[4, 5] 2 #[#[1, 0], #[0, 1]] {} ∧
      t.ReplaysInBounds default #[4, 5] 0 #[#[], #[]] {} ∧
      t.ReplaysInBounds .replay #[4, 5] 1 #[#[6], #[7]] {} ∧
      t.ReplaysInBounds .replay #[4, 5] 2 (identityRows 2) {} ∧
      ∃ jacobian, (t.jacobian .replay #[4, 5]).answer = .ok jacobian := by
  let t : Tape Float :=
    ⟨7, 1, #[⟨.mul, 1, .location 0, .literal 2, .none⟩, ⟨.add, 3, .location 1, .location 2, .none⟩],
      #[1, 2, 3, 5], #[0, 2], #[3, 0]⟩
  have ht : t.isWellFormed = true := by
    simp [t, isWellFormed, entriesFit, Entry.resultFits, Entry.slotsFit, nextLocation,
      Operand.readableBelow, Opcode.arity]
  have hroom : t.HasRoom 2 := by
    show 4 * 2 ≤ Scratch.maxCells
    decide
  have hsize : t.values.size < UInt64.size := by
    show 4 < UInt64.size
    decide
  obtain ⟨hmany, hnone, hone, hidentity⟩ := evaluators_stay_in_bounds ht .replay #[4, 5]
  obtain ⟨-, hreplays, hsucceeds⟩ := hidentity rfl hroom.lt_size
  refine ⟨t, ht, rfl, by simp [t], ?_, ?_, ?_, hreplays, hsucceeds hroom⟩
  · exact (hmany 2 #[#[1, 0], #[0, 1]] ⟨#[0, 0], #[#[0, 0], #[0, 0]]⟩ {} rfl hroom.lt_size).2.1
  · exact (hnone #[0, 0] rfl).2.1
  · simpa using (hone #[6, 7] ⟨#[0, 0], #[0, 0]⟩ rfl hsize).2.1

end Tape

end DiffTape
