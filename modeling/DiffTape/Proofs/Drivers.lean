/-
  ALL EVALUATORS RUN ONE SWEEP.

  The evaluators of a tape differ in the directions they propagate: many, none, one, or the
  identity.  They keep their rows in matrices of different widths, but a direction never sees the
  others: COLUMN BY COLUMN, a sweep in many directions is the sweep in one.  This is equality of
  the very numbers.  Nothing is assumed of the arithmetic, so it holds with rounding, and whatever
  infinities or NaN the other columns carry.

  1. `Tape.replayable_of_isWellFormed` — what the check of a tape is good for: no access fails.
  2. `Tape.evaluate_eq`  — so each evaluator succeeds and reads off the cells of the pass.
  3. `Component`         — a row of one number is the `k`-th component of a row of many.  Every arm
                           of the propagation keeps this, the magnitudes on a kink too.
  4. `Tape.isColumn_cells` — the pass keeps it at every location.

  Values and branch switches are those of a pass that knows of no directions at all
  (`Tape.valuesAt`), so they are the same for every evaluator.
-/
import DiffTape.Proofs.AppendOrder
import DiffTape.Store
import DiffTape.Scalar.Binary

namespace DiffTape

variable {F : Type}

/-! ## Tapes that pass their own check -/

/-- A tape that passes its own check is in append order, so it can be swept. -/
theorem Tape.replayable_of_isWellFormed {t : Tape F} (h : t.isWellFormed = true) :
    t.Replayable := by
  have hordered := ordered_of_isWellFormed h
  exact ⟨hordered.independents_lt, hordered.dependents_lt, hordered.results_lt,
    fun e he => (hordered.reads_below e he).below.1,
    fun e he => (hordered.reads_below e he).below.2⟩

/-! ## Columns -/

/-- The `k`-th column of a matrix. -/
def column [Zero F] (rows : Array (Array F)) (k : Nat) : Array F :=
  rows.map fun row => row[k]?.getD 0

/-- The `j`-th of the `n` unit vectors. -/
def unitVector [Zero F] [One F] (n j : Nat) : Array F :=
  Array.ofFn fun i : Fin n => if i.val = j then 1 else 0

/-- The row `row'` of one number is the `k`-th component of `row`. -/
def Component (k : Nat) (row row' : Array F) : Prop := ∃ u, row[k]? = some u ∧ row' = #[u]

theorem Component.map {k : Nat} {row row' : Array F} (h : Component k row row') (f : F → F) :
    Component k (row.map f) (row'.map f) := by
  obtain ⟨u, hu, rfl⟩ := h
  refine ⟨f u, ?_, by simp⟩
  rw [Array.getElem?_map, hu, Option.map_some]

theorem Component.zipWith {k : Nat} {a a' b b' : Array F} (ha : Component k a a')
    (hb : Component k b b') (f : F → F → F) :
    Component k (Array.zipWith f a b) (Array.zipWith f a' b') := by
  obtain ⟨u, hu, rfl⟩ := ha
  obtain ⟨v, hv, rfl⟩ := hb
  refine ⟨f u v, ?_, by simp⟩
  rw [Array.getElem?_zipWith, hu, hv]

theorem component_replicate {k p : Nat} (hk : k < p) (c : F) :
    Component k (Array.replicate p c) (Array.replicate 1 c) :=
  ⟨c, by rw [Array.getElem?_replicate, if_pos hk], rfl⟩

/-- Rows of one number each, one after the other, are the column that they are components of. -/
theorem flatten_map_eq_column [Zero F] {α : Type} {k : Nat} {rows rows' : α → Array F}
    (xs : Array α) (h : ∀ a ∈ xs, Component k (rows a) (rows' a)) :
    (xs.map rows').flatten = column (xs.map rows) k := by
  have hone : xs.map rows' = xs.map fun a => #[(rows a)[k]?.getD 0] := by
    refine Array.map_congr_left fun a ha => ?_
    obtain ⟨u, hu, hrow⟩ := h a ha
    rw [hrow, hu, Option.getD_some]
  have hcolumn : column (xs.map rows) k = xs.map fun a => (rows a)[k]?.getD 0 := by
    unfold column
    rw [Array.map_map]
    rfl
  rw [hone, hcolumn, ← Array.flatMap_def, ← Array.map_eq_flatMap]

/-- The cell of a sweep in one direction is the `k`-th column of a cell of a sweep in many. -/
structure Cell.IsColumn (k : Nat) (c c' : Cell F) : Prop where
  value : c.value = c'.value
  row : Component k c.row c'.row

section Scalar

variable [Scalar F] {k p : Nat}

/-! ## The rows of one entry -/

theorem component_combineRows (hk : k < p) {rowA rowB rowA' rowB' : Option (Array F)}
    (hA : Option.Rel (Component k) rowA rowA') (hB : Option.Rel (Component k) rowB rowB')
    (da db : F) :
    Component k (combineRows p (rowA.map (da, ·)) (rowB.map (db, ·)))
      (combineRows 1 (rowA'.map (da, ·)) (rowB'.map (db, ·))) := by
  cases hA with
  | none =>
    cases hB with
    | none => exact component_replicate hk 0
    | some hb => exact hb.map (db * ·)
  | some ha =>
    cases hB with
    | none => exact ha.map (da * ·)
    | some hb => exact ha.zipWith hb fun xa xb => da * xa + db * xb

theorem component_absRow (hk : k < p) (policy : BranchPolicy) (aux : Aux) (a : F)
    {row row' : Option (Array F)} (h : Option.Rel (Component k) row row') :
    Component k (absRow policy p aux a row) (absRow policy 1 aux a row') := by
  cases h with
  | none => exact component_replicate hk 0
  | @some row row' h =>
    show Component k
      (if a == 0 then row.map Scalar.abs else row.map (policy.absSign aux.branch? a * ·))
      (if a == 0 then row'.map Scalar.abs else row'.map (policy.absSign aux.branch? a * ·))
    by_cases ha : (a == 0) = true
    · -- on the kink every direction has its own magnitude
      rw [if_pos ha, if_pos ha]
      exact h.map Scalar.abs
    · rw [if_neg ha, if_neg ha]
      exact h.map _

variable [Elementary F]

/-- An entry computes, in one direction, the column of what it computes in many. -/
theorem Entry.isColumn_cell (hk : k < p) (policy : BranchPolicy) (e : Entry F)
    {env env' : Location → Cell F} (h : ∀ loc, (env loc).IsColumn k (env' loc)) :
    (e.cell policy p env).IsColumn k (e.cell policy 1 env') := by
  have hvalues : Cell.value ∘ env' = Cell.value ∘ env := funext fun loc => (h loc).value.symm
  have hrow : ∀ o : Operand F, Option.Rel (Component k) (o.rowOf env) (o.rowOf env') := by
    intro o
    cases o with
    | location loc => exact .some (h loc).row
    | literal c => exact .none
    | unused => exact .none
  unfold Entry.cell
  rw [hvalues]
  refine ⟨rfl, ?_⟩
  show Component k (e.rowFrom policy p _ _ _ _) (e.rowFrom policy 1 _ _ _ _)
  unfold Entry.rowFrom
  by_cases habs : e.op = .abs
  · rw [if_pos habs, if_pos habs]
    exact component_absRow hk policy e.aux _ (hrow e.lhs)
  · rw [if_neg habs, if_neg habs]
    exact component_combineRows hk (hrow e.lhs) (hrow e.rhs) _ _

namespace Tape

variable {t : Tape F} {policy : BranchPolicy} {x : Array F} {seeds : Array (Array F)}

/-! ## Every location -/

/-- A sweep along the `k`-th column of the seeds leaves the `k`-th columns of the cells. -/
theorem isColumn_cells (t : Tape F) (policy : BranchPolicy) (x : Array F) (hk : k < p)
    (hs : IsMatrix seeds t.independents.size p) (loc : Location) :
    (t.cells policy x p seeds loc).IsColumn k
      (t.cells policy x 1 ((column seeds k).map fun c => #[c]) loc) := by
  refine pass_rel (fun e _ env env' h => e.isColumn_cell hk policy h) (fun loc => ?_) loc
  refine t.place_rel ⟨rfl, component_replicate hk 0⟩ (fun i hi => ⟨rfl, ?_⟩) loc
  -- the `i`-th row of the seeds, and its `k`-th component
  have hi' : i < seeds.size := hs.1.symm ▸ hi
  have hrow : seeds[i]? = some seeds[i] := Array.getElem?_eq_getElem hi'
  have hk' : k < seeds[i].size := (hs.2 seeds[i] (Array.getElem_mem hi')).symm ▸ hk
  have hcomponent : seeds[i][k]? = some seeds[i][k] := Array.getElem?_eq_getElem hk'
  refine ⟨seeds[i][k], ?_, ?_⟩
  · show (seeds[i]?.getD #[])[k]? = _
    rw [hrow, Option.getD_some, hcomponent]
  · show ((column seeds k).map fun c => #[c])[i]?.getD #[] = _
    unfold column
    rw [Array.getElem?_map, Array.getElem?_map, hrow, Option.map_some, hcomponent,
      Option.map_some, Option.getD_some, Option.getD_some]

end Tape

/-! ## The evaluators -/

/-- The call succeeds: it answers `a`, and leaves `b` in the buffers. -/
def Outcome.Gives {α β : Type} (o : Outcome α β) (a : α) (b : β) : Prop :=
  o.answer = .ok a ∧ o.buffers = b

namespace Tape

variable {t : Tape F} {policy : BranchPolicy} {x : Array F} {seeds : Array (Array F)}

/-- The rows that a sweep leaves for the dependents. -/
def rowsAt (t : Tape F) (policy : BranchPolicy) (x : Array F) (p : Nat)
    (seeds : Array (Array F)) : Array (Array F) :=
  t.dependents.map fun loc => (t.cells policy x p seeds loc).row

/-- If the shapes are accepted, an evaluation succeeds and reads off the cells of the pass. -/
theorem evaluate_eq {α β : Type} (ht : t.Replayable) (policy : BranchPolicy)
    (hx : x.size = t.independents.size) (hs : IsMatrix seeds t.independents.size p)
    (s : Scratch F) {fits : Except Error Unit} (hfits : fits = .ok ()) (buffers : β)
    (finish : Replayed F → α × β) :
    ∃ s', s'.Holds t.values.size p (t.cells policy x p seeds) ∧
      let result := finish
        { scratch := s', y := t.dependents.map (t.valuesAt x), yd := t.rowsAt policy x p seeds
          report := { switches := t.switchesAt x } }
      (t.evaluate policy x p seeds s fits buffers finish).Gives result.1 result.2 := by
  obtain ⟨s', hs', hreplay⟩ := t.replay?_eq ht policy hx hs s
  refine ⟨s', hs', ?_⟩
  unfold evaluate
  rw [hfits]
  simp only [hreplay]
  exact ⟨rfl, rfl⟩

omit [Scalar F] [Elementary F] in
theorem isMatrix_replicate (m p : Nat) (c : F) :
    IsMatrix (Array.replicate m (Array.replicate p c)) m p := by
  refine ⟨Array.size_replicate, fun row hrow => ?_⟩
  rw [(Array.mem_replicate.mp hrow).2]
  exact Array.size_replicate

omit [Scalar F] [Elementary F] in
/-- The numbers of one direction, as rows. -/
theorem isMatrix_singletons (d : Array F) : IsMatrix (d.map fun c => #[c]) d.size 1 := by
  refine ⟨Array.size_map .., fun row hrow => ?_⟩
  obtain ⟨c, -, rfl⟩ := Array.mem_map.mp hrow
  rfl

/-- One row per dependent, with one number per direction. -/
theorem isMatrix_rowsAt (ht : t.Replayable) (policy : BranchPolicy)
    (hx : x.size = t.independents.size) (hs : IsMatrix seeds t.independents.size p) :
    IsMatrix (t.rowsAt policy x p seeds) t.dependents.size p := by
  obtain ⟨s', hholds, -⟩ := t.replay?_eq ht policy hx hs {}
  refine ⟨Array.size_map .., fun row hrow => ?_⟩
  obtain ⟨loc, hloc, rfl⟩ := Array.mem_map.mp hrow
  exact hholds.size_row (ht.dependents_lt loc hloc)

theorem forwardWithScratch_gives (ht : t.Replayable) (policy : BranchPolicy) {out : Outputs F}
    (hx : x.size = t.independents.size) (hs : IsMatrix seeds t.independents.size p)
    (hy : out.y.size = t.dependents.size) (hyd : IsMatrix out.yd t.dependents.size p)
    (s : Scratch F) :
    ∃ s', (t.forwardWithScratch policy p x seeds out s).Gives { switches := t.switchesAt x }
      (⟨t.dependents.map (t.valuesAt x), t.rowsAt policy x p seeds⟩, s') := by
  obtain ⟨s', -, hanswer, hbuffers⟩ := t.forwardWithScratch_eq ht policy hx hs hy hyd s
  exact ⟨s', hanswer, hbuffers⟩

theorem forwardInto_gives (ht : t.Replayable) (policy : BranchPolicy) {out : Outputs F}
    (hx : x.size = t.independents.size) (hs : IsMatrix seeds t.independents.size p)
    (hy : out.y.size = t.dependents.size) (hyd : IsMatrix out.yd t.dependents.size p) :
    (t.forwardInto policy p x seeds out).Gives { switches := t.switchesAt x }
      ⟨t.dependents.map (t.valuesAt x), t.rowsAt policy x p seeds⟩ := by
  obtain ⟨s', hanswer, hbuffers⟩ := t.forwardWithScratch_gives ht policy hx hs hy hyd {}
  refine ⟨hanswer, ?_⟩
  show (t.forwardWithScratch policy p x seeds out {}).buffers.1 = _
  rw [hbuffers]

/-- With buffers of its own, an evaluation has as many directions as the first row of the seeds has
    components; without independents it has none. -/
theorem forward_gives (ht : t.Replayable) (policy : BranchPolicy)
    (hx : x.size = t.independents.size) (hs : IsMatrix seeds t.independents.size p)
    (hp : t.independents.size = 0 → p = 0) :
    (t.forward policy x seeds).Gives
      ⟨t.dependents.map (t.valuesAt x), t.rowsAt policy x p seeds,
        { switches := t.switchesAt x }⟩ () := by
  have hwidth : (seeds[0]?.map Array.size).getD 0 = p := by
    by_cases hn : 0 < seeds.size
    · rw [Array.getElem?_eq_getElem hn, Option.map_some, Option.getD_some]
      exact hs.2 _ (Array.getElem_mem hn)
    · have hnone : seeds[0]? = none := Array.getElem?_eq_none (Nat.le_of_not_lt hn)
      rw [hnone, hp (hs.1 ▸ Nat.eq_zero_of_not_pos hn)]
      rfl
  let out : Outputs F :=
    ⟨Array.replicate t.dependents.size 0, Array.replicate t.dependents.size (Array.replicate p 0)⟩
  obtain ⟨hanswer, hbuffers⟩ : (t.forwardInto policy p x seeds out).Gives _ _ :=
    t.forwardInto_gives ht policy hx hs Array.size_replicate (isMatrix_replicate _ _ _)
  refine ⟨?_, rfl⟩
  unfold forward
  rw [hwidth]
  show Except.map _ (t.forwardInto policy p x seeds out).answer = _
  rw [hanswer, hbuffers]
  rfl

omit [Scalar F] [Elementary F] in
/-- A point is accepted exactly if it has one number per independent, and the output one per
    dependent. -/
theorem checkPoint_eq_ok_iff {y : Array F} :
    t.checkPoint x y = .ok () ↔ x.size = t.independents.size ∧ y.size = t.dependents.size := by
  unfold checkPoint
  rw [check_bind_eq_ok_iff, checkSize_eq_ok_iff, checkSize_eq_ok_iff, eq_comm (a := x.size),
    eq_comm (a := y.size)]

theorem forwardValues_gives (ht : t.Replayable) {y : Array F}
    (hx : x.size = t.independents.size) (hy : y.size = t.dependents.size) :
    (t.forwardValues x y).Gives { switches := t.switchesAt x }
      (t.dependents.map (t.valuesAt x)) := by
  have hnone : IsMatrix (Array.replicate t.independents.size (#[] : Array F))
      t.independents.size 0 := isMatrix_replicate _ 0 0
  have hfits : t.checkPoint x y = .ok () := checkPoint_eq_ok_iff.mpr ⟨hx, hy⟩
  obtain ⟨s', -, hgives⟩ := t.evaluate_eq ht default hx hnone {} hfits y
    fun r => (r.report, r.y)
  exact hgives

omit [Scalar F] [Elementary F] in
/-- The shapes of one direction are accepted exactly if every one of them is that of the tape. -/
theorem checkDirection_eq_ok_iff {d : Array F} {out : DirectionOutputs F} :
    t.checkDirection x d out = .ok () ↔
      x.size = t.independents.size ∧ out.y.size = t.dependents.size ∧
        d.size = t.independents.size ∧ out.yd.size = t.dependents.size := by
  unfold checkDirection checkPoint
  simp only [check_bind_eq_ok_iff, checkSize_eq_ok_iff]
  constructor
  · rintro ⟨⟨hx, hy⟩, hd, hyd⟩
    exact ⟨hx.symm, hy.symm, hd.symm, hyd.symm⟩
  · rintro ⟨hx, hy, hd, hyd⟩
    exact ⟨⟨hx.symm, hy.symm⟩, hd.symm, hyd.symm⟩

/-- One direction: the rows have one number each, and stand in the buffer one after the other. -/
theorem forwardAlong_gives (ht : t.Replayable) (policy : BranchPolicy) {d : Array F}
    {out : DirectionOutputs F} (hx : x.size = t.independents.size)
    (hd : d.size = t.independents.size) (hy : out.y.size = t.dependents.size)
    (hyd : out.yd.size = t.dependents.size) :
    (t.forwardAlong policy x d out).Gives { switches := t.switchesAt x }
      ⟨t.dependents.map (t.valuesAt x),
        (t.rowsAt policy x 1 (d.map fun c => #[c])).flatten⟩ := by
  have hone : IsMatrix (d.map fun c => #[c]) t.independents.size 1 := hd ▸ isMatrix_singletons d
  have hfits : t.checkDirection x d out = .ok () :=
    checkDirection_eq_ok_iff.mpr ⟨hx, hy, hd, hyd⟩
  obtain ⟨s', -, hgives⟩ := t.evaluate_eq ht policy hx hone {} hfits out
    fun r => (r.report, { y := r.y, yd := r.yd.flatten })
  exact hgives

/-- An evaluation along a column of the seeds gives that column of the derivatives. -/
theorem forwardAlong_column (ht : t.Replayable) (policy : BranchPolicy)
    {out : DirectionOutputs F} (hx : x.size = t.independents.size)
    (hs : IsMatrix seeds t.independents.size p) (hk : k < p)
    (hy : out.y.size = t.dependents.size) (hyd : out.yd.size = t.dependents.size) :
    (t.forwardAlong policy x (column seeds k) out).Gives { switches := t.switchesAt x }
      ⟨t.dependents.map (t.valuesAt x), column (t.rowsAt policy x p seeds) k⟩ := by
  have hsize : (column seeds k).size = t.independents.size := by
    rw [column, Array.size_map, hs.1]
  have hcolumn : (t.rowsAt policy x 1 ((column seeds k).map fun c => #[c])).flatten =
      column (t.rowsAt policy x p seeds) k :=
    flatten_map_eq_column t.dependents fun loc _ => (t.isColumn_cells policy x hk hs loc).row
  rw [← hcolumn]
  exact t.forwardAlong_gives ht policy hx hsize hy hyd

omit [Elementary F] in
theorem isMatrix_identityRows (n : Nat) : IsMatrix (identityRows n : Array (Array F)) n n := by
  refine ⟨Array.size_ofFn, fun row hrow => ?_⟩
  obtain ⟨i, rfl⟩ := Array.mem_ofFn.mp hrow
  exact Array.size_ofFn

omit [Elementary F] in
/-- The columns of the identity are the unit vectors. -/
theorem column_identityRows {n j : Nat} (hj : j < n) :
    column (identityRows n) j = (unitVector n j : Array F) := by
  unfold column identityRows unitVector
  rw [Array.map_ofFn]
  congr 1
  funext i
  show (Array.ofFn fun j : Fin n => if i = j then (1 : F) else 0)[j]?.getD 0 = _
  rw [Array.getElem?_ofFn, dif_pos hj, Option.getD_some]
  exact if_congr Fin.ext_iff rfl rfl

theorem jacobian_gives (ht : t.Replayable) (policy : BranchPolicy)
    (hx : x.size = t.independents.size) :
    (t.jacobian policy x).Gives
      ⟨t.dependents.map (t.valuesAt x),
        t.rowsAt policy x t.independents.size (identityRows t.independents.size)⟩ () := by
  obtain ⟨s', -, hgives⟩ := t.evaluate_eq ht policy hx
    (isMatrix_identityRows t.independents.size) {} (checkSize_eq_ok_iff.mpr hx.symm) ()
    fun r => (({ values := r.y, rows := r.yd } : Jacobian F), ())
  exact hgives

end Tape

omit [Scalar F] [Elementary F] in
/-- A tape is answered exactly if it is the one of the id and has these counts. -/
theorem Store.tapeOfSize_eq_ok_iff {s : Store F} {id : TapeId} {m n : Nat} {t : Tape F} :
    s.tapeOfSize id m n = .ok t ↔
      s.tape id = .ok t ∧ n = t.independents.size ∧ m = t.dependents.size := by
  unfold tapeOfSize
  cases s.tape id with
  | error e => exact ⟨fun h => (nomatch h), fun h => (nomatch h.1)⟩
  | ok t' =>
    refine Tape.check_bind_eq_ok_iff.trans ?_
    rw [Tape.check_bind_eq_ok_iff, checkSize_eq_ok_iff, checkSize_eq_ok_iff]
    constructor
    · rintro ⟨hn, hm, heq⟩
      cases heq
      exact ⟨rfl, hn.symm, hm.symm⟩
    · rintro ⟨heq, hn, hm⟩
      cases heq
      exact ⟨hn.symm, hm.symm, rfl⟩

omit [Scalar F] [Elementary F] in
/-- A tape has its own counts. -/
theorem Store.tapeOfSize_of_tape {s : Store F} {id : TapeId} {t : Tape F} (h : s.tape id = .ok t) :
    s.tapeOfSize id t.dependents.size t.independents.size = .ok t :=
  tapeOfSize_eq_ok_iff.mpr ⟨h, rfl, rfl⟩

/-- By id, a tape of a store is evaluated as it is in hand. -/
theorem Store.forward_of_tape {s : Store F} {id : TapeId} {t : Tape F} (h : s.tape id = .ok t)
    (policy : BranchPolicy) (p : Nat) (x : Array F) (xd : Array (Array F)) (out : Outputs F) :
    s.forward policy id t.dependents.size t.independents.size p x xd out =
      t.forwardInto policy p x xd out := by
  unfold forward
  rw [tapeOfSize_of_tape h]

end Scalar

/-- All evaluators of a tape that passes its own check agree, number for number.  At every point
    there are values and a report that each of them gives, in whatever directions and whatever the
    policy.  Each column of derivatives in many directions is what the evaluation along that column
    alone gives.  And the derivative matrix is the evaluation along the identity, whose columns are
    those along the unit vectors. -/
theorem drivers_agree [Scalar F] [Elementary F] {t : Tape F} (ht : t.isWellFormed = true)
    {x : Array F} (hx : x.size = t.independents.size) :
    ∃ (y : Array F) (report : Report F), y.size = t.dependents.size ∧
      (∀ y₀ : Array F, y₀.size = t.dependents.size → (t.forwardValues x y₀).Gives report y) ∧
      (∀ (policy : BranchPolicy) (d : Array F) (out : DirectionOutputs F),
        d.size = t.independents.size → out.y.size = t.dependents.size →
        out.yd.size = t.dependents.size →
        ∃ yd, (t.forwardAlong policy x d out).Gives report ⟨y, yd⟩) ∧
      (∀ (policy : BranchPolicy) (p : Nat) (xd : Array (Array F)),
        IsMatrix xd t.independents.size p →
        ∃ yd, IsMatrix yd t.dependents.size p ∧
          (∀ out : Outputs F, out.y.size = t.dependents.size →
            IsMatrix out.yd t.dependents.size p →
            (t.forwardInto policy p x xd out).Gives report ⟨y, yd⟩ ∧
            (∀ s, ∃ s', (t.forwardWithScratch policy p x xd out s).Gives report (⟨y, yd⟩, s')) ∧
            ∀ (store : Store F) (id : TapeId), store.tape id = .ok t →
              (store.forward policy id t.dependents.size t.independents.size p x xd out).Gives
                report ⟨y, yd⟩) ∧
          -- without independents the seeds have no rows to tell `p`, and it counts as zero
          ((t.independents.size = 0 → p = 0) →
            (t.forward policy x xd).Gives ⟨y, yd, report⟩ ()) ∧
          ∀ k < p, ∀ out : DirectionOutputs F, out.y.size = t.dependents.size →
            out.yd.size = t.dependents.size →
            (t.forwardAlong policy x (column xd k) out).Gives report ⟨y, column yd k⟩) ∧
      ∀ policy : BranchPolicy, ∃ rows,
        IsMatrix rows t.dependents.size t.independents.size ∧
        (t.jacobian policy x).Gives ⟨y, rows⟩ () ∧
        (t.forward policy x (Tape.identityRows t.independents.size)).Gives ⟨y, rows, report⟩ () ∧
        ∀ j < t.independents.size, ∀ out : DirectionOutputs F, out.y.size = t.dependents.size →
          out.yd.size = t.dependents.size →
          (t.forwardAlong policy x (unitVector t.independents.size j) out).Gives report
            ⟨y, column rows j⟩ := by
  have hrep := Tape.replayable_of_isWellFormed ht
  refine ⟨t.dependents.map (t.valuesAt x), { switches := t.switchesAt x }, Array.size_map ..,
    fun y₀ hy₀ => t.forwardValues_gives hrep hx hy₀,
    fun policy d out hd hy hyd => ⟨_, t.forwardAlong_gives hrep policy hx hd hy hyd⟩,
    fun policy p xd hxd => ?_, fun policy => ?_⟩
  · refine ⟨t.rowsAt policy x p xd, t.isMatrix_rowsAt hrep policy hx hxd, fun out hy hyd => ?_,
      t.forward_gives hrep policy hx hxd,
      fun k hk out hy hyd => t.forwardAlong_column hrep policy hx hxd hk hy hyd⟩
    have hinto := t.forwardInto_gives hrep policy hx hxd hy hyd
    refine ⟨hinto, t.forwardWithScratch_gives hrep policy hx hxd hy hyd, fun store id hid => ?_⟩
    rw [Store.forward_of_tape hid]
    exact hinto
  · have hid : IsMatrix (Tape.identityRows t.independents.size) t.independents.size
        t.independents.size := Tape.isMatrix_identityRows (F := F) _
    refine ⟨_, t.isMatrix_rowsAt hrep policy hx hid, t.jacobian_gives hrep policy hx,
      t.forward_gives hrep policy hx hid id, fun j hj out hy hyd => ?_⟩
    have hcolumn := t.forwardAlong_column hrep policy hx hid hj hy hyd
    rw [Tape.column_identityRows hj] at hcolumn
    exact hcolumn

/-- The magnitude on its kink, in a direction that is swept beside one that is not a number. -/
theorem drivers_agree_on_kink_beside_nan :
    ∃ (t : Tape Float) (y rows : Array Float) (yd : Array (Array Float)) (report : Report Float),
      t.isWellFormed = true ∧
      (t.forwardInto .replay 2 #[0] #[#[-1, 0 / 0]] ⟨#[0], #[#[0, 0]]⟩).Gives report ⟨y, yd⟩ ∧
      (t.forwardAlong .recorded #[0] #[-1] ⟨#[0], #[0]⟩).Gives report ⟨y, rows⟩ ∧
      (t.forwardAlong .replay #[0] #[-1] ⟨#[0], #[0]⟩).Gives report ⟨y, column yd 0⟩ ∧
      (t.forwardValues #[0] #[0]).Gives report y := by
  let t : Tape Float :=
    ⟨7, 1, #[⟨.abs, 1, .location 0, .unused, .branch .zero⟩], #[0, 0], #[0], #[1]⟩
  have ht : t.isWellFormed = true := by
    simp [t, Tape.isWellFormed, entriesFit, Entry.resultFits, Entry.slotsFit, Tape.nextLocation,
      Operand.readableBelow, Operand.isUnused, Opcode.arity]
  have hx : (#[0] : Array Float).size = t.independents.size := rfl
  have hxd : IsMatrix #[#[(-1 : Float), 0 / 0]] t.independents.size 2 := ⟨rfl, by simp⟩
  have hyd : IsMatrix #[#[(0 : Float), 0]] t.dependents.size 2 := ⟨rfl, by simp⟩
  obtain ⟨y, report, -, hvalues, halong, hdirections, -⟩ := drivers_agree ht hx
  obtain ⟨yd, -, hbatch, -, hcolumns⟩ := hdirections .replay 2 _ hxd
  obtain ⟨rows, hrows⟩ := halong .recorded #[-1] ⟨#[0], #[0]⟩ rfl rfl rfl
  have hcolumn : column #[#[(-1 : Float), 0 / 0]] 0 = #[-1] := by simp [column]
  have hfirst := hcolumns 0 Nat.zero_lt_two ⟨#[0], #[0]⟩ rfl rfl
  rw [hcolumn] at hfirst
  exact ⟨t, y, rows, yd, report, ht, (hbatch ⟨#[0], #[#[0, 0]]⟩ rfl hyd).1, hrows, hfirst,
    hvalues #[0] rfl⟩

end DiffTape
