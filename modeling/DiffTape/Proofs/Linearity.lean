/-
  LINEARITY IN THE SEEDS.

  A replay propagates rows of derivatives.  At a fixed point every entry but one combines the rows
  of its operands linearly, with weights that the directions do not enter: the exception is `abs`
  on its kink, which takes magnitudes.  Over exact numbers two laws follow for EVERY tape.

  1. OFF THE KINKS the rows are those of the Jacobian times the seeds.  One sweep with the identity
     tells what a sweep in any directions gives.
  2. ON THE KINKS TOO the rows scale with the seeds, as long as the factor is not negative.

  Both are relations between two passes over one list of entries:

  * `Cell.Combines` — the `k`-th component of a row is the row of the Jacobian times the `k`-th
                      column of the seeds.  A pass keeps this while no magnitude is taken on its
                      kink, so the induction carries the values along (`pass_combines`).
  * `Cell.Scaled`   — the rows differ by the factor.  Every entry keeps this (`Entry.scaled_cell`).

  The elementary functions are arbitrary: they decide about the weights, not about linearity.
-/
import Mathlib.Data.Matrix.Mul
import DiffTape.Proofs.Drivers
import DiffTape.Proofs.Exact

namespace DiffTape

variable {K : Type}

/-- Rows of numbers as an `m × n` matrix. -/
def toMatrix [Zero K] (m n : Nat) (rows : Array (Array K)) : Matrix (Fin m) (Fin n) K :=
  fun i j => (rows[i]?.getD #[])[j]?.getD 0

/-- No magnitude of a location is taken on its kink: where such an entry is replayed, its operand
    has another value than zero. -/
def OffKinks [Scalar K] [Elementary K] (entries : List (Entry K)) (v : Location → K) : Prop :=
  ∀ before e after, entries = before ++ e :: after → e.op = .abs →
    ∀ loc, e.lhs = .location loc → pass Entry.value before v loc ≠ 0

/-- No magnitude of a location is taken on its kink in a replay at `x`. -/
def Tape.OffKinks [Scalar K] [Elementary K] (t : Tape K) (x : Array K) : Prop :=
  DiffTape.OffKinks t.entries.toList (t.startValues x)

theorem offKinks_nil [Scalar K] [Elementary K] (v : Location → K) : OffKinks [] v := by
  intro before e after hsplit
  simp at hsplit

/-- The first entry sees the values before it, and the rest what it leaves. -/
theorem offKinks_cons_iff [Scalar K] [Elementary K] {e : Entry K} {rest : List (Entry K)}
    {v : Location → K} : OffKinks (e :: rest) v ↔
      (e.op = .abs → ∀ loc, e.lhs = .location loc → v loc ≠ 0) ∧
        OffKinks rest (Function.update v e.result (e.value v)) := by
  constructor
  · intro h
    refine ⟨h [] e rest rfl, fun before e' after hsplit => h (e :: before) e' after ?_⟩
    rw [hsplit, List.cons_append]
  · rintro ⟨hfirst, hrest⟩ before e' after hsplit
    rcases List.cons_eq_append_iff.mp hsplit with ⟨rfl, hcons⟩ | ⟨before', rfl, hrest'⟩
    · obtain ⟨rfl, rfl⟩ := List.cons.inj hcons
      exact hfirst
    · exact hrest before' e' after hrest'

variable [Field K]

/-! ## Rows times a column -/

section Field

variable {n p : Nat}

/-- A row times a column of `n` numbers. -/
def dot (s : Fin n → K) (row : Array K) : K := ∑ j : Fin n, row[j]?.getD 0 * s j

/-- The row of an operand times a column.  Without a row it is zero. -/
def dotOperand (s : Fin n → K) : Option (Array K) → K
  | some row => dot s row
  | none => 0

/-- The `j`-th component of the row of an operand. -/
def component (j : Nat) : Option (Array K) → K
  | some row => row[j]?.getD 0
  | none => 0

theorem hasComponent_component {row : Option (Array K)} (h : ∀ r ∈ row, r.size = n) (j : Fin n) :
    HasComponent j row (component j row) := by
  cases row with
  | none => rfl
  | some r =>
    have hj : j.val < r.size := by rw [h r rfl]; exact j.isLt
    show r[j.val]? = some (r[j.val]?.getD 0)
    rw [Array.getElem?_eq_getElem hj, Option.getD_some]

theorem dotOperand_eq_sum (s : Fin n → K) (row : Option (Array K)) :
    dotOperand s row = ∑ j : Fin n, component j row * s j := by
  cases row with
  | none => exact (Finset.sum_eq_zero fun j _ => zero_mul _).symm
  | some row => rfl

theorem dot_replicate_zero (s : Fin n → K) : dot s (Array.replicate n 0) = 0 := by
  refine Finset.sum_eq_zero fun j _ => ?_
  rw [Fin.getElem?_fin, Array.getElem?_replicate, if_pos j.isLt, Option.getD_some, zero_mul]

variable [DecidableEq K] [Gauge K]

/-- A combination of rows, times a column, combines the rows times the column. -/
theorem dot_combineRows {rowA rowB : Option (Array K)} (hA : ∀ row ∈ rowA, row.size = n)
    (hB : ∀ row ∈ rowB, row.size = n) (s : Fin n → K) (da db : K) :
    dot s (combineRows n (rowA.map (da, ·)) (rowB.map (db, ·))) =
      da * dotOperand s rowA + db * dotOperand s rowB := by
  have hterm : ∀ j : Fin n,
      (combineRows n (rowA.map (da, ·)) (rowB.map (db, ·)))[j]?.getD 0 * s j =
        da * (component j rowA * s j) + db * (component j rowB * s j) := by
    intro j
    rw [Fin.getElem?_fin, getElem?_combineRows j.isLt (hasComponent_component hA j)
      (hasComponent_component hB j) da db, Option.getD_some]
    ring
  calc dot s (combineRows n (rowA.map (da, ·)) (rowB.map (db, ·)))
      = ∑ j : Fin n, (da * (component j rowA * s j) + db * (component j rowB * s j)) :=
        Finset.sum_congr rfl fun j _ => hterm j
    _ = da * dotOperand s rowA + db * dotOperand s rowB := by
        rw [Finset.sum_add_distrib, ← Finset.mul_sum, ← Finset.mul_sum, dotOperand_eq_sum,
          dotOperand_eq_sum]

/-- The `j`-th row of the identity picks the `j`-th number of a column. -/
theorem dot_identityRows (s : Fin n → K) (j : Fin n) :
    dot s ((Tape.identityRows n : Array (Array K))[j]?.getD #[]) = s j := by
  have hrow : (Tape.identityRows n : Array (Array K))[j]?.getD #[] =
      Array.ofFn fun k : Fin n => if j = k then 1 else 0 := by
    unfold Tape.identityRows
    rw [Fin.getElem?_fin, Array.getElem?_ofFn, dif_pos j.isLt, Option.getD_some]
  have hterm : ∀ k : Fin n, (Array.ofFn fun k : Fin n => if j = k then (1 : K) else 0)[k]?.getD 0 *
      s k = if j = k then s k else 0 := by
    intro k
    rw [Fin.getElem?_fin, Array.getElem?_ofFn, dif_pos k.isLt, Option.getD_some, ite_mul, one_mul,
      zero_mul]
  rw [hrow]
  calc dot s (Array.ofFn fun k : Fin n => if j = k then 1 else 0)
      = ∑ k : Fin n, if j = k then s k else 0 := Finset.sum_congr rfl fun k _ => hterm k
    _ = s j := by rw [Finset.sum_ite_eq, if_pos (Finset.mem_univ j)]

/-! ## Off the kinks -/

/-- The weights of the rows that an entry combines: the partials, and the sign of `abs`. -/
def Entry.weights [Elementary K] (e : Entry K) (policy : BranchPolicy) (a b : K) : K × K :=
  if e.op = .abs then (policy.absSign e.aux.branch? a, 0)
  else partials e.op a b (evalValue e.op a b e.aux) e.aux

/-- Off its kink, `abs` combines rows as well.  It has one operand only. -/
theorem absRow_of_ne_zero (policy : BranchPolicy) (aux : Aux) {a : K} {row : Option (Array K)}
    (ha : row ≠ none → a ≠ 0) (d : K) :
    absRow policy p aux a row =
      combineRows p (row.map (policy.absSign aux.branch? a, ·))
        ((none : Option (Array K)).map (d, ·)) := by
  cases row with
  | none => rfl
  | some row =>
    have hne : ¬ (a == 0) = true := mt beq_zero_iff.mp (ha (Option.some_ne_none row))
    show (if a == 0 then _ else _) = _
    rw [if_neg hne]
    rfl

/-- The second row, if the entry has one to combine. -/
def Entry.secondRow (e : Entry K) (rowB : Option (Array K)) : Option (Array K) :=
  if e.op = .abs then none else rowB

/-- Off its kink, an entry combines the rows of its operands. -/
theorem Entry.rowFrom_eq_combineRows [Elementary K] {e : Entry K} (policy : BranchPolicy) {a b : K}
    {rowA rowB : Option (Array K)} (ha : e.op = .abs → rowA ≠ none → a ≠ 0) :
    e.rowFrom policy p a b rowA rowB =
      combineRows p (rowA.map ((e.weights policy a b).1, ·))
        ((e.secondRow rowB).map ((e.weights policy a b).2, ·)) := by
  unfold rowFrom weights secondRow
  by_cases habs : e.op = .abs
  · rw [if_pos habs, if_pos habs, if_pos habs]
    exact absRow_of_ne_zero policy e.aux (ha habs) 0
  · rw [if_neg habs, if_neg habs, if_neg habs]

/-- The `k`-th component of the second row is the first row times the column `s`. -/
structure Cell.Combines (s : Fin n → K) (k : Nat) (c c' : Cell K) : Prop where
  value : c.value = c'.value
  size : c.row.size = n
  row : c'.row[k]? = some (dot s c.row)

variable [Elementary K] {s : Fin n → K} {k : Nat}

/-- An entry keeps this off its kink. -/
theorem Entry.combines_cell (hk : k < p) (policy : BranchPolicy) {e : Entry K}
    {env env' : Location → Cell K} (h : ∀ loc, (env loc).Combines s k (env' loc))
    (hoff : e.op = .abs → ∀ loc, e.lhs = .location loc → (env loc).value ≠ 0) :
    (e.cell policy n env).Combines s k (e.cell policy p env') := by
  have hvalues : Cell.value ∘ env' = Cell.value ∘ env := funext fun loc => (h loc).value.symm
  have hsize : ∀ o : Operand K, ∀ row ∈ o.rowOf env, row.size = n := by
    rintro o _ hrow
    obtain ⟨loc, -, rfl⟩ := Option.map_eq_some_iff.mp hrow
    exact (h loc).size
  have hrow : ∀ o : Operand K, HasComponent k (o.rowOf env') (dotOperand s (o.rowOf env)) := by
    intro o
    cases o with
    | location loc => exact (h loc).row
    | literal c => rfl
    | unused => rfl
  have hsecond : ∀ row ∈ e.secondRow (e.rhs.rowOf env), row.size = n := by
    unfold secondRow
    split
    · exact fun row hnone => nomatch hnone
    · exact hsize e.rhs
  have hrow₂ : HasComponent k (e.secondRow (e.rhs.rowOf env'))
      (dotOperand s (e.secondRow (e.rhs.rowOf env))) := by
    unfold secondRow
    split
    · rfl
    · exact hrow e.rhs
  let a := e.lhs.read (Cell.value ∘ env)
  let b := e.rhs.read (Cell.value ∘ env)
  -- only a location has a row, and then `a` is its value
  have ha : ∀ env'' : Location → Cell K, e.op = .abs → e.lhs.rowOf env'' ≠ none → a ≠ 0 := by
    intro env'' habs hsome
    cases hlhs : e.lhs with
    | location loc =>
      show e.lhs.read (Cell.value ∘ env) ≠ 0
      rw [hlhs]
      exact hoff habs loc hlhs
    | literal c => exact absurd (by rw [hlhs]; rfl) hsome
    | unused => exact absurd (by rw [hlhs]; rfl) hsome
  have hcell : (e.cell policy p env').row =
      e.rowFrom policy p a b (e.lhs.rowOf env') (e.rhs.rowOf env') := by
    unfold cell
    rw [hvalues]
  refine ⟨?_, e.size_rowFrom policy a b (hsize e.lhs) (hsize e.rhs), ?_⟩
  · show e.value (Cell.value ∘ env) = e.value (Cell.value ∘ env')
    rw [hvalues]
  · show (e.cell policy p env').row[k]? =
      some (dot s (e.rowFrom policy n a b (e.lhs.rowOf env) (e.rhs.rowOf env)))
    rw [hcell, rowFrom_eq_combineRows policy (ha env'), rowFrom_eq_combineRows policy (ha env),
      getElem?_combineRows hk (hrow e.lhs) hrow₂, dot_combineRows (hsize e.lhs) hsecond]

/-- The induction over the entries.  The condition on an entry speaks of the values before it, so
    they are carried along. -/
theorem pass_combines (hk : k < p) (policy : BranchPolicy) {entries : List (Entry K)}
    {env env' : Location → Cell K} (h : ∀ loc, (env loc).Combines s k (env' loc))
    (hoff : OffKinks entries (Cell.value ∘ env)) (loc : Location) :
    (pass (Entry.cell policy n) entries env loc).Combines s k
      (pass (Entry.cell policy p) entries env' loc) := by
  induction entries generalizing env env' with
  | nil => exact h loc
  | cons e rest ih =>
    obtain ⟨hfirst, hrest⟩ := offKinks_cons_iff.mp hoff
    have hcell := Entry.combines_cell hk policy h hfirst
    refine ih (update_rel h e.result hcell) ?_
    rw [Function.comp_update]
    exact hrest

/-- Off the kinks, each cell is that of the identity, combined along the seeds. -/
theorem Tape.combines_cells {t : Tape K} (policy : BranchPolicy) {x : Array K}
    {xd : Array (Array K)} (hxd : IsMatrix xd t.independents.size p) (hoff : t.OffKinks x)
    (k : Fin p) (loc : Location) :
    (t.cells policy x t.independents.size (identityRows t.independents.size) loc).Combines
      (fun j => toMatrix t.independents.size p xd j k) k (t.cells policy x p xd loc) := by
  refine pass_combines k.isLt policy (fun loc => ?_) ?_ loc
  · refine t.place_rel ⟨rfl, Array.size_replicate, ?_⟩ (fun i hi => ⟨rfl, ?_, ?_⟩) loc
    · show (Array.replicate p (0 : K))[k.val]? = some (dot _ (Array.replicate _ 0))
      rw [dot_replicate_zero, Array.getElem?_replicate, if_pos k.isLt]
    · have hid : i < (identityRows t.independents.size : Array (Array K)).size := by
        rw [(isMatrix_identityRows (F := K) _).1]
        exact hi
      show ((identityRows t.independents.size : Array (Array K))[i]?.getD #[]).size = _
      rw [Array.getElem?_eq_getElem hid, Option.getD_some]
      exact (isMatrix_identityRows (F := K) _).2 _ (Array.getElem_mem hid)
    · have hi' : i < xd.size := by rw [hxd.1]; exact hi
      have hk : k.val < xd[i].size := by rw [hxd.2 _ (Array.getElem_mem hi')]; exact k.isLt
      have hseed : (xd[i]?.getD #[])[k.val]? =
          some (toMatrix t.independents.size p xd ⟨i, hi⟩ k) := by
        unfold toMatrix
        rw [Fin.getElem?_fin, Fin.getElem?_fin, Array.getElem?_eq_getElem hi', Option.getD_some,
          Array.getElem?_eq_getElem hk, Option.getD_some]
      have hdot := dot_identityRows (fun j => toMatrix t.independents.size p xd j k) ⟨i, hi⟩
      show (xd[i]?.getD #[])[k.val]? =
        some (dot _ ((identityRows t.independents.size)[i]?.getD #[]))
      rw [hseed]
      exact congrArg some hdot.symm
  · rw [value_startCells]
    exact hoff

/-- So the rows of the dependents are the product of the Jacobian with the seeds. -/
theorem Tape.toMatrix_rowsAt {t : Tape K} (policy : BranchPolicy) {x : Array K}
    {xd : Array (Array K)} (hxd : IsMatrix xd t.independents.size p) (hoff : t.OffKinks x) :
    toMatrix t.dependents.size p (t.rowsAt policy x p xd) =
      toMatrix t.dependents.size t.independents.size
        (t.rowsAt policy x t.independents.size (identityRows t.independents.size)) *
      toMatrix t.independents.size p xd := by
  have hrow : ∀ (q : Nat) (seeds : Array (Array K)) (i : Fin t.dependents.size),
      (t.rowsAt policy x q seeds)[i]?.getD #[] =
        (t.cells policy x q seeds t.dependents[i]).row := by
    intro q seeds i
    unfold rowsAt
    rw [Fin.getElem?_fin, Array.getElem?_map, Array.getElem?_eq_getElem i.isLt, Option.map_some,
      Option.getD_some]
    rfl
  ext i k
  rw [Matrix.mul_apply]
  show ((t.rowsAt policy x p xd)[i]?.getD #[])[k]?.getD 0 = _
  rw [hrow, Fin.getElem?_fin, (t.combines_cells policy hxd hoff k t.dependents[i]).row,
    Option.getD_some]
  refine Finset.sum_congr rfl fun j _ => ?_
  show _ = ((t.rowsAt policy x _ _)[i]?.getD #[])[j]?.getD 0 * _
  rw [hrow]

end Field

/-! ## Scaling the seeds -/

/-- The rows times `c`. -/
def scaleRows (c : K) (rows : Array (Array K)) : Array (Array K) :=
  rows.map fun row => row.map (c * ·)

theorem isMatrix_scaleRows {m p : Nat} {rows : Array (Array K)} (h : IsMatrix rows m p) (c : K) :
    IsMatrix (scaleRows c rows) m p := by
  refine ⟨by rw [scaleRows, Array.size_map, h.1], fun row hrow => ?_⟩
  obtain ⟨r, hr, rfl⟩ := Array.mem_map.mp hrow
  rw [Array.size_map, h.2 r hr]

/-- Combining rows commutes with scaling them. -/
theorem combineRows_scale [DecidableEq K] [Gauge K] (p : Nat) (c da db : K)
    (rowA rowB : Option (Array K)) :
    combineRows p ((rowA.map (·.map (c * ·))).map (da, ·))
        ((rowB.map (·.map (c * ·))).map (db, ·)) =
      (combineRows p (rowA.map (da, ·)) (rowB.map (db, ·))).map (c * ·) := by
  have hone : ∀ (d : K) (row : Array K),
      (row.map (c * ·)).map (d * ·) = (row.map (d * ·)).map (c * ·) := by
    intro d row
    rw [Array.map_map, Array.map_map]
    exact Array.map_congr_left fun u _ => mul_left_comm d c u
  cases rowA with
  | none =>
    cases rowB with
    | none =>
      show Array.replicate p (0 : K) = (Array.replicate p 0).map (c * ·)
      rw [Array.map_replicate, mul_zero]
    | some b => exact hone db b
  | some a =>
    cases rowB with
    | none => exact hone da a
    | some b =>
      show Array.zipWith (fun xa xb => da * xa + db * xb) (a.map (c * ·)) (b.map (c * ·)) =
        (Array.zipWith (fun xa xb => da * xa + db * xb) a b).map (c * ·)
      rw [Array.zipWith_map, Array.map_zipWith]
      congr 1
      funext xa xb
      ring

section Ordered

variable [LinearOrder K] [IsStrictOrderedRing K] [IntegerPart K] {c : K}

/-- So does `abs`, on its kink too: a magnitude scales with a factor that is not negative. -/
theorem absRow_scale (hc : 0 ≤ c) (policy : BranchPolicy) (p : Nat) (aux : Aux) (a : K)
    (row : Option (Array K)) :
    absRow policy p aux a (row.map (·.map (c * ·))) = (absRow policy p aux a row).map (c * ·) := by
  by_cases ha : a = 0
  · cases row with
    | none =>
      show Array.replicate p (0 : K) = (Array.replicate p 0).map (c * ·)
      rw [Array.map_replicate, mul_zero]
    | some row =>
      show (if a == 0 then (row.map (c * ·)).map Scalar.abs else _) =
        (if a == 0 then row.map Scalar.abs else _).map (c * ·)
      rw [if_pos (beq_zero_iff.mpr ha), if_pos (beq_zero_iff.mpr ha), Array.map_map, Array.map_map]
      refine Array.map_congr_left fun u _ => ?_
      show |c * u| = c * |u|
      rw [abs_mul, abs_of_nonneg hc]
  · rw [absRow_of_ne_zero policy aux (fun _ => ha) 0, absRow_of_ne_zero policy aux (fun _ => ha) 0]
    exact combineRows_scale p c _ 0 row none

/-- The second cell has the same value and a row that is scaled. -/
structure Cell.Scaled (c : K) (cell cell' : Cell K) : Prop where
  value : cell.value = cell'.value
  row : cell'.row = cell.row.map (c * ·)

variable [Elementary K]

/-- Every entry keeps this. -/
theorem Entry.scaled_cell (hc : 0 ≤ c) (policy : BranchPolicy) (p : Nat) (e : Entry K)
    {env env' : Location → Cell K} (h : ∀ loc, (env loc).Scaled c (env' loc)) :
    (e.cell policy p env).Scaled c (e.cell policy p env') := by
  have hvalues : Cell.value ∘ env' = Cell.value ∘ env := funext fun loc => (h loc).value.symm
  have hrow : ∀ o : Operand K, o.rowOf env' = (o.rowOf env).map (·.map (c * ·)) := by
    intro o
    cases o with
    | location loc => exact congrArg some (h loc).row
    | literal c => rfl
    | unused => rfl
  unfold Entry.cell
  rw [hvalues]
  refine ⟨rfl, ?_⟩
  show e.rowFrom policy p _ _ (e.lhs.rowOf env') (e.rhs.rowOf env') =
    (e.rowFrom policy p _ _ _ _).map _
  rw [hrow, hrow]
  unfold Entry.rowFrom
  by_cases habs : e.op = .abs
  · rw [if_pos habs, if_pos habs]
    exact absRow_scale hc policy p e.aux _ _
  · rw [if_neg habs, if_neg habs]
    exact combineRows_scale p c _ _ _ _

/-- Scaled seeds leave scaled rows. -/
theorem Tape.rowsAt_scale (hc : 0 ≤ c) (t : Tape K) (policy : BranchPolicy) (x : Array K) (p : Nat)
    (xd : Array (Array K)) (hxd : xd.size = t.independents.size) :
    t.rowsAt policy x p (scaleRows c xd) = scaleRows c (t.rowsAt policy x p xd) := by
  have hcells : ∀ loc, (t.cells policy x p xd loc).Scaled c
      (t.cells policy x p (scaleRows c xd) loc) := by
    refine pass_rel (fun e _ env env' h => e.scaled_cell hc policy p h) fun loc => ?_
    refine t.place_rel ⟨rfl, ?_⟩ (fun i hi => ⟨rfl, ?_⟩) loc
    · rw [Array.map_replicate, mul_zero]
    · have hi' : i < xd.size := by rw [hxd]; exact hi
      show (scaleRows c xd)[i]?.getD #[] = (xd[i]?.getD #[]).map (c * ·)
      unfold scaleRows
      rw [Array.getElem?_map, Array.getElem?_eq_getElem hi', Option.map_some, Option.getD_some,
        Option.getD_some]
  unfold rowsAt scaleRows
  rw [Array.map_map]
  exact Array.map_congr_left fun loc _ => (hcells loc).row

/-! ## The evaluators -/

/-- Over an exact ordered field, at every point of a tape that passes its own check, and under
    every policy: off the kinks the derivatives are the Jacobian times the seeds; on the kinks too
    they scale with a factor of the seeds that is not negative, and the values and the report stay
    the same. -/
theorem linear_in_seeds {t : Tape K} (ht : t.isWellFormed = true) {x : Array K}
    (hx : x.size = t.independents.size) (policy : BranchPolicy) :
    ∃ y report rows, IsMatrix rows t.dependents.size t.independents.size ∧
      (t.jacobian policy x).Gives ⟨y, rows⟩ () ∧
      ∀ (p : Nat) (xd : Array (Array K)), IsMatrix xd t.independents.size p →
        ∃ yd, IsMatrix yd t.dependents.size p ∧
          (∀ out : Outputs K, out.y.size = t.dependents.size → IsMatrix out.yd t.dependents.size p →
            (t.forwardInto policy p x xd out).Gives report ⟨y, yd⟩ ∧
            ∀ c, 0 ≤ c →
              (t.forwardInto policy p x (scaleRows c xd) out).Gives report ⟨y, scaleRows c yd⟩) ∧
          (t.OffKinks x → toMatrix t.dependents.size p yd =
            toMatrix t.dependents.size t.independents.size rows *
              toMatrix t.independents.size p xd) := by
  have hrep := Tape.replayable_of_isWellFormed ht
  have hid := Tape.isMatrix_identityRows (F := K) t.independents.size
  refine ⟨_, { switches := t.switchesAt x }, _, t.isMatrix_rowsAt hrep policy hx hid,
    t.jacobian_gives hrep policy hx, fun p xd hxd => ?_⟩
  refine ⟨t.rowsAt policy x p xd, t.isMatrix_rowsAt hrep policy hx hxd,
    fun out hy hyd => ⟨t.forwardInto_gives hrep policy hx hxd hy hyd, fun c hc => ?_⟩,
    fun hoff => Tape.toMatrix_rowsAt policy hxd hoff⟩
  rw [← Tape.rowsAt_scale hc t policy x p xd hxd.1]
  exact t.forwardInto_gives hrep policy hx (isMatrix_scaleRows hxd c) hy hyd

end Ordered

/-- The product of a magnitude with another independent, recorded on one side of the kink: on the
    other side, and on the kink itself. -/
theorem linear_in_seeds_beside_kink :
    ∃ (_ : Elementary ℚ) (t : Tape ℚ) (y y' : Array ℚ) (rows yd yd' : Array (Array ℚ))
      (report report' : Report ℚ), t.isWellFormed = true ∧
      t.OffKinks #[-2, 3] ∧ (t.jacobian .replay #[-2, 3]).Gives ⟨y, rows⟩ () ∧
      (t.forwardInto .replay 1 #[-2, 3] #[#[5], #[7]] ⟨#[0], #[#[0]]⟩).Gives report ⟨y, yd⟩ ∧
      toMatrix 1 1 yd = toMatrix 1 2 rows * toMatrix 2 1 #[#[(5 : ℚ)], #[7]] ∧
      ¬ t.OffKinks #[0, 3] ∧
      (t.forwardInto .replay 1 #[0, 3] #[#[-5], #[7]] ⟨#[0], #[#[0]]⟩).Gives report' ⟨y', yd'⟩ ∧
      (t.forwardInto .replay 1 #[0, 3] (scaleRows 4 #[#[-5], #[7]]) ⟨#[0], #[#[0]]⟩).Gives report'
        ⟨y', scaleRows 4 yd'⟩ := by
  let elementary : Elementary ℚ := .absent ℚ
  let magnitude : Entry ℚ := ⟨.abs, 2, .location 0, .unused, .branch .positive⟩
  let product : Entry ℚ := ⟨.mul, 3, .location 2, .location 1, .none⟩
  let t : Tape ℚ := ⟨7, 1, #[magnitude, product], #[1, 1, 1, 1], #[0, 1], #[3]⟩
  have ht : t.isWellFormed = true := by decide +kernel
  have hoff : t.OffKinks #[-2, 3] := by
    refine offKinks_cons_iff.mpr ⟨fun _ loc hloc => ?_, offKinks_cons_iff.mpr ⟨?_, offKinks_nil _⟩⟩
    · obtain rfl : 0 = loc := Operand.location.inj hloc
      decide +kernel
    · exact fun habs => nomatch habs
  have hon : ¬ t.OffKinks #[0, 3] := fun h =>
    h [] magnitude [product] rfl rfl 0 rfl (by decide +kernel)
  have hy : (⟨#[0], #[#[0]]⟩ : Outputs ℚ).y.size = t.dependents.size := rfl
  have hyd : IsMatrix (⟨#[0], #[#[0]]⟩ : Outputs ℚ).yd t.dependents.size 1 := ⟨rfl, by simp⟩
  have hseeds : ∀ a b : ℚ, IsMatrix #[#[a], #[b]] t.independents.size 1 :=
    fun a b => ⟨rfl, by simp⟩
  obtain ⟨y, report, rows, -, hrows, hdirections⟩ :=
    linear_in_seeds ht (x := #[-2, 3]) rfl .replay
  obtain ⟨yd, -, hgives, hproduct⟩ := hdirections 1 _ (hseeds 5 7)
  obtain ⟨y', report', _, -, -, hdirections'⟩ := linear_in_seeds ht (x := #[0, 3]) rfl .replay
  obtain ⟨yd', -, hgives', -⟩ := hdirections' 1 _ (hseeds (-5) 7)
  obtain ⟨hkink, hscaled⟩ := hgives' ⟨#[0], #[#[0]]⟩ hy hyd
  exact ⟨elementary, t, y, y', rows, yd, yd', report, report', ht, hoff, hrows,
    (hgives ⟨#[0], #[#[0]]⟩ hy hyd).1, hproduct hoff, hon, hkink, hscaled 4 (by norm_num)⟩

end DiffTape
