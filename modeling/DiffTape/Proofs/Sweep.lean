/-
  THE SWEEP IS A PASS.

  On a tape whose locations are in range and whose operands lie below the results they feed (a
  `Replayable` tape), no access of a sweep fails, and the buffers end up holding exactly what the
  pass of `Entry.cell` computes (`Tape.replay?_eq`).  The branch switches are those of the values
  on the way (`Tape.switchesAt`).

  Nothing is assumed of the numbers, and nothing of the order of the results.  So this also covers
  tapes in which a location is written more than once.

  1. `Sweep.step_spec`   — one entry: the buffers go from the cells before to the cells after it.
  2. `foldlM_step`       — the induction over the entries.
  3. `Tape.seed?_spec`   — the independents.
  4. `Tape.replay?_eq`   — a whole replay, with the outputs that are read off it.
-/
import DiffTape.Proofs.Buffers
import DiffTape.Replay.Forward

namespace DiffTape

variable {F : Type}

/-- A sweep of the tape stays within the buffers, and reads only rows below the one it writes. -/
structure Tape.Replayable (t : Tape F) : Prop where
  independents_lt : ∀ loc ∈ t.independents, loc.toNat < t.values.size
  dependents_lt : ∀ loc ∈ t.dependents, loc.toNat < t.values.size
  result_lt : ∀ e ∈ t.entries, e.result.toNat < t.values.size
  lhs_below : ∀ e ∈ t.entries, e.lhs.Below e.result
  rhs_below : ∀ e ∈ t.entries, e.rhs.Below e.result

/-- `m` rows of `p` numbers each. -/
def IsMatrix (rows : Array (Array F)) (m p : Nat) : Prop :=
  rows.size = m ∧ ∀ row ∈ rows, row.size = p

theorem mapM_eq_some_map {α β : Type} {xs : Array α} {f : α → Option β} {g : α → β}
    (h : ∀ a ∈ xs, f a = some (g a)) : xs.mapM f = some (xs.map g) := by
  have hlist : ∀ l : List α, (∀ a ∈ l, f a = some (g a)) → l.mapM f = some (l.map g) := by
    intro l
    induction l with
    | nil => exact fun _ => rfl
    | cons a rest ih =>
      intro hl
      rw [List.forall_mem_cons] at hl
      rw [List.mapM_cons, hl.1, ih hl.2]
      rfl
  rw [Array.mapM_eq_mapM_toList, hlist xs.toList fun a ha => h a (Array.mem_toList_iff.mp ha),
    Option.map_eq_map, Option.map_some, ← Array.toList_map, Array.toArray_toList]

/-! ## The shapes that are checked -/

namespace Tape

variable {t : Tape F} {x : Array F} {p : Nat} {seeds : Array (Array F)}

/-- After a check the rest is answered exactly if the check passes. -/
theorem check_bind_eq_ok_iff {ε α : Type} {first : Except ε Unit} {rest : Except ε α} {a : α} :
    (first >>= fun _ => rest) = .ok a ↔ first = .ok () ∧ rest = .ok a := by
  cases first with
  | error e => exact ⟨fun h => (nomatch h), fun h => (nomatch h.1)⟩
  | ok u => exact ⟨fun h => ⟨rfl, h⟩, fun h => h.2⟩

theorem checkRows_eq_ok_iff {what : ShapeOf} {rows : Array (Array F)} :
    checkRows what p rows = .ok () ↔ ∀ row ∈ rows, row.size = p := by
  have hlist : ∀ l : List (Array F), (forM l fun row => checkSize what p row.size) = .ok () ↔
      ∀ row ∈ l, row.size = p := by
    intro l
    induction l with
    | nil => exact ⟨fun _ row hrow => absurd hrow List.not_mem_nil, fun _ => rfl⟩
    | cons row rest ih =>
      rw [List.forall_mem_cons, ← ih, List.forM_cons, check_bind_eq_ok_iff, checkSize_eq_ok_iff,
        eq_comm]
  obtain ⟨l⟩ := rows
  unfold checkRows
  rw [Array.forM_eq_forM, List.forM_toArray]
  refine (hlist l).trans ?_
  exact forall_congr' fun row => imp_congr_left List.mem_toArray.symm

/-- The shapes are accepted exactly if every one of them is that of the tape. -/
theorem checkDirections_eq_ok_iff {out : Outputs F} :
    t.checkDirections p x seeds out = .ok () ↔
      x.size = t.independents.size ∧ out.y.size = t.dependents.size ∧
        IsMatrix seeds t.independents.size p ∧ IsMatrix out.yd t.dependents.size p := by
  unfold checkDirections checkPoint IsMatrix
  simp only [check_bind_eq_ok_iff, checkSize_eq_ok_iff, checkRows_eq_ok_iff]
  constructor
  · rintro ⟨⟨hx, hy⟩, hxd, hyd, hrows, hrows'⟩
    exact ⟨hx.symm, hy.symm, ⟨hxd.symm, hrows⟩, hyd.symm, hrows'⟩
  · rintro ⟨hx, hy, ⟨hxd, hrows⟩, hyd, hrows'⟩
    exact ⟨⟨hx.symm, hy.symm⟩, hxd.symm, hyd.symm, hrows, hrows'⟩

end Tape

/-! ## Operands -/

section Operands

variable {s : Scratch F} {n p : Nat} {env : Location → Cell F} {r : Location}

/-- An operand below the result reads the value that the buffers hold for it. -/
theorem Operand.value?_eq [Scalar F] (h : s.Holds n p env) (hr : r.toNat < n) {o : Operand F}
    (ho : o.Below r) : o.value? s = some (o.read (Cell.value ∘ env)) := by
  cases o with
  | location loc =>
    have hlt : loc < r := ho loc rfl
    exact h.value loc (Nat.lt_trans (UInt32.lt_iff_toNat_lt.mp hlt) hr)
  | literal c => rfl
  | unused => rfl

/-- And its row, which ends before that of the result begins. -/
theorem Operand.row?_eq (h : s.Holds n p env) (hr : r.toNat < n) {o : Operand F}
    (ho : o.Below r) : o.row? s r = some (o.rowOf env) := by
  cases o with
  | location loc =>
    have hlt : loc.toNat < r.toNat := UInt32.lt_iff_toNat_lt.mp (ho loc rfl)
    show (if loc.toNat * s.width + s.width ≤ r.toNat * s.width then
      (s.directionRow? loc).map some else none) = some (some (env loc).row)
    rw [if_pos (row_fits hlt s.width), h.row loc (Nat.lt_trans hlt hr), Option.map_some]
  | literal c => rfl
  | unused => rfl

/-- All rows that are combined have one length. -/
theorem Operand.size_rowOf (h : s.Holds n p env) (hr : r.toNat < n) {o : Operand F}
    (ho : o.Below r) : ∀ row ∈ o.rowOf env, row.size = p := by
  intro row hrow
  obtain ⟨loc, hloc, rfl⟩ := Option.map_eq_some_iff.mp hrow
  exact h.size_row (Nat.lt_trans (UInt32.lt_iff_toNat_lt.mp (ho loc hloc)) hr)

end Operands

variable [Scalar F]

/-! ## The row of an entry has one component for each direction -/

/-- Without rows the result is constant, and its row is all zero. -/
theorem size_combineRows {p : Nat} {da db : F} {rowA rowB : Option (Array F)}
    (hA : ∀ row ∈ rowA, row.size = p) (hB : ∀ row ∈ rowB, row.size = p) :
    (combineRows p (rowA.map (da, ·)) (rowB.map (db, ·))).size = p := by
  cases rowA with
  | none =>
    cases rowB with
    | none => exact Array.size_replicate
    | some b =>
      show (b.map _).size = p
      rw [Array.size_map, hB b rfl]
  | some a =>
    have ha := hA a rfl
    cases rowB with
    | none =>
      show (a.map _).size = p
      rw [Array.size_map, ha]
    | some b =>
      show (Array.zipWith _ a b).size = p
      rw [Array.size_zipWith, ha, hB b rfl, Nat.min_self]

theorem size_absRow (policy : BranchPolicy) {p : Nat} (aux : Aux) (a : F)
    {rowA : Option (Array F)} (hA : ∀ row ∈ rowA, row.size = p) :
    (absRow policy p aux a rowA).size = p := by
  cases rowA with
  | none => exact Array.size_replicate
  | some row =>
    have hrow := hA row rfl
    show (if a == 0 then row.map Scalar.abs
      else row.map (policy.absSign aux.branch? a * ·)).size = p
    split
    · rw [Array.size_map, hrow]
    · rw [Array.size_map, hrow]

variable [Elementary F]

theorem Entry.size_rowFrom (e : Entry F) (policy : BranchPolicy) {p : Nat} (a b : F)
    {rowA rowB : Option (Array F)} (hA : ∀ row ∈ rowA, row.size = p)
    (hB : ∀ row ∈ rowB, row.size = p) : (e.rowFrom policy p a b rowA rowB).size = p := by
  unfold rowFrom
  split
  · exact size_absRow policy e.aux a hA
  · exact size_combineRows hA hB

/-! ## One entry -/

section Steps

variable {s : Scratch F} {n p : Nat} {env : Location → Cell F}

/-- The row that is found with checked reads is the one that the entry computes from its cells. -/
theorem Entry.row?_eq (policy : BranchPolicy) (h : s.Holds n p env) {e : Entry F}
    (hres : e.result.toNat < n) (hl : e.lhs.Below e.result) (hr : e.rhs.Below e.result)
    (a b : F) : e.row? policy s a b (evalValue e.op a b e.aux) =
      some (e.rowFrom policy p a b (e.lhs.rowOf env) (e.rhs.rowOf env)) := by
  unfold row? rowFrom
  rw [Operand.row?_eq h hres hl, Operand.row?_eq h hres hr, h.width]
  by_cases habs : e.op = .abs
  · rw [if_pos habs]
    show (if e.op = .abs then _ else _) = _
    rw [if_pos habs]
    rfl
  · rw [if_neg habs]
    show (if e.op = .abs then _ else _) = _
    rw [if_neg habs]
    rfl

/-- A step writes the cell of its entry, and lists the entry if it left its branch. -/
theorem Sweep.step_spec (policy : BranchPolicy) (h : s.Holds n p env) {e : Entry F}
    (hres : e.result.toNat < n) (hl : e.lhs.Below e.result) (hr : e.rhs.Below e.result)
    (switches : Array (BranchSwitch F)) :
    ∃ s', Sweep.step policy ⟨s, switches⟩ e =
        some ⟨s', switches ++ (e.switch? (e.lhs.read (Cell.value ∘ env))).toArray⟩ ∧
      s'.Holds n p (Function.update env e.result (e.cell policy p env)) := by
  have hsize : (e.cell policy p env).row.size = p :=
    e.size_rowFrom policy _ _ (Operand.size_rowOf h hres hl) (Operand.size_rowOf h hres hr)
  -- all reads come before the two writes, so they see the cells of `env`
  obtain ⟨s₁, s₂, h₁, h₂, hs₂⟩ := h.write hres (e.cell policy p env) hsize
  refine ⟨s₂, ?_, hs₂⟩
  have hrow := Entry.row?_eq policy h hres hl hr (e.lhs.read (Cell.value ∘ env))
    (e.rhs.read (Cell.value ∘ env))
  have h₁' : s.setValue? e.result (evalValue e.op (e.lhs.read (Cell.value ∘ env))
      (e.rhs.read (Cell.value ∘ env)) e.aux) = some s₁ := h₁
  have h₂' : s₁.setRow? e.result (e.rowFrom policy p (e.lhs.read (Cell.value ∘ env))
      (e.rhs.read (Cell.value ∘ env)) (e.lhs.rowOf env) (e.rhs.rowOf env)) = some s₂ := h₂
  simp only [step, Operand.value?_eq h hres hl, Operand.value?_eq h hres hr, hrow, h₁', h₂',
    Option.bind_eq_bind, Option.bind_some, Option.pure_def]

/-- The branch switches of a list of entries, where `v` has the values before the first of them. -/
def switchesFrom : List (Entry F) → (Location → F) → List (BranchSwitch F)
  | [], _ => []
  | e :: rest, v =>
    (e.switch? (e.lhs.read v)).toList ++
      switchesFrom rest (Function.update v e.result (e.value v))

/-- The switches of two lists, one after the other. -/
theorem switchesFrom_append (l l' : List (Entry F)) (v : Location → F) :
    switchesFrom (l ++ l') v = switchesFrom l v ++ switchesFrom l' (pass Entry.value l v) := by
  induction l generalizing v with
  | nil => rfl
  | cons e rest ih =>
    rw [List.cons_append, switchesFrom, ih, switchesFrom, List.append_assoc]
    rfl

omit [Elementary F] in
/-- An entry is a switch exactly if it recorded a branch and the operand is on another one. -/
theorem Entry.switch?_eq_some_iff {e : Entry F} {a : F} {b : BranchSwitch F} :
    e.switch? a = some b ↔ ∃ c, e.aux.branch? = some c ∧ Branch.of a ≠ c ∧
      b = ⟨e.result, e.op, c, Branch.of a, a⟩ := by
  unfold Entry.switch?
  cases e.aux.branch? with
  | none => exact ⟨fun h => (nomatch h), fun ⟨_, h, _⟩ => (nomatch h)⟩
  | some c =>
    dsimp only
    constructor
    · intro h
      split at h
      · cases h
      · cases h
        exact ⟨c, rfl, ‹_›, rfl⟩
    · rintro ⟨_, ⟨⟩, hne, rfl⟩
      exact if_neg hne

omit [Elementary F] in
/-- A switch is reported at the location of its entry. -/
theorem Entry.location_switch? {e : Entry F} {a : F} {b : BranchSwitch F}
    (h : e.switch? a = some b) : b.location = e.result := by
  obtain ⟨c, -, -, rfl⟩ := Entry.switch?_eq_some_iff.mp h
  rfl

/-- A branch is left at the result of an entry. -/
theorem location_of_mem_switchesFrom {entries : List (Entry F)} {v : Location → F}
    {b : BranchSwitch F} (hb : b ∈ switchesFrom entries v) :
    ∃ e ∈ entries, b.location = e.result := by
  induction entries generalizing v with
  | nil => cases hb
  | cons e rest ih =>
    rw [switchesFrom, List.mem_append, Option.mem_toList] at hb
    rcases hb with hb | hb
    · exact ⟨e, List.mem_cons_self, Entry.location_switch? hb⟩
    · obtain ⟨e', he', hloc⟩ := ih hb
      exact ⟨e', List.mem_cons_of_mem e he', hloc⟩

/-- The induction over the entries: the buffers hold what the pass computes. -/
theorem foldlM_step (policy : BranchPolicy) {entries : List (Entry F)}
    (hres : ∀ e ∈ entries, e.result.toNat < n) (hl : ∀ e ∈ entries, e.lhs.Below e.result)
    (hr : ∀ e ∈ entries, e.rhs.Below e.result) (h : s.Holds n p env)
    (switches : Array (BranchSwitch F)) :
    ∃ s', entries.foldlM (Sweep.step policy) ⟨s, switches⟩ =
        some ⟨s', switches ++ (switchesFrom entries (Cell.value ∘ env)).toArray⟩ ∧
      s'.Holds n p (pass (Entry.cell policy p) entries env) := by
  induction entries generalizing s env switches with
  | nil => exact ⟨s, by simp [switchesFrom], h⟩
  | cons e rest ih =>
    rw [List.forall_mem_cons] at hres hl hr
    obtain ⟨s₁, hstep, h₁⟩ := Sweep.step_spec policy h hres.1 hl.1 hr.1 switches
    obtain ⟨s₂, hfold, h₂⟩ := ih hres.2 hl.2 hr.2 h₁
      (switches ++ (e.switch? (e.lhs.read (Cell.value ∘ env))).toArray)
    refine ⟨s₂, ?_, h₂⟩
    -- the switch of `e` comes first, and the rest sees the value that `e` wrote
    have hsw : (e.switch? (e.lhs.read (Cell.value ∘ env))).toArray ++
        (switchesFrom rest (Cell.value ∘ Function.update env e.result (e.cell policy p env))).toArray
          = (switchesFrom (e :: rest) (Cell.value ∘ env)).toArray := by
      rw [Function.comp_update, ← Option.toArray_toList, List.append_toArray]
      rfl
    rw [List.foldlM_cons, hstep, Option.bind_eq_bind, Option.bind_some, hfold, Array.append_assoc,
      hsw]

end Steps

/-! ## The independents -/

namespace Tape

variable (t : Tape F) (policy : BranchPolicy) (x : Array F) (p : Nat) (seeds : Array (Array F))

/-- The cells before the first entry: the seeds of the independents, and zero elsewhere. -/
def startCells : Location → Cell F :=
  t.place ⟨0, Array.replicate p 0⟩ fun i => ⟨x[i]?.getD 0, seeds[i]?.getD #[]⟩

/-- The cells a sweep leaves. -/
def cells : Location → Cell F :=
  pass (Entry.cell policy p) t.entries.toList (t.startCells x p seeds)

/-- The values before the first entry. -/
def startValues : Location → F := t.place 0 fun i => x[i]?.getD 0

/-- The values a sweep leaves. -/
def valuesAt : Location → F := pass Entry.value t.entries.toList (t.startValues x)

/-- The branch switches of a sweep. -/
def switchesAt : Array (BranchSwitch F) := (switchesFrom t.entries.toList (t.startValues x)).toArray

omit [Elementary F] in
theorem value_startCells : Cell.value ∘ t.startCells x p seeds = t.startValues x :=
  t.place_map Cell.value _ _

/-- The values depend neither on the policy nor on the directions. -/
theorem value_cells : Cell.value ∘ t.cells policy x p seeds = t.valuesAt x := by
  unfold cells
  rw [pass_map Cell.value (g := Entry.value) (fun _ _ => rfl), value_startCells]
  rfl

variable {t policy x p seeds}

omit [Scalar F] [Elementary F] in
theorem foldlM_seed {n : Nat} {l : List (Location × Nat)} (hlt : ∀ y ∈ l, y.1.toNat < n)
    {f : Nat → Cell F} (hx : ∀ y ∈ l, x[y.2]? = some (f y.2).value)
    (hs : ∀ y ∈ l, seeds[y.2]? = some (f y.2).row ∧ (f y.2).row.size = p)
    {s : Scratch F} {env : Location → Cell F} (h : s.Holds n p env) :
    ∃ s', l.foldlM (fun s (y : Location × Nat) => do
        let s ← s.setValue? y.1 (← x[y.2]?)
        s.setRow? y.1 (← seeds[y.2]?)) s = some s' ∧
      s'.Holds n p (placeAll f l env) := by
  induction l generalizing s env with
  | nil => exact ⟨s, rfl, h⟩
  | cons y rest ih =>
    rw [List.forall_mem_cons] at hlt hx hs
    obtain ⟨⟨hrow, hsize⟩, hrest⟩ := hs
    obtain ⟨s₁, s₂, h₁, h₂, hs₂⟩ := h.write hlt.1 (f y.2) hsize
    obtain ⟨s₃, hfold, h₃⟩ := ih hlt.2 hx.2 hrest hs₂
    refine ⟨s₃, ?_, h₃⟩
    rw [List.foldlM_cons]
    simp only [hx.1, hrow, Option.bind_eq_bind, Option.bind_some, h₁, h₂]
    exact hfold

omit [Elementary F] in
theorem seed?_spec (ht : t.Replayable) (hx : x.size = t.independents.size)
    (hs : IsMatrix seeds t.independents.size p) (s : Scratch F) :
    ∃ s', t.seed? x seeds (s.reset t.values.size p) = some s' ∧
      s'.Holds t.values.size p (t.startCells x p seeds) := by
  have hidx : ∀ y ∈ t.independents.toList.zipIdx, y.2 < t.independents.size := by
    intro y hy
    have hi := List.snd_lt_of_mem_zipIdx hy
    simpa using hi
  have hxs : ∀ y ∈ t.independents.toList.zipIdx,
      x[y.2]? = some (⟨x[y.2]?.getD 0, seeds[y.2]?.getD #[]⟩ : Cell F).value := by
    intro y hy
    have hi : y.2 < x.size := by rw [hx]; exact hidx y hy
    rw [Array.getElem?_eq_getElem hi, Option.getD_some]
  have hss : ∀ y ∈ t.independents.toList.zipIdx,
      seeds[y.2]? = some (⟨x[y.2]?.getD 0, seeds[y.2]?.getD #[]⟩ : Cell F).row ∧
        (⟨x[y.2]?.getD 0, seeds[y.2]?.getD #[]⟩ : Cell F).row.size = p := by
    intro y hy
    have hi : y.2 < seeds.size := by rw [hs.1]; exact hidx y hy
    rw [Array.getElem?_eq_getElem hi, Option.getD_some]
    exact ⟨rfl, hs.2 _ (Array.getElem_mem hi)⟩
  have hlt : ∀ y ∈ t.independents.toList.zipIdx, y.1.toNat < t.values.size := fun y hy =>
    ht.independents_lt y.1 (Array.mem_toList_iff.mp (List.fst_mem_of_mem_zipIdx hy))
  have hfold := foldlM_seed hlt (f := fun i => ⟨x[i]?.getD 0, seeds[i]?.getD #[]⟩) hxs hss
    (s.holds_reset t.values.size p)
  unfold seed?
  rw [← Array.foldlM_toList, Array.toList_zipIdx]
  exact hfold

/-! ## A whole replay -/

/-- On a replayable tape the sweep succeeds, and leaves what the pass computes. -/
theorem sweep?_eq (ht : t.Replayable) (policy : BranchPolicy) (hx : x.size = t.independents.size)
    (hs : IsMatrix seeds t.independents.size p) (s : Scratch F) :
    ∃ s', t.sweep? policy x p seeds s = some ⟨s', t.switchesAt x⟩ ∧
      s'.Holds t.values.size p (t.cells policy x p seeds) := by
  obtain ⟨s₁, hseed, h₁⟩ := t.seed?_spec ht hx hs s
  obtain ⟨s₂, hfold, h₂⟩ := foldlM_step policy
    (fun e (he : e ∈ t.entries.toList) => ht.result_lt e (Array.mem_toList_iff.mp he))
    (fun e he => ht.lhs_below e (Array.mem_toList_iff.mp he))
    (fun e he => ht.rhs_below e (Array.mem_toList_iff.mp he)) h₁ #[]
  refine ⟨s₂, ?_, h₂⟩
  unfold sweep?
  rw [hseed, Option.bind_eq_bind, Option.bind_some, ← Array.foldlM_toList, hfold, value_startCells,
    Array.empty_append]
  rfl

/-- A replay of a replayable tape reads off the cells of the dependents. -/
theorem replay?_eq (ht : t.Replayable) (policy : BranchPolicy) (hx : x.size = t.independents.size)
    (hs : IsMatrix seeds t.independents.size p) (s : Scratch F) :
    ∃ s', s'.Holds t.values.size p (t.cells policy x p seeds) ∧
      t.replay? policy x p seeds s = some
        { scratch := s'
          y := t.dependents.map (t.valuesAt x)
          yd := t.dependents.map fun loc => (t.cells policy x p seeds loc).row
          report := { switches := t.switchesAt x } } := by
  obtain ⟨s', hsweep, hs'⟩ := t.sweep?_eq ht policy hx hs s
  have hy : t.dependentValues? s' = some (t.dependents.map (t.valuesAt x)) := by
    refine mapM_eq_some_map fun loc hloc => ?_
    rw [hs'.value loc (ht.dependents_lt loc hloc), ← value_cells t policy x p seeds]
    rfl
  have hyd : t.dependentRows? s' =
      some (t.dependents.map fun loc => (t.cells policy x p seeds loc).row) :=
    mapM_eq_some_map fun loc hloc => hs'.row loc (ht.dependents_lt loc hloc)
  refine ⟨s', hs', ?_⟩
  unfold replay?
  rw [hsweep]
  simp only [Option.bind_eq_bind, Option.bind_some, hy, hyd, Option.pure_def]

/-! ## The evaluator -/

/-- Evaluating a replayable tape at arguments of its shape succeeds, and answers the cells of the
    pass whatever the buffers held before. -/
theorem forwardWithScratch_eq (ht : t.Replayable) (policy : BranchPolicy) {out : Outputs F}
    (hx : x.size = t.independents.size) (hxd : IsMatrix seeds t.independents.size p)
    (hy : out.y.size = t.dependents.size) (hyd : IsMatrix out.yd t.dependents.size p)
    (s : Scratch F) :
    ∃ s', s'.Holds t.values.size p (t.cells policy x p seeds) ∧
      (t.forwardWithScratch policy p x seeds out s).answer =
        .ok { switches := t.switchesAt x } ∧
      (t.forwardWithScratch policy p x seeds out s).buffers =
        ({ y := t.dependents.map (t.valuesAt x)
           yd := t.dependents.map fun loc => (t.cells policy x p seeds loc).row }, s') := by
  obtain ⟨s', hs', hreplay⟩ := t.replay?_eq ht policy hx hxd s
  refine ⟨s', hs', ?_⟩
  unfold forwardWithScratch evaluate
  rw [checkDirections_eq_ok_iff.mpr ⟨hx, hy, hxd, hyd⟩]
  simp only [hreplay, and_self]

end Tape

end DiffTape
