/-
  READING BACK WHAT WAS WRITTEN TO THE BUFFERS OF A REPLAY.

  The derivative rows stand one after the other in a flat array, so a row is a slice of it.  The
  facts here take the offsets out of the way: a row that was written is read back, and the rows of
  two locations never overlap (`slices_apart`).  Afterwards a scratch is only looked at through
  `value?` and `directionRow?`.

  A scratch `Holds` cells if it shows, at each of its locations, the value and the row of the cell.
  This determines the scratch (`Holds.ext`).
-/
import DiffTape.Proofs.Pass

namespace DiffTape

variable {F : Type}

/-! ## Slices of a flat array -/

theorem size_fold_set (cells : Array F) (start : Nat) :
    ∀ (n : Nat) (g : (k : Nat) → k < n → F),
      (n.fold (fun k h c => c.setIfInBounds (start + k) (g k h)) cells).size = cells.size
  | 0, _ => rfl
  | n + 1, g => by
    rw [Nat.fold_succ, Array.size_setIfInBounds]
    exact size_fold_set cells start n fun k h => g k (by omega)

/-- Numbers written one after the other from `start` on. -/
theorem getElem?_fold_set (cells : Array F) (start : Nat) :
    ∀ (n : Nat) (g : (k : Nat) → k < n → F) (j : Nat),
      (n.fold (fun k h c => c.setIfInBounds (start + k) (g k h)) cells)[j]? =
        if h : start ≤ j ∧ j < start + n ∧ j < cells.size then some (g (j - start) (by omega))
        else cells[j]?
  | 0, g, j => by
    rw [Nat.fold_zero, dif_neg (by omega)]
  | n + 1, g, j => by
    rw [Nat.fold_succ, Array.getElem?_setIfInBounds, size_fold_set,
      getElem?_fold_set cells start n (fun k h => g k (by omega)) j]
    by_cases hj : start + n = j
    · -- the cell written last
      subst hj
      rw [if_pos rfl]
      by_cases hin : start + n < cells.size
      · rw [if_pos hin, dif_pos ⟨by omega, by omega, hin⟩]
        congr
        omega
      · rw [if_neg hin, dif_neg (fun h => hin h.2.2), Array.getElem?_eq_none (by omega)]
    · rw [if_neg hj]
      by_cases hin : start ≤ j ∧ j < start + n ∧ j < cells.size
      · rw [dif_pos hin, dif_pos ⟨hin.1, by omega, hin.2.2⟩]
      · rw [dif_neg hin, dif_neg (fun h => hin ⟨h.1, by omega, h.2.2⟩)]

/-- A row is written exactly if it fits. -/
theorem overwrite?_isSome_iff {cells row : Array F} {start : Nat} :
    (overwrite? cells start row).isSome ↔ start + row.size ≤ cells.size := by
  unfold overwrite?
  split <;> simp [*]

theorem size_of_overwrite? {cells cells' row : Array F} {start : Nat}
    (h : overwrite? cells start row = some cells') : cells'.size = cells.size := by
  unfold overwrite? at h
  split at h
  · cases h
    exact size_fold_set cells start row.size _
  · cases h

/-- The cells after a row was written: the row, and around it what was there. -/
theorem getElem?_of_overwrite? {cells cells' row : Array F} {start : Nat}
    (h : overwrite? cells start row = some cells') (j : Nat) :
    cells'[j]? = if start ≤ j ∧ j < start + row.size then row[j - start]? else cells[j]? := by
  unfold overwrite? at h
  split at h
  · rename_i hfit
    cases h
    rw [getElem?_fold_set]
    by_cases hj : start ≤ j ∧ j < start + row.size
    · rw [dif_pos ⟨hj.1, hj.2, by omega⟩, if_pos hj, Array.getElem?_eq_getElem (by omega)]
    · rw [dif_neg (fun hin => hj ⟨hin.1, hin.2.1⟩), if_neg hj]
  · cases h

theorem slice?_eq_some_iff {cells row : Array F} {start n : Nat} :
    slice? cells start n = some row ↔
      start + n ≤ cells.size ∧ row.size = n ∧ ∀ j < n, row[j]? = cells[start + j]? := by
  unfold slice?
  constructor
  · intro h
    split at h
    · rename_i hfit
      cases h
      refine ⟨hfit, by rw [Array.size_extract]; omega, fun j hj => ?_⟩
      rw [Array.getElem?_extract_of_lt (by omega), Array.getElem?_eq_getElem]
    · cases h
  · rintro ⟨hfit, hsize, hrow⟩
    rw [if_pos hfit]
    refine congrArg some (Array.ext_getElem? fun j => ?_)
    by_cases hj : j < n
    · rw [Array.getElem?_extract_of_lt (by omega), hrow j hj, Array.getElem?_eq_getElem]
    · rw [Array.getElem?_eq_none (by rw [Array.size_extract]; omega),
        Array.getElem?_eq_none (by omega)]

/-- A row that was written is read back. -/
theorem slice?_of_overwrite? {cells cells' row : Array F} {start : Nat}
    (h : overwrite? cells start row = some cells') : slice? cells' start row.size = some row := by
  have hfit : start + row.size ≤ cells.size :=
    overwrite?_isSome_iff.mp (Option.isSome_of_eq_some h)
  refine slice?_eq_some_iff.mpr ⟨by rw [size_of_overwrite? h]; exact hfit, rfl, fun j hj => ?_⟩
  rw [getElem?_of_overwrite? h, if_pos ⟨by omega, by omega⟩, Nat.add_sub_cancel_left]

/-- A slice beside the row that was written is as it was. -/
theorem slice?_of_overwrite?_apart {cells cells' row : Array F} {start a n : Nat}
    (h : overwrite? cells start row = some cells') (hapart : a + n ≤ start ∨ start + row.size ≤ a) :
    slice? cells' a n = slice? cells a n := by
  refine Option.ext fun r => ?_
  rw [slice?_eq_some_iff, slice?_eq_some_iff, size_of_overwrite? h]
  refine and_congr_right fun _ => and_congr_right fun _ => forall₂_congr fun j hj => ?_
  rw [getElem?_of_overwrite? h, if_neg (by omega)]

/-- The row at `i` ends where that at `i + 1` begins, so it fits below all that come after. -/
theorem row_fits {i n : Nat} (h : i < n) (p : Nat) : i * p + p ≤ n * p := by
  have hmul : (i + 1) * p ≤ n * p := Nat.mul_le_mul_right p h
  rwa [Nat.succ_mul] at hmul

/-- The rows of two locations do not overlap. -/
theorem slices_apart {i j : Nat} (h : i ≠ j) (p : Nat) :
    i * p + p ≤ j * p ∨ j * p + p ≤ i * p := by
  rcases Nat.lt_or_gt_of_ne h with hlt | hgt
  · exact Or.inl (row_fits hlt p)
  · exact Or.inr (row_fits hgt p)

/-! ## What a scratch shows -/

namespace Scratch

/-- The scratch is for `n` locations and `p` directions, and shows the cell of each of them. -/
structure Holds (s : Scratch F) (n p : Nat) (env : Location → Cell F) : Prop where
  width : s.width = p
  size_values : s.values.size = n
  size_tangents : s.tangents.size = n * p
  value : ∀ loc : Location, loc.toNat < n → s.value? loc = some (env loc).value
  row : ∀ loc : Location, loc.toNat < n → s.directionRow? loc = some (env loc).row

variable {s : Scratch F} {n p : Nat} {env : Location → Cell F}

/-- A row that is shown has one component for each direction. -/
theorem Holds.size_row (h : s.Holds n p env) {loc : Location} (hloc : loc.toNat < n) :
    (env loc).row.size = p := by
  have hrow := h.row loc hloc
  unfold directionRow? at hrow
  rw [slice?_eq_some_iff] at hrow
  rw [hrow.2.1, h.width]

/-- Writing the value and the row of a cell succeeds and changes that cell only. -/
theorem Holds.write (h : s.Holds n p env) {loc : Location} (hloc : loc.toNat < n) (c : Cell F)
    (hc : c.row.size = p) :
    ∃ s₁ s₂, s.setValue? loc c.value = some s₁ ∧ s₁.setRow? loc c.row = some s₂ ∧
      s₂.Holds n p (Function.update env loc c) := by
  have hval : loc.toNat < s.values.size := by rw [h.size_values]; exact hloc
  have hfit : loc.toNat * s.width + c.row.size ≤ s.tangents.size := by
    rw [h.width, hc, h.size_tangents]
    exact row_fits hloc p
  obtain ⟨cells, hcells⟩ := Option.isSome_iff_exists.mp (overwrite?_isSome_iff.mpr hfit)
  refine ⟨{ s with values := s.values.set loc.toNat c.value hval },
    { s with values := s.values.set loc.toNat c.value hval, tangents := cells },
    dif_pos hval, ?_, ?_⟩
  · unfold setRow?
    rw [if_pos (by rw [hc, h.width]), hcells, Option.map_some]
  · refine ⟨h.width, ?_, ?_, fun l hl => ?_, fun l hl => ?_⟩
    · rw [Array.size_set, h.size_values]
    · rw [size_of_overwrite? hcells, h.size_tangents]
    · -- distinct locations have distinct positions, so only the value at `loc` is new
      show (s.values.set loc.toNat c.value hval)[l.toNat]? = _
      by_cases hll : l = loc
      · subst hll
        rw [Function.update_self, Array.getElem?_set_self]
      · rw [Function.update_of_ne hll, Array.getElem?_set_ne]
        · exact h.value l hl
        · exact fun he => hll (UInt32.toNat_inj.mp he.symm)
    · show slice? cells (l.toNat * s.width) s.width = _
      by_cases hll : l = loc
      · subst hll
        rw [Function.update_self]
        have hself := slice?_of_overwrite? hcells
        rwa [hc, ← h.width] at hself
      · rw [Function.update_of_ne hll, ← h.row l hl]
        refine slice?_of_overwrite?_apart hcells ?_
        rw [hc, ← h.width]
        exact slices_apart (fun he => hll (UInt32.toNat_inj.mp he)) s.width

/-- After a reset every location shows the zero cell. -/
theorem holds_reset [Scalar F] (s : Scratch F) (n p : Nat) :
    (s.reset n p).Holds n p fun _ => ⟨0, Array.replicate p 0⟩ := by
  refine ⟨rfl, Array.size_replicate, Array.size_replicate, fun loc hloc => ?_, fun loc hloc => ?_⟩
  · show (Array.replicate n (0 : F))[loc.toNat]? = some 0
    rw [Array.getElem?_replicate, if_pos hloc]
  · show slice? (Array.replicate (n * p) (0 : F)) (loc.toNat * p) p = _
    have hfit := row_fits hloc p
    refine slice?_eq_some_iff.mpr
      ⟨by rw [Array.size_replicate]; exact hfit, Array.size_replicate, fun j hj => ?_⟩
    rw [Array.getElem?_replicate, Array.getElem?_replicate, if_pos hj, if_pos (by omega)]

/-- If all locations can be addressed, two scratches that show the same cells are the same. -/
theorem Holds.ext {s' : Scratch F} {env' : Location → Cell F} (h : s.Holds n p env)
    (h' : s'.Holds n p env') (hn : n ≤ UInt32.size)
    (henv : ∀ loc : Location, loc.toNat < n → env loc = env' loc) : s = s' := by
  have hloc : ∀ j < n, (j.toUInt32).toNat = j := by
    intro j hj
    exact UInt32.toNat_ofNat_of_lt' (Nat.lt_of_lt_of_le hj hn)
  have hvalues : s.values = s'.values := by
    refine Array.ext_getElem? fun j => ?_
    by_cases hj : j < n
    · have hl := hloc j hj
      have hv := h.value j.toUInt32 (by omega)
      have hv' := h'.value j.toUInt32 (by omega)
      unfold value? at hv hv'
      rw [hl] at hv hv'
      rw [hv, hv', henv _ (by omega)]
    · rw [Array.getElem?_eq_none (by rw [h.size_values]; omega),
        Array.getElem?_eq_none (by rw [h'.size_values]; omega)]
  have htangents : s.tangents = s'.tangents := by
    refine Array.ext_getElem? fun j => ?_
    by_cases hj : j < n * p
    · -- cell `j` is component `j % p` of the row of location `j / p`
      have hp : 0 < p := by
        rcases Nat.eq_zero_or_pos p with rfl | hp
        · omega
        · exact hp
      have hi : j / p < n := Nat.div_lt_of_lt_mul (by rwa [Nat.mul_comm] at hj)
      have hl := hloc (j / p) hi
      have hr := h.row (j / p).toUInt32 (by omega)
      have hr' := h'.row (j / p).toUInt32 (by omega)
      unfold directionRow? at hr hr'
      rw [slice?_eq_some_iff, hl, h.width] at hr
      rw [slice?_eq_some_iff, hl, h'.width] at hr'
      have hmod := Nat.mod_lt j hp
      have hsplit : j / p * p + j % p = j := Nat.div_add_mod' j p
      have hc := hr.2.2 (j % p) hmod
      have hc' := hr'.2.2 (j % p) hmod
      rw [hsplit] at hc hc'
      rw [← hc, ← hc', henv _ (by omega)]
    · rw [Array.getElem?_eq_none (by rw [h.size_tangents]; omega),
        Array.getElem?_eq_none (by rw [h'.size_tangents]; omega)]
  cases s
  cases s'
  simp only [mk.injEq]
  exact ⟨h.width.trans h'.width.symm, hvalues, htangents⟩

end Scratch

end DiffTape
