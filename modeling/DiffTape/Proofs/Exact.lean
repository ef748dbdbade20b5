/-
  NUMBERS THAT ARE EXACT.

  The catalog is written for numbers without laws.  What its formulas MEAN is seen over a field,
  where nothing is rounded and nothing overflows: `exactScalar` gives a field the operations of a
  `Scalar`.  An order, a magnitude and an integer part are not settled by the arithmetic of a
  field, so they come from a `Gauge`, about which nothing is assumed; in an ordered field the order
  and the magnitude are those of the field.

  Over a field the two loops of the library are what they are named after:

  1. `powi_eq`      — squaring and multiplying is the integer power.  The loop keeps `m · a ^ p`.
  2. `scalePow2_eq` — scaling by strides is the product with `2 ^ e`.  A stride keeps `x · 2 ^ e`,
                      and the strides end early at zero only, where the product is zero anyway.

  A quotient by zero is zero in a field of Mathlib, and so is the inverse of zero.  The formulas
  below hold there too, and need no hypothesis about divisors.
-/
import Mathlib.Algebra.CharZero.Defs
import Mathlib.Algebra.Field.Basic
import Mathlib.Algebra.Order.Field.Basic
import Mathlib.Tactic.IntervalCases
import DiffTape.Proofs.Pass

namespace DiffTape

open Scalar

/-- A power of a field by the magnitude of its exponent. -/
theorem zpow_eq_ite {K : Type} [Field K] (a : K) (n : Int) :
    a ^ n = if n < 0 then (a ^ n.natAbs)⁻¹ else a ^ n.natAbs := by
  by_cases hn : n < 0
  · have hneg : n = -(n.natAbs : Int) := by omega
    rw [if_pos hn]
    conv_lhs => rw [hneg, zpow_neg, zpow_natCast]
  · have hpos : n = (n.natAbs : Int) := by omega
    rw [if_neg hn]
    conv_lhs => rw [hpos, zpow_natCast]

/-- The `k`-th component of the row of an operand is `u`.  Without a row it is zero. -/
def HasComponent {K : Type} [Field K] (k : Nat) (row : Option (Array K)) (u : K) : Prop :=
  match row with
  | none => u = 0
  | some row => row[k]? = some u

/-! ## The scalar operations of a field -/

/-- What of a scalar the arithmetic of a field does not settle. -/
class Gauge (K : Type) where
  lt : K → K → Prop
  decLt : DecidableRel lt
  abs : K → K
  floorInt? : K → Option Int

/-- No elementary functions: each of them is zero.  They stand in where a tape uses none. -/
abbrev Elementary.absent (K : Type) [Zero K] : Elementary K where
  exp _ := 0
  ln _ := 0
  log10 _ := 0
  log2 _ := 0
  sqrt _ := 0
  sin _ := 0
  cos _ := 0
  tan _ := 0
  asin _ := 0
  acos _ := 0
  atan _ := 0
  atan2 _ _ := 0
  sinh _ := 0
  cosh _ := 0
  tanh _ := 0
  asinh _ := 0
  acosh _ := 0
  atanh _ := 0
  pow _ _ := 0
  ln10 := 0

/-- The numbers of a field: each operation is that of the field, and every number is finite. -/
instance exactScalar {K : Type} [Field K] [DecidableEq K] [Gauge K] :
    Scalar K where
  toZero := inferInstance
  toOne := inferInstance
  toAdd := inferInstance
  toSub := inferInstance
  toMul := inferInstance
  toDiv := inferInstance
  toNeg := inferInstance
  beq a b := decide (a = b)
  lt := Gauge.lt
  decLt := Gauge.decLt
  abs := Gauge.abs
  isFinite _ := true
  isNaN _ := false
  ofInt := Int.cast
  floorInt? := Gauge.floorInt?

section Field

variable {K : Type} [Field K] [DecidableEq K] [Gauge K]

theorem two_eq : (two : K) = 2 := one_add_one_eq_two

theorem beq_zero_iff {x : K} : (x == 0) = true ↔ x = 0 := decide_eq_true_iff

/-- Only zero cannot be scaled. -/
theorem canScale_iff {x : K} : canScale x = true ↔ x ≠ 0 := by
  have hfinite : isFinite x = true := rfl
  unfold canScale
  rw [hfinite, Bool.and_true, bne, Bool.not_eq_true', ← Bool.not_eq_true, beq_zero_iff]

/-! ## Integer powers -/

/-- The loop of a power keeps `m · a ^ p`. -/
theorem powLoop_eq (m a : K) (p : Nat) : powLoop m a p = m * a ^ p := by
  induction p using Nat.strongRecOn generalizing m a with
  | _ p ih =>
    rw [powLoop]
    by_cases hlast : p / 2 = 0
    · -- the last bit
      rw [if_pos hlast]
      have hp : p < 2 := by omega
      interval_cases p
      · simp
      · simp
    · rw [if_neg hlast, ih (p / 2) (by omega), ← pow_two, ← pow_mul]
      rcases Nat.mod_two_eq_zero_or_one p with hbit | hbit
      · have hp : 2 * (p / 2) = p := by omega
        rw [if_neg (by omega), hp]
      · have hp : 2 * (p / 2) + 1 = p := by omega
        rw [if_pos hbit, mul_assoc, ← pow_succ', hp]

/-- An integer power is that of the field. -/
theorem powi_eq (a : K) (n : Int) : powi a n = a ^ n := by
  unfold powi
  rw [powLoop_eq, one_mul, one_div, zpow_eq_ite]

/-! ## Powers of two -/

/-- A stride is exact in a field, as is its reciprocal. -/
theorem strideUp_eq : (strideUp : K) = 2 ^ scaleStride := by
  unfold strideUp
  rw [powi_eq, two_eq]

theorem strideDown_eq : (strideDown : K) = 2 ^ (-scaleStride) := by
  unfold strideDown
  rw [strideUp_eq, one_div, zpow_neg]

variable [CharZero K]

/-- Strides keep the product of value and power.  They leave more than one stride at zero only. -/
theorem takeStrides_spec (x : K) (e : Int) :
    (takeStrides x e).1 * 2 ^ (takeStrides x e).2 = x * 2 ^ e ∧
      ((takeStrides x e).1 = 0 ∨ (takeStrides x e).2.natAbs ≤ scaleStride) := by
  have two_ne : (2 : K) ≠ 0 := OfNat.ofNat_ne_zero 2
  induction x, e using takeStrides.induct with
  | case1 x e hup ih =>
    -- what the stride multiplies by is what the exponent loses
    rw [takeStrides, if_pos hup]
    refine ⟨?_, ih.2⟩
    rw [ih.1, strideUp_eq, mul_assoc, ← zpow_add₀ two_ne]
    congr 2
    omega
  | case2 x e hup hdown ih =>
    rw [takeStrides, if_neg hup, if_pos hdown]
    refine ⟨?_, ih.2⟩
    rw [ih.1, strideDown_eq, mul_assoc, ← zpow_add₀ two_ne]
    congr 2
    omega
  | case3 x e hup hdown =>
    -- no stride was taken: the number cannot be scaled, or the exponent is small
    rw [takeStrides, if_neg hup, if_neg hdown]
    refine ⟨rfl, ?_⟩
    rw [canScale_iff] at hup hdown
    by_cases hx : x = 0
    · exact Or.inl hx
    · right
      have hup' : ¬ scaleStride < e := fun h => hup ⟨h, hx⟩
      have hdown' : ¬ e < -scaleStride := fun h => hdown ⟨h, hx⟩
      show (e.natAbs : Int) ≤ scaleStride
      omega

/-- Scaling is the product with the power of two. -/
theorem scalePow2_eq (x : K) (e : Int) : scalePow2 x e = x * 2 ^ e := by
  obtain ⟨hkeep, hend⟩ := takeStrides_spec x e
  unfold scalePow2
  generalize takeStrides x e = rest at hkeep hend ⊢
  obtain ⟨x', e'⟩ := rest
  show (if scaleStride < e'.natAbs then x' else x' * powi two e') = x * 2 ^ e
  rw [← hkeep, powi_eq, two_eq]
  by_cases hmore : scaleStride < e'.natAbs
  · -- what is left of the power is dropped, and zero does not need it
    have hzero : x' = 0 := hend.resolve_right (not_le.mpr hmore)
    rw [if_pos hmore]
    show x' = x' * 2 ^ e'
    rw [hzero, zero_mul]
  · rw [if_neg hmore]

/-! ## Rows

  The combination of rows leaves out the term of an operand that has no row.  In a field this is
  the same as a term that is zero. -/

omit [CharZero K] in
/-- Component by component, a row is the combination of those of the operands. -/
theorem getElem?_combineRows {p k : Nat} (hk : k < p) {rowA rowB : Option (Array K)} {u v : K}
    (hA : HasComponent k rowA u) (hB : HasComponent k rowB v) (da db : K) :
    (combineRows p (rowA.map (da, ·)) (rowB.map (db, ·)))[k]? = some (da * u + db * v) := by
  cases rowA with
  | none =>
    have hu : u = 0 := hA
    subst hu
    cases rowB with
    | none =>
      have hv : v = 0 := hB
      subst hv
      show (Array.replicate p (0 : K))[k]? = some (da * 0 + db * 0)
      rw [Array.getElem?_replicate, if_pos hk, mul_zero, mul_zero, add_zero]
    | some b =>
      have hb : b[k]? = some v := hB
      show (b.map (db * ·))[k]? = some (da * 0 + db * v)
      rw [Array.getElem?_map, hb, Option.map_some, mul_zero, zero_add]
  | some a =>
    have ha : a[k]? = some u := hA
    cases rowB with
    | none =>
      have hv : v = 0 := hB
      subst hv
      show (a.map (da * ·))[k]? = some (da * u + db * 0)
      rw [Array.getElem?_map, ha, Option.map_some, mul_zero, add_zero]
    | some b =>
      have hb : b[k]? = some v := hB
      show (Array.zipWith (fun xa xb => da * xa + db * xb) a b)[k]? = _
      rw [Array.getElem?_zipWith, ha, hb]

end Field

/-! ## Ordered fields -/

/-- A choice of integer parts.  They are all that an ordered field is still missing. -/
class IntegerPart (K : Type) where
  floorInt? : K → Option Int

instance orderGauge {K : Type} [Field K] [LinearOrder K] [IntegerPart K] :
    Gauge K where
  lt := (· < ·)
  decLt := inferInstance
  abs a := |a|
  floorInt? := IntegerPart.floorInt?

instance : IntegerPart ℚ := ⟨fun q => some q.floor⟩

section Ordered

variable {K : Type} [Field K] [LinearOrder K] [IntegerPart K]

/-- Away from zero the branch is the sign. -/
theorem branch_of_pos {a : K} (h : 0 < a) : Branch.of a = .positive := if_pos h

theorem branch_of_neg [IsStrictOrderedRing K] {a : K} (h : a < 0) : Branch.of a = .negative :=
  (if_neg (not_lt.mpr h.le)).trans (if_pos h)

end Ordered

end DiffTape
