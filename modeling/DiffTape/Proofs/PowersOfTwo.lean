/-
  SCALING BY POWERS OF TWO IS EXACT WHERE IT CAN BE.

  1. `isPower_powi`      — the powers of two that are multiplied by are exact: squaring and
                           multiplying stay within the format, and so does a reciprocal.
  2. `InFormat.between`  — if `q` and `q · 2 ^ e` are in the format, so is everything in between.
  3. `takeStrides_exact` — so no stride on the way from `x` to a result in the format rounds,
  4. `scalePow2_exact`   — and neither does the last factor.
-/
import DiffTape.Scaling
import DiffTape.Proofs.Rounding

namespace DiffTape

open Binary
open Scalar (two powi powLoop)
open Float.Model (Format)
open Float.Model.UnpackedFloat (Sign)

/-! ## Between two numbers of the format -/

theorem abs_mul_two_zpow (q : ℚ) (i : ℤ) : |q * 2 ^ i| = |q| * 2 ^ i := by
  rw [abs_mul, abs_of_pos (by positivity : (0 : ℚ) < 2 ^ i)]

namespace Binary

variable {fmt : Format} {q : ℚ} {e j : ℤ}

/-- Multiplying by a power of two moves the bits to the left, where there is always a place for
    them. -/
theorem OnGrid.scale_up (h : OnGrid fmt q) (hj : 0 ≤ j) : OnGrid fmt (q * 2 ^ j) := by
  obtain ⟨k, u, hk, hu, hgrid⟩ := h
  refine ⟨k, u + j, hk, by omega, ?_⟩
  rw [abs_mul_two_zpow, hgrid, zpow_add₀ two_ne_zero, mul_assoc]

/-- A grid that is fine enough for `q · 2 ^ e` is fine enough for what is larger. -/
theorem InFormat.between (h : InFormat fmt q) (he : InFormat fmt (q * 2 ^ e))
    (hj : 0 ≤ j ∧ j ≤ e ∨ e ≤ j ∧ j ≤ 0) : InFormat fmt (q * 2 ^ j) := by
  rcases hj with ⟨hzero, hle⟩ | ⟨hle, hzero⟩
  · refine ⟨h.grid.scale_up hzero, lt_of_le_of_lt ?_ he.range⟩
    rw [abs_mul_two_zpow, abs_mul_two_zpow]
    exact mul_le_mul_of_nonneg_left (zpow_le_zpow_right₀ one_le_two hle) (abs_nonneg q)
  · refine ⟨?_, lt_of_le_of_lt ?_ h.range⟩
    · have hgrid := he.grid.scale_up (sub_nonneg.mpr hle)
      rwa [mul_assoc, ← zpow_add₀ two_ne_zero, add_sub_cancel] at hgrid
    · rw [abs_mul_two_zpow]
      exact mul_le_of_le_one_right (abs_nonneg q) (zpow_le_one_of_nonpos₀ one_le_two hzero)

end Binary

/-! ## Powers of two -/

namespace Width

variable {w : Width} {x y : w.Number} {j k : ℤ}

theorem minExponent_le (w : Width) : w.format.minExponent ≤ -149 := by
  cases w <;> decide

theorem le_maxExponent (w : Width) : 104 ≤ maxExponent w.format := by
  cases w <;> decide

/-- The number is `2 ^ k`. -/
structure IsPower (w : Width) (x : w.Number) (k : ℤ) : Prop where
  finite : Scalar.isFinite x = true
  value : w.value x = 2 ^ k

/-- A positive value excludes the zeros, whose sign it would not tell. -/
theorem sign_of_value_pos (h : 0 < w.value x) : w.sign x = .positive := by
  have hsign := value_eq x
  cases hs : w.sign x with
  | positive => rfl
  | negative =>
    rw [hs, factor, abs_of_pos h] at hsign
    linarith

theorem IsPower.sign (h : w.IsPower x k) : w.sign x = .positive :=
  sign_of_value_pos (by rw [h.value]; positivity)

/-- A number with the least mantissa that has its leading bit is a power of two. -/
theorem isPower_of_unpack {m : ℕ} {e : ℤ} (hm : 0 < m) (hx : w.unpack x = .finite .positive m e hm)
    (hpow : (m : ℚ) * 2 ^ e = 2 ^ k) : w.IsPower x k := by
  refine ⟨by rw [isFinite_eq, hx]; rfl, ?_⟩
  unfold Width.value
  rw [hx, value_positive, hpow]

/-- The two numbers that powers are computed from. -/
theorem isPower_one (w : Width) : w.IsPower 1 0 := by
  cases w with
  | single => exact isPower_of_unpack (m := 2 ^ 23) (e := -23) (by decide) rfl (by norm_num)
  | double => exact isPower_of_unpack (m := 2 ^ 52) (e := -52) (by decide) rfl (by norm_num)

theorem isPower_two (w : Width) : w.IsPower two 1 := by
  cases w with
  | single => exact isPower_of_unpack (m := 2 ^ 23) (e := -22) (by decide) rfl (by norm_num)
  | double => exact isPower_of_unpack (m := 2 ^ 52) (e := -51) (by decide) rfl (by norm_num)

/-- The powers of two that every width has. -/
theorem inFormat_two_zpow (hmin : -64 ≤ k) (hmax : k ≤ 64) : InFormat w.format (2 ^ k) := by
  have hk : |(2 : ℚ) ^ k| = 2 ^ k := abs_of_pos (by positivity)
  have hleast := w.minExponent_le
  have htop := w.le_maxExponent
  refine ⟨⟨1, k, Nat.one_lt_two_pow (by unfold Format.mantissaBits; omega), by omega, ?_⟩, ?_⟩
  · rw [hk, Nat.cast_one, one_mul]
  · rw [hk]
    calc (2 : ℚ) ^ k ≤ 2 ^ maxExponent w.format := zpow_le_zpow_right₀ one_le_two (by omega)
      _ < 2 ^ w.format.mantissaBits * 2 ^ maxExponent w.format := by
        refine lt_mul_of_one_lt_left (by positivity) (one_lt_pow₀ one_lt_two ?_)
        unfold Format.mantissaBits
        omega

/-- A product of powers is exact as long as its exponent is small: the power is in the format. -/
theorem IsPower.mul (hx : w.IsPower x j) (hy : w.IsPower y k) (hmin : -64 ≤ j + k)
    (hmax : j + k ≤ 64) : w.IsPower (x * y) (j + k) := by
  have hpow : w.value x * w.value y = 2 ^ (j + k) := by
    rw [hx.value, hy.value, zpow_add₀ two_ne_zero]
  have hmul := (computes_mul hx.finite hy.finite).value_of_inFormat
    (by rw [hpow]; exact inFormat_two_zpow hmin hmax)
  exact ⟨hmul.1, hmul.2.trans hpow⟩

theorem IsPower.one_div (hy : w.IsPower y k) (hmin : -64 ≤ k) (hmax : k ≤ 64) :
    w.IsPower (1 / y) (-k) := by
  have hpow : w.value 1 / w.value y = 2 ^ (-k) := by
    rw [(isPower_one w).value, hy.value, zpow_zero, zpow_neg, inv_eq_one_div]
  have hne : w.value y ≠ 0 := by
    rw [hy.value]
    positivity
  have hdiv := (computes_div (isPower_one w).finite hy.finite hne).value_of_inFormat
    (by rw [hpow]; exact inFormat_two_zpow (by omega) (by omega))
  exact ⟨hdiv.1, hdiv.2.trans hpow⟩

/-- The loop over the bits of the exponent.  It squares the base only if there is another bit, so
    the squares stay below the power that is computed. -/
theorem isPower_powLoop (p : ℕ) {i j : ℕ} {m a : w.Number} (hm : w.IsPower m i)
    (ha : w.IsPower a j) (hmax : i + j * p ≤ 64) : w.IsPower (powLoop m a p) (i + j * p : ℕ) := by
  induction p using Nat.strong_induction_on generalizing i j m a with
  | _ p ih =>
    have hbits : p = 2 * (p / 2) + p % 2 := (Nat.div_add_mod p 2).symm
    -- the factor of the lowest bit
    have hfactor : w.IsPower (if p % 2 = 1 then m * a else m) (i + j * (p % 2) : ℕ) := by
      rcases Nat.mod_two_eq_zero_or_one p with hbit | hbit
      · rw [hbit, if_neg (by decide), Nat.mul_zero, Nat.add_zero]
        exact hm
      · have hle : i + j ≤ 64 := by
          have : j * 1 ≤ j * p := Nat.mul_le_mul_left j (by omega)
          omega
        rw [hbit, if_pos rfl, Nat.mul_one, Nat.cast_add]
        exact hm.mul ha (by omega) (by exact_mod_cast hle)
    have hexp : i + j * (p % 2) + (j + j) * (p / 2) = i + j * p := by
      conv_rhs => rw [hbits]
      ring
    rw [powLoop]
    by_cases hlast : p / 2 = 0
    · rw [if_pos hlast]
      rw [hlast, Nat.mul_zero, Nat.add_zero] at hexp
      rw [← hexp]
      exact hfactor
    · have hsquare : w.IsPower (a * a) (j + j : ℕ) := by
        have hle : (j + j) * 1 ≤ (j + j) * (p / 2) := Nat.mul_le_mul_left _ (by omega)
        rw [Nat.cast_add]
        exact ha.mul ha (by omega) (by omega)
      rw [if_neg hlast, ← hexp]
      exact ih (p / 2) (by omega) hfactor hsquare (by omega)

/-- The powers that are multiplied by when scaling. -/
theorem isPower_powi (w : Width) (hk : k.natAbs ≤ 64) : w.IsPower (powi two k) k := by
  have hpow : w.IsPower (powLoop 1 two k.natAbs) k.natAbs := by
    have hloop := isPower_powLoop (i := 0) (j := 1) k.natAbs (isPower_one w) (isPower_two w)
      (by omega)
    rwa [Nat.zero_add, Nat.one_mul] at hloop
  unfold powi
  by_cases hneg : k < 0
  · have hdiv := hpow.one_div (by omega) (by omega)
    rw [if_pos hneg]
    rwa [show -(k.natAbs : ℤ) = k by omega] at hdiv
  · rw [if_neg hneg]
    rwa [show (k.natAbs : ℤ) = k by omega] at hpow

/-- The strides of scaling are powers that every width has. -/
theorem isPower_strideUp (w : Width) : w.IsPower strideUp 64 := w.isPower_powi (by decide)

theorem isPower_strideDown (w : Width) : w.IsPower strideDown (-64) :=
  w.isPower_strideUp.one_div (by decide) (by decide)

/-! ## Scaling -/

/-- A product with a power of two has the sign of the other factor. -/
theorem IsPower.sign_mul (hy : w.IsPower y k) (hx : Scalar.isFinite x = true) :
    w.sign (x * y) = w.sign x := by
  rw [(computes_mul hx hy.finite).sign_eq, hy.sign]
  cases w.sign x <;> rfl

/-- What is scaled at all: finite numbers other than zero. -/
theorem canScale_iff : canScale x = true ↔ Scalar.isFinite x = true ∧ w.value x ≠ 0 := by
  unfold canScale
  rw [Bool.and_eq_true, and_comm]
  refine and_congr_right fun hx => ?_
  show (!(x == 0)) = true ↔ _
  rw [Bool.not_eq_true', ← Bool.not_eq_true, beq_iff_value hx isFinite_zero, value_zero]

/-- A product with a power of two that is in the format. -/
theorem mul_isPower_exact (hx : Scalar.isFinite x = true) (hy : w.IsPower y k)
    (h : InFormat w.format (w.value x * 2 ^ k)) :
    Scalar.isFinite (x * y) = true ∧ w.value (x * y) = w.value x * 2 ^ k ∧
      w.sign (x * y) = w.sign x := by
  rw [← hy.value] at h ⊢
  obtain ⟨hfinite, hvalue⟩ := (computes_mul hx hy.finite).value_of_inFormat h
  exact ⟨hfinite, hvalue, hy.sign_mul hx⟩

/-- No stride on the way to a result in the format rounds. -/
theorem takeStrides_exact (e : ℤ) (hx : Scalar.isFinite x = true)
    (he : InFormat w.format (w.value x * 2 ^ e)) :
    Scalar.isFinite (takeStrides x e).1 = true ∧
      w.value (takeStrides x e).1 * 2 ^ (takeStrides x e).2 = w.value x * 2 ^ e ∧
      w.sign (takeStrides x e).1 = w.sign x ∧
      (w.value (takeStrides x e).1 = 0 ∨ (takeStrides x e).2.natAbs ≤ 64) := by
  have hself := inFormat_value w x
  induction x, e using takeStrides.induct with
  | case1 x e hup ih =>
    have hlarge : 64 < e := hup.1
    obtain ⟨hfinite, hvalue, hsign⟩ := mul_isPower_exact hx w.isPower_strideUp
      (hself.between he (Or.inl ⟨by decide, by omega⟩))
    have hrest : w.value (x * strideUp) * 2 ^ (e - scaleStride) = w.value x * 2 ^ e := by
      rw [hvalue, mul_assoc, ← zpow_add₀ two_ne_zero, scaleStride, add_sub_cancel]
    rw [takeStrides, if_pos hup, ← hrest, ← hsign]
    exact ih hfinite (hrest ▸ he) (inFormat_value w _)
  | case2 x e hup hdown ih =>
    have hlarge : e < -64 := hdown.1
    obtain ⟨hfinite, hvalue, hsign⟩ := mul_isPower_exact hx w.isPower_strideDown
      (hself.between he (Or.inr ⟨by omega, by decide⟩))
    have hrest : w.value (x * strideDown) * 2 ^ (e + scaleStride) = w.value x * 2 ^ e := by
      rw [hvalue, mul_assoc, ← zpow_add₀ two_ne_zero, scaleStride]
      congr 2
      omega
    rw [takeStrides, if_neg hup, if_pos hdown, ← hrest, ← hsign]
    exact ih hfinite (hrest ▸ he) (inFormat_value w _)
  | case3 x e hup hdown =>
    rw [takeStrides, if_neg hup, if_neg hdown]
    refine ⟨hx, rfl, rfl, ?_⟩
    by_cases hzero : w.value x = 0
    · exact Or.inl hzero
    · have hscale : canScale x = true := canScale_iff.mpr ⟨hx, hzero⟩
      have hup' : ¬ 64 < e := fun h => hup ⟨h, hscale⟩
      have hdown' : ¬ e < -64 := fun h => hdown ⟨h, hscale⟩
      right
      omega

/-- If `x · 2 ^ e` is a number of the format, then that is what scaling gives. -/
theorem scalePow2_exact {e : ℤ} (hx : Scalar.isFinite x = true)
    (he : InFormat w.format (w.value x * 2 ^ e)) :
    Scalar.isFinite (scalePow2 x e) = true ∧ w.value (scalePow2 x e) = w.value x * 2 ^ e ∧
      w.sign (scalePow2 x e) = w.sign x := by
  obtain ⟨hfinite, hvalue, hsign, hend⟩ := takeStrides_exact e hx he
  unfold scalePow2
  generalize takeStrides x e = r at hfinite hvalue hsign hend
  obtain ⟨y, k⟩ := r
  dsimp only at hfinite hvalue hsign hend ⊢
  by_cases hlarge : scaleStride < k.natAbs
  · have hrest : (64 : ℤ) < k.natAbs := hlarge
    have hzero : w.value y = 0 := hend.resolve_right (by omega)
    rw [if_pos hlarge, ← hvalue, hzero, zero_mul]
    exact ⟨hfinite, rfl, hsign⟩
  · have hrest : ¬ (64 : ℤ) < k.natAbs := hlarge
    rw [if_neg hlarge, ← hvalue, ← hsign]
    exact mul_isPower_exact hfinite (w.isPower_powi (by omega)) (hvalue ▸ he)

/-! ## Where scaling changes nothing -/

/-- The parts of a power of two: its mantissa is the leading bit alone. -/
theorem IsPower.unpack (hy : w.IsPower y k) :
    ∃ m e hm, w.unpack y = .finite .positive m e hm := by
  have hsign : Binary.sign (w.unpack y) = .positive := hy.sign
  have hvalue : Binary.value (w.unpack y) ≠ 0 := by
    show w.value y ≠ 0
    rw [hy.value]
    positivity
  generalize w.unpack y = u at hsign hvalue
  cases u with
  | finite s m e hm =>
    obtain rfl : s = .positive := hsign
    exact ⟨m, e, hm, rfl⟩
  | _ => exact absurd rfl hvalue

/-- A zero, an infinity or a NaN, times a power of two. -/
theorem mul_isPower_of_not_canScale (hx : canScale x = false) (hy : w.IsPower y k) :
    x * y = x := by
  by_cases hfinite : Scalar.isFinite x = true
  · have hzero : w.value x = 0 := by
      by_contra hne
      rw [canScale_iff.mpr ⟨hfinite, hne⟩] at hx
      cases hx
    have hexact : InFormat w.format (w.value x * 2 ^ k) := by
      rw [hzero, zero_mul, ← hzero]
      exact inFormat_value w x
    obtain ⟨hprod, hvalue, hsign⟩ := mul_isPower_exact hfinite hy hexact
    exact eq_of_value hprod hfinite (by rw [hvalue, hzero, zero_mul]) hsign
  · obtain ⟨m, e, hm, hpower⟩ := hy.unpack
    rw [isFinite_eq] at hfinite
    refine w.unpack_injective ?_
    have hmul : Float.Model.UnpackedFloat.mul w.format (w.unpack x) (w.unpack y) = w.unpack x := by
      rw [hpower]
      generalize w.unpack x = u at hfinite
      cases u with
      | notANumber => rfl
      | infinity s => cases s <;> rfl
      | zero s => exact absurd rfl hfinite
      | finite => exact absurd rfl hfinite
    rw [unpack_mul (by rw [hmul]; exact canonical_unpack x), hmul,
      settle_of_inRange (inRange_unpack x)]

/-- Zeros, infinities and NaN are not changed by scaling. -/
theorem scalePow2_of_not_canScale (hx : canScale x = false) (e : ℤ) : scalePow2 x e = x := by
  have hstop : ∀ p : Prop, ¬ (p ∧ canScale x = true) := fun p h =>
    Bool.false_ne_true (hx.symm.trans h.2)
  have hstrides : takeStrides x e = (x, e) := by
    rw [takeStrides, if_neg (hstop _), if_neg (hstop _)]
  unfold scalePow2
  rw [hstrides]
  dsimp only
  split_ifs with hlarge
  · rfl
  · have hrest : ¬ (64 : ℤ) < e.natAbs := hlarge
    exact mul_isPower_of_not_canScale hx (w.isPower_powi (by omega))

end Width

end DiffTape
