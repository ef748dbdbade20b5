/-
  SCALING INTO THE SUBNORMAL NUMBERS.

  Below the normal numbers there are fewer bits, and a product with a power of two is rounded.  A
  single multiplication rounds once.  When the exponent is larger than a stride there are several
  of them, and two of them can round: the stride that enters the subnormal numbers, and the last
  factor.

  1. `RoundsBelow.stride`      — a stride that comes after one that has rounded gives zero, so all
                                 the strides together round once;
  2. `RoundsBelow.before_last` — before the last factor there is the exact product, rounded;
  3. `scalePow2_subnormal`     — so scaling rounds at most twice, and once if the strides are exact.
  4. `scalePow2_not_nearest`   — two roundings are not one: the result need not be the nearest number.
-/
import DiffTape.Proofs.PowersOfTwo

namespace DiffTape

open Binary
open Scalar (two powi)
open Float.Model (Format)
open Float.Model.UnpackedFloat (Sign)

/-- The exponent of the factor that is left over when all strides have been taken. -/
def lastFactor (e : ℤ) : ℤ := e.sign * ((e.natAbs - 1) % 64 + 1)

theorem lastFactor_of_neg {e : ℤ} (he : e < 0) : lastFactor e = -((-e - 1) % 64 + 1) := by
  unfold lastFactor
  rw [Int.sign_eq_neg_one_of_neg he]
  omega

/-! ## What is below the normal numbers -/

namespace Binary

variable {fmt : Format} {q : ℚ} {j : ℤ}

/-- The least normal number. -/
def leastNormal (fmt : Format) : ℚ := 2 ^ fmt.mantissaBitsWithoutImplicit * 2 ^ fmt.minExponent

/-- Scaled down, a number of the format stays in the format or falls below the normal numbers. -/
theorem InFormat.scale_down (h : InFormat fmt q) (hj : j ≤ 0) :
    InFormat fmt (q * 2 ^ j) ∨ |q * 2 ^ j| < leastNormal fmt := by
  obtain ⟨k, u, hk, hu, hgrid⟩ := h.grid
  have hscaled : |q * 2 ^ j| = k * 2 ^ (u + j) := by
    rw [abs_mul_two_zpow, hgrid, zpow_add₀ two_ne_zero, mul_assoc]
  by_cases hplace : fmt.minExponent ≤ u + j
  · refine Or.inl ⟨⟨k, u + j, hk, hplace, hscaled⟩, lt_of_le_of_lt ?_ h.range⟩
    rw [abs_mul_two_zpow]
    exact mul_le_of_le_one_right (abs_nonneg q) (zpow_le_one_of_nonpos₀ one_le_two hj)
  · right
    have hmant : (k : ℚ) < 2 ^ fmt.mantissaBits := by exact_mod_cast hk
    calc |q * 2 ^ j| = k * 2 ^ (u + j) := hscaled
      _ < 2 ^ fmt.mantissaBits * 2 ^ (u + j) := mul_lt_mul_of_pos_right hmant (by positivity)
      _ = 2 ^ fmt.mantissaBitsWithoutImplicit * 2 ^ (u + j + 1) := two_pow_mul_zpow fmt _
      _ ≤ leastNormal fmt := mul_le_mul_of_nonneg_left
          (zpow_le_zpow_right₀ one_le_two (by omega)) (by positivity)

/-- Rounding something small keeps it in range, and is off by half a unit at most. -/
theorem Rounds.of_small {n : ℕ} {t : ℤ} (h : Rounds fmt q n t) (hq : 0 ≤ q)
    (hsmall : q < leastNormal fmt) :
    (n : ℚ) * 2 ^ t < 2 ^ fmt.mantissaBits * 2 ^ fmt.minExponent ∧
      |n * 2 ^ t - q| ≤ 1 / 2 * 2 ^ fmt.minExponent := by
  have hplace : t = fmt.minExponent := by
    refine h.lead.resolve_right fun hlead => absurd hsmall (not_lt.mpr ?_)
    rw [le_div_iff₀ (by positivity)] at hlead
    exact le_trans (mul_le_mul_of_nonneg_left
      (zpow_le_zpow_right₀ one_le_two h.least) (by positivity)) hlead
  subst hplace
  have hzero := h.le (k := 0) (Nat.two_pow_pos _) le_rfl
  rw [Nat.cast_zero, zero_mul, sub_zero, abs_of_nonneg hq] at hzero
  refine ⟨?_, ?_⟩
  · have hdouble : (2 : ℚ) ^ fmt.mantissaBits * 2 ^ fmt.minExponent = 2 * leastNormal fmt := by
      rw [two_pow_mul_zpow, zpow_add_one₀ two_ne_zero, leastNormal]
      ring
    rw [hdouble]
    linarith [(abs_le.mp hzero).1]
  · rw [abs_sub_comm, Rounds.abs_sub_unit]
    exact mul_le_mul_of_nonneg_right h.nearest.1 (by positivity)

end Binary

namespace Width

variable {w : Width} {x y c : w.Number} {q : ℚ} {e j : ℤ}

/-- `y` is `q`, rounded to the nearest number, and nothing has been lost but what is below the least
    exponent. -/
structure RoundsBelow (w : Width) (q : ℚ) (y : w.Number) : Prop where
  roundsTo : w.RoundsTo q y
  error : |w.value y - q| ≤ 1 / 2 * 2 ^ w.format.minExponent
  exact : InFormat w.format q → w.value y = q
  below : InFormat w.format q ∨ |q| < leastNormal w.format

theorem Computes.isFinite_of_small {s : Sign} (h : w.Computes q s y)
    (hq : |q| < leastNormal w.format) : Scalar.isFinite y = true := by
  obtain ⟨n, t, hrounds, hy⟩ := h.rounded
  have hrange : InRange w.format (assemble w.format s n t) := by
    rw [inRange_iff w.minExponent_le_maxExponent (canonical_assemble _ hrounds),
      value_assemble s hrounds.le_two_pow, abs_factor_mul, abs_of_nonneg (by positivity)]
    refine lt_of_lt_of_le (hrounds.of_small (abs_nonneg q) hq).1 ?_
    exact mul_le_mul_of_nonneg_left
      (zpow_le_zpow_right₀ one_le_two w.minExponent_le_maxExponent) (by positivity)
  rw [isFinite_eq, hy, settle_of_inRange hrange]
  exact isFinite_assemble s w.format n t

theorem Computes.roundsBelow {s : Sign} (h : w.Computes q s y)
    (hq : InFormat w.format q ∨ |q| < leastNormal w.format) : w.RoundsBelow q y := by
  rcases hq with hformat | hsmall
  · obtain ⟨hfinite, hvalue⟩ := h.value_of_inFormat hformat
    refine ⟨h.roundsTo hfinite, ?_, fun _ => hvalue, Or.inl hformat⟩
    rw [hvalue, sub_self, abs_zero]
    positivity
  · have hfinite := h.isFinite_of_small hsmall
    refine ⟨h.roundsTo hfinite, ?_, fun hformat => (h.value_of_inFormat hformat).2, Or.inr hsmall⟩
    obtain ⟨n, t, hrounds, -, hvalue⟩ := h.value_eq_of_finite hfinite
    rw [hvalue, h.abs_sub_eq]
    exact (hrounds.of_small (abs_nonneg q) hsmall).2

/-- A factor that is not more than one. -/
theorem IsPower.roundsBelow (hc : w.IsPower c j) (hx : Scalar.isFinite x = true) (hj : j ≤ 0) :
    w.RoundsBelow (w.value x * 2 ^ j) (x * c) := by
  have hmul := computes_mul hx hc.finite
  rw [hc.value] at hmul
  exact hmul.roundsBelow ((inFormat_value w x).scale_down hj)

/-- Less than half of the least number is rounded to zero. -/
theorem roundsBelow_zero (hy : Scalar.isFinite y = true) (hzero : w.value y = 0)
    (hq : |q| < 1 / 2 * 2 ^ w.format.minExponent) : w.RoundsBelow q y := by
  have hpos : (0 : ℚ) < 2 ^ w.format.minExponent := by positivity
  have hself : |w.value y - q| = |q| := by rw [hzero, zero_sub, abs_neg]
  -- every other number is farther away
  have hfar : ∀ z : w.Number, w.value z ≠ 0 → |q| < |w.value z - q| := by
    intro z hz
    have hleast := (inFormat_value w z).least_le hz
    have htri := abs_sub_abs_le_abs_sub (w.value z) q
    linarith
  refine ⟨⟨hy, fun z _ => ?_, fun z _ htie hne => ?_⟩, ?_, fun hformat => ?_, Or.inr ?_⟩
  · rw [hself]
    by_cases hz : w.value z = 0
    · rw [hz, zero_sub, abs_neg]
    · exact (hfar z hz).le
  · rw [hself] at htie
    rw [hzero] at hne
    exact absurd htie (hfar z hne).ne'
  · rw [hself]
    exact hq.le
  · by_contra hne
    have hleast := hformat.least_le fun h => hne (hzero.trans h.symm)
    linarith
  · refine lt_of_lt_of_le hq ?_
    unfold leastNormal
    exact mul_le_mul_of_nonneg_right (le_trans (by norm_num) (one_le_pow₀ one_le_two)) hpos.le

/-- A mantissa is shorter than a stride. -/
theorem mantissaBits_le (w : Width) : w.format.mantissaBits ≤ 62 := by
  cases w <;> decide

/-- What is below the normal numbers is lost in a stride, whether it has been rounded or not. -/
theorem leastNormal_stride_lt (w : Width) :
    2 * leastNormal w.format * 2 ^ (-64 : ℤ) < 1 / 2 * 2 ^ w.format.minExponent := by
  have hpow : 2 * leastNormal w.format * 2 ^ (-64 : ℤ) =
      2 ^ w.format.mantissaBits * 2 ^ (-64 : ℤ) * 2 ^ w.format.minExponent := by
    rw [leastNormal]
    have := two_pow_mul_zpow w.format 0
    rw [zpow_zero, zero_add, zpow_one, mul_one] at this
    rw [this]
    ring
  have hsmall : (2 : ℚ) ^ w.format.mantissaBits * 2 ^ (-64 : ℤ) < 1 / 2 := by
    calc (2 : ℚ) ^ w.format.mantissaBits * 2 ^ (-64 : ℤ) ≤ 2 ^ 62 * 2 ^ (-64 : ℤ) :=
          mul_le_mul_of_nonneg_right (pow_le_pow_right₀ one_le_two w.mantissaBits_le)
            (by positivity)
      _ < 1 / 2 := by norm_num
  rw [hpow]
  exact mul_lt_mul_of_pos_right hsmall (by positivity)

/-- A stride.  If one before it has rounded then what is left of the number is lost. -/
theorem RoundsBelow.stride (h : w.RoundsBelow q x) :
    w.RoundsBelow (q * 2 ^ (-64 : ℤ)) (x * strideDown) := by
  have hprod := w.isPower_strideDown.roundsBelow h.roundsTo.finite (by decide)
  rcases h.below with hformat | hsmall
  · rw [h.exact hformat] at hprod
    exact hprod
  · have hlost := w.leastNormal_stride_lt
    have hpos : (0 : ℚ) < 2 ^ (-64 : ℤ) := by positivity
    -- the number that has been rounded is at most twice the exact one
    have hzero := h.roundsTo.nearest 0 isFinite_zero
    rw [value_zero, zero_sub, abs_neg] at hzero
    have hvalue : |w.value x| < 2 * leastNormal w.format := by
      have htri := abs_sub_abs_le_abs_sub (w.value x) q
      linarith
    have hexact : |w.value x * 2 ^ (-64 : ℤ)| < 1 / 2 * 2 ^ w.format.minExponent := by
      rw [abs_mul_two_zpow]
      exact lt_trans (mul_lt_mul_of_pos_right hvalue hpos) hlost
    have hnone : w.value (x * strideDown) = 0 := by
      by_contra hne
      have hleast := (inFormat_value w (x * strideDown)).least_le hne
      have hnear := hprod.roundsTo.nearest 0 isFinite_zero
      rw [value_zero, zero_sub, abs_neg] at hnear
      have htri := abs_sub_abs_le_abs_sub (w.value (x * strideDown)) (w.value x * 2 ^ (-64 : ℤ))
      generalize w.value x * 2 ^ (-64 : ℤ) = p at hexact hnear htri
      linarith
    refine roundsBelow_zero hprod.roundsTo.finite hnone (lt_trans ?_ hlost)
    rw [abs_mul_two_zpow]
    refine mul_lt_mul_of_pos_right (lt_trans hsmall ?_) hpos
    unfold leastNormal
    linarith [show (0 : ℚ) < 2 ^ w.format.mantissaBitsWithoutImplicit * 2 ^ w.format.minExponent by
      positivity]

/-! ## Odd mantissas below the normal numbers -/

section Odd

variable {z : w.Number} {m n k : ℕ} {a : ℤ} {hm : 0 < m}

/-- An odd mantissa that is scaled below the least exponent. -/
theorem value_scaled (hx : w.unpack x = .finite .positive m a hm)
    (hplace : a + e + k = w.format.minExponent) :
    w.value x * 2 ^ e = m / 2 ^ k * 2 ^ w.format.minExponent := by
  unfold value
  rw [hx, value_positive, ← hplace, zpow_add₀ two_ne_zero, zpow_add₀ two_ne_zero, zpow_natCast]
  have hpos : (0 : ℚ) < 2 ^ k := by positivity
  rw [div_mul_eq_mul_div, eq_div_iff hpos.ne']
  ring

theorem not_inFormat_of_odd (hodd : Odd m) (hk : 0 < k) :
    ¬ InFormat w.format (m / 2 ^ k * 2 ^ w.format.minExponent) := by
  intro h
  obtain ⟨k', u, -, hu, hgrid⟩ := h.grid
  rw [abs_of_nonneg (by positivity)] at hgrid
  obtain ⟨i, hi⟩ := Int.eq_ofNat_of_zero_le (sub_nonneg.mpr hu)
  have hpos : (0 : ℚ) < 2 ^ w.format.minExponent := by positivity
  have heven : (m : ℚ) = (k' * 2 ^ i * 2 ^ k : ℕ) := by
    rw [show u = i + w.format.minExponent by omega, zpow_add₀ two_ne_zero, zpow_natCast,
      ← mul_assoc, mul_left_inj' hpos.ne', div_eq_iff (by positivity)] at hgrid
    rw [hgrid]
    push_cast
    ring
  have hnat : m = k' * 2 ^ i * 2 ^ k := by exact_mod_cast heven
  rw [hnat] at hodd
  exact Nat.not_even_iff_odd.mpr hodd ((even_two.pow_of_ne_zero hk.ne').mul_left _)

theorem below_of_unpack (hx : w.unpack x = .finite .positive m a hm) (hk : 0 < k) :
    |(m : ℚ) / 2 ^ k * 2 ^ w.format.minExponent| < leastNormal w.format := by
  have hfits : m < 2 ^ w.format.mantissaBits := by
    have hcanon := canonical_unpack x
    rw [hx] at hcanon
    exact hcanon.1
  have hmant : (m : ℚ) < 2 ^ w.format.mantissaBitsWithoutImplicit * 2 ^ k := by
    have hpow := two_pow_mantissaBits w.format
    have htwo : 2 ^ 1 ≤ 2 ^ k := Nat.pow_le_pow_right Nat.zero_lt_two hk
    have hnat : m < 2 ^ w.format.mantissaBitsWithoutImplicit * 2 ^ k := by nlinarith
    exact_mod_cast hnat
  rw [abs_of_nonneg (by positivity), leastNormal]
  refine mul_lt_mul_of_pos_right ?_ (by positivity)
  rw [div_lt_iff₀ (by positivity)]
  exact hmant

/-- Above the middle between two neighbours, the lower one is not the nearest number. -/
theorem not_roundsTo_of_above_middle (hn : 0 < n)
    (hy : w.unpack y = .finite .positive n w.format.minExponent hn)
    (hz : w.unpack z = .finite .positive (n + 1) w.format.minExponent n.succ_pos) {r : ℚ}
    (hr : n + 1 / 2 < r) : ¬ w.RoundsTo (r * 2 ^ w.format.minExponent) y := by
  intro h
  have hpos : (0 : ℚ) < 2 ^ w.format.minExponent := by positivity
  have hnear := h.nearest z (by rw [isFinite_eq, hz]; rfl)
  unfold value at hnear
  rw [hy, hz, value_positive, value_positive, ← sub_mul, ← sub_mul, abs_mul_two_zpow,
    abs_mul_two_zpow, mul_le_mul_iff_left₀ hpos, abs_of_neg (by linarith)] at hnear
  push_cast at hnear
  rcases abs_cases ((n : ℚ) + 1 - r) with ⟨habs, -⟩ | ⟨habs, -⟩ <;> rw [habs] at hnear <;> linarith

/-- The product of an odd mantissa that is above the middle between two numbers below the normal
    ones, and is scaled to the lower one. -/
theorem scaled_below_middle (hx : w.unpack x = .finite .positive m a hm) (hodd : Odd m)
    (hplace : a + e + k = w.format.minExponent) (hk : 0 < k) (hn : 0 < n)
    (hy : w.unpack (scalePow2 x e) = .finite .positive n w.format.minExponent hn)
    (hz : w.unpack z = .finite .positive (n + 1) w.format.minExponent n.succ_pos)
    (hmiddle : (2 * n + 1) * 2 ^ k < 2 * m) :
    Scalar.isFinite x = true ∧ |w.value x * 2 ^ e| < leastNormal w.format ∧
      ¬ InFormat w.format (w.value x * 2 ^ e) ∧
      ¬ w.RoundsTo (w.value x * 2 ^ e) (scalePow2 x e) := by
  rw [value_scaled hx hplace]
  refine ⟨by rw [isFinite_eq, hx]; rfl, below_of_unpack hx hk, not_inFormat_of_odd hodd hk,
    not_roundsTo_of_above_middle hn hy hz ?_⟩
  have hcast : ((2 * n + 1) * 2 ^ k : ℚ) < 2 * m := by exact_mod_cast hmiddle
  rw [lt_div_iff₀ (by positivity)]
  linarith

end Odd

/-! ## Strides and the last factor -/

/-- Scaling by a few powers of two is a multiplication. -/
theorem scalePow2_of_natAbs_le (x : w.Number) (he : e.natAbs ≤ 64) :
    scalePow2 x e = x * powi two e := by
  have hup : ¬ scaleStride < e := by
    unfold scaleStride
    omega
  have hdown : ¬ e < -scaleStride := by
    unfold scaleStride
    omega
  have hstrides : takeStrides x e = (x, e) := by
    rw [takeStrides, if_neg fun h => hup h.1, if_neg fun h => hdown h.1]
  unfold scalePow2
  rw [hstrides]
  exact if_neg (by unfold scaleStride; omega)

/-- Scaling down further begins with a stride. -/
theorem scalePow2_of_lt (x : w.Number) (he : e < -64) :
    scalePow2 x e = scalePow2 (x * strideDown) (e + 64) := by
  by_cases hscale : canScale x = true
  · have hup : ¬ (scaleStride < e ∧ canScale x = true) := fun h => by
      have : scaleStride < e := h.1
      unfold scaleStride at this
      omega
    unfold scalePow2
    rw [takeStrides, if_neg hup, if_pos ⟨he, hscale⟩]
    rfl
  · rw [Bool.not_eq_true] at hscale
    rw [mul_isPower_of_not_canScale hscale w.isPower_strideDown,
      scalePow2_of_not_canScale hscale, scalePow2_of_not_canScale hscale]

/-- Before the last factor of a scaling down there is the exact product with the strides,
    rounded. -/
theorem RoundsBelow.before_last (h : w.RoundsBelow q x) (he : e < 0) :
    ∃ y, w.RoundsBelow (q * 2 ^ (e - lastFactor e)) y ∧ w.sign y = w.sign x ∧
      scalePow2 x e = y * powi two (lastFactor e) := by
  induction hn : e.natAbs using Nat.strong_induction_on generalizing e q x with
  | _ n ih =>
    by_cases hlarge : e < -64
    · have hlast : lastFactor (e + 64) = lastFactor e := by
        rw [lastFactor_of_neg he, lastFactor_of_neg (by omega)]
        omega
      obtain ⟨y, hy, hsign, hscale⟩ := ih (e + 64).natAbs (by omega) h.stride
        (e := e + 64) (by omega) rfl
      refine ⟨y, ?_, hsign.trans (w.isPower_strideDown.sign_mul h.roundsTo.finite), ?_⟩
      · rw [hlast, mul_assoc, ← zpow_add₀ two_ne_zero] at hy
        rwa [show -64 + (e + 64 - lastFactor e) = e - lastFactor e by omega] at hy
      · rw [scalePow2_of_lt x hlarge, hscale, hlast]
    · have hlast : lastFactor e = e := by
        rw [lastFactor_of_neg he]
        omega
      refine ⟨x, ?_, rfl, ?_⟩
      · rw [hlast, sub_self, zpow_zero, mul_one]
        exact h
      · rw [hlast, scalePow2_of_natAbs_le x (by omega)]

/-- A number is itself, rounded. -/
theorem roundsBelow_self (hx : Scalar.isFinite x = true) : w.RoundsBelow (w.value x) x := by
  have hself : |w.value x - w.value x| = 0 := by rw [sub_self, abs_zero]
  refine ⟨⟨hx, fun z _ => ?_, fun z _ htie hne => ?_⟩, ?_, fun _ => rfl,
    Or.inl (inFormat_value w x)⟩
  · rw [hself]
    exact abs_nonneg _
  · rw [hself, abs_eq_zero, sub_eq_zero] at htie
    exact absurd htie hne
  · rw [hself]
    positivity

/-- A product that falls below the normal numbers without being in the format belongs to a
    negative exponent. -/
theorem neg_of_not_inFormat (hsmall : |w.value x * 2 ^ e| < leastNormal w.format)
    (hnot : ¬ InFormat w.format (w.value x * 2 ^ e)) : e < 0 := by
  by_contra he
  refine hnot ⟨(inFormat_value w x).grid.scale_up (not_lt.mp he), ?_⟩
  refine lt_of_lt_of_le hsmall (mul_le_mul ?_ ?_ (by positivity) (by positivity))
  · refine pow_le_pow_right₀ one_le_two ?_
    unfold Format.mantissaBits
    omega
  · exact zpow_le_zpow_right₀ one_le_two w.minExponent_le_maxExponent

/-! ## Two roundings are not one -/

/-- Scaling that falls below the normal numbers.  The product with all the strides is rounded to the
    nearest number, of two to the even one, and the product of that with the last factor is so once
    more.  Together they are off by at most three quarters of the least number.  If the strides are
    exact, and always if the exponent is not larger than a stride, the exact product is rounded
    once. -/
theorem scalePow2_subnormal (hx : Scalar.isFinite x = true)
    (hsmall : |w.value x * 2 ^ e| < leastNormal w.format)
    (hnot : ¬ InFormat w.format (w.value x * 2 ^ e)) :
    (∃ y, w.RoundsTo (w.value x * 2 ^ (e - lastFactor e)) y ∧
      w.RoundsTo (w.value y * 2 ^ lastFactor e) (scalePow2 x e)) ∧
    w.sign (scalePow2 x e) = w.sign x ∧
    |w.value (scalePow2 x e) - w.value x * 2 ^ e| ≤ 3 / 4 * 2 ^ w.format.minExponent ∧
    (InFormat w.format (w.value x * 2 ^ (e - lastFactor e)) →
      w.RoundsTo (w.value x * 2 ^ e) (scalePow2 x e)) ∧
    (-64 ≤ e → w.RoundsTo (w.value x * 2 ^ e) (scalePow2 x e)) := by
  have he := neg_of_not_inFormat hsmall hnot
  have hlast := lastFactor_of_neg he
  obtain ⟨y, hy, hsign, hscale⟩ := (roundsBelow_self hx).before_last he
  have hpow := w.isPower_powi (show (lastFactor e).natAbs ≤ 64 by omega)
  have hprod := hpow.roundsBelow hy.roundsTo.finite (by omega)
  have hexact : w.value x * 2 ^ (e - lastFactor e) * 2 ^ lastFactor e = w.value x * 2 ^ e := by
    rw [mul_assoc, ← zpow_add₀ two_ne_zero, sub_add_cancel]
  have honce : InFormat w.format (w.value x * 2 ^ (e - lastFactor e)) →
      w.RoundsTo (w.value x * 2 ^ e) (scalePow2 x e) := by
    intro hformat
    rw [hy.exact hformat, hexact] at hprod
    rw [hscale]
    exact hprod.roundsTo
  refine ⟨⟨y, hy.roundsTo, ?_⟩, ?_, ?_, honce, fun hone => honce ?_⟩
  · rw [hscale]
    exact hprod.roundsTo
  · rw [hscale, hpow.sign_mul hy.roundsTo.finite, hsign]
  · -- the last factor is at most one half, and so is what it leaves of the first error
    rw [hscale, ← hexact]
    have hhalf : (2 : ℚ) ^ lastFactor e ≤ 1 / 2 := by
      rw [one_div, ← zpow_neg_one]
      exact zpow_le_zpow_right₀ one_le_two (by omega)
    have hfirst : |w.value y * 2 ^ lastFactor e -
        w.value x * 2 ^ (e - lastFactor e) * 2 ^ lastFactor e| ≤
        1 / 2 * 2 ^ w.format.minExponent * (1 / 2) := by
      rw [← sub_mul, abs_mul_two_zpow]
      exact mul_le_mul hy.error hhalf (by positivity) (by positivity)
    have htri := abs_sub_le (w.value (y * powi two (lastFactor e)))
      (w.value y * 2 ^ lastFactor e) (w.value x * 2 ^ (e - lastFactor e) * 2 ^ lastFactor e)
    have hsecond := hprod.error
    linarith
  · have hself : lastFactor e = e := by omega
    rw [hself, sub_self, zpow_zero, mul_one]
    exact inFormat_value w x

/-- One plus the last bit, scaled by `2 ^ -140`: the strides lose that bit, and the last factor
    loses nothing. -/
theorem scalePow2_subnormal_of_last_bit :
    ∃ x : Width.Number .single, x = Float32.ofBits 0x3F800001 ∧
      |Width.single.value x * 2 ^ (-140 : ℤ)| < leastNormal Width.single.format ∧
      ¬ InFormat Width.single.format (Width.single.value x * 2 ^ (-140 : ℤ)) ∧
      (∃ y, Width.single.RoundsTo (Width.single.value x * 2 ^ (-128 : ℤ)) y ∧
        Width.single.RoundsTo (Width.single.value y * 2 ^ (-12 : ℤ)) (scalePow2 x (-140))) ∧
      |Width.single.value (scalePow2 x (-140)) - Width.single.value x * 2 ^ (-140 : ℤ)| ≤
        3 / 4 * 2 ^ (-149 : ℤ) := by
  obtain ⟨x, hx⟩ : ∃ x : Width.Number .single, x = Float32.ofBits 0x3F800001 := ⟨_, rfl⟩
  have hunpack : Width.single.unpack x = .finite .positive 0x800001 (-23) (by decide) := by
    rw [hx]
    rfl
  have hplace : (-23 : ℤ) + -140 + (14 : ℕ) = Width.single.format.minExponent := by decide
  have hfinite : Scalar.isFinite x = true := by
    rw [isFinite_eq, hunpack]
    rfl
  have hsmall : |Width.single.value x * 2 ^ (-140 : ℤ)| < leastNormal Width.single.format := by
    rw [value_scaled hunpack hplace]
    exact below_of_unpack hunpack (by decide)
  have hnot : ¬ InFormat Width.single.format (Width.single.value x * 2 ^ (-140 : ℤ)) := by
    rw [value_scaled hunpack hplace]
    exact not_inFormat_of_odd (by decide) (by decide)
  obtain ⟨htwice, -, herror, -, -⟩ := scalePow2_subnormal hfinite hsmall hnot
  exact ⟨x, hx, hsmall, hnot, htwice, herror⟩

/-- The exact product is rounded to the nearest number, wherever it falls below the normal numbers
    without being one. -/
def ScalesToNearest (w : Width) : Prop :=
  ∀ (x : w.Number) (e : Int32), Scalar.isFinite x = true →
    |w.value x * 2 ^ e.toInt| < leastNormal w.format →
    ¬ InFormat w.format (w.value x * 2 ^ e.toInt) →
    w.RoundsTo (w.value x * 2 ^ e.toInt) (scalePow2 x e.toInt)

/-- In neither width scaling rounds to the nearest number.  The strides lose the last bit of these
    two, and what they leave is in the middle of two numbers, the lower of which is even. -/
theorem scalePow2_not_nearest :
    ¬ Width.single.ScalesToNearest ∧ ¬ Width.double.ScalesToNearest := by
  constructor
  · intro h
    have hx : Width.single.unpack (Float32.ofBits 0x3F802001) =
        .finite .positive 0x802001 (-23) (by decide) := by rfl
    have hscale : scalePow2 (Float32.ofBits 0x3F802001) (-140) = Float32.ofBits 512 := by
      decide +kernel
    have hy : Width.single.unpack (scalePow2 (Float32.ofBits 0x3F802001) (-140)) =
        .finite .positive 512 (-149) (by decide) := by
      rw [hscale]
      rfl
    obtain ⟨hfinite, hsmall, hnot, hwrong⟩ := scaled_below_middle (k := 14)
      (z := Float32.ofBits 513) hx (by decide) (by decide) (by decide) (by decide) hy (by rfl)
      (by decide)
    exact hwrong (h _ (-140) hfinite hsmall hnot)
  · intro h
    have hx : Width.double.unpack (Float.ofBits 0x3FF0002000000001) =
        .finite .positive 0x10002000000001 (-52) (by decide) := by rfl
    have hscale : scalePow2 (Float.ofBits 0x3FF0002000000001) (-1060) = Float.ofBits 16384 := by
      decide +kernel
    have hy : Width.double.unpack (scalePow2 (Float.ofBits 0x3FF0002000000001) (-1060)) =
        .finite .positive 16384 (-1074) (by decide) := by
      rw [hscale]
      rfl
    obtain ⟨hfinite, hsmall, hnot, hwrong⟩ := scaled_below_middle (k := 38)
      (z := Float.ofBits 16385) hx (by decide) (by decide) (by decide) (by decide) hy (by rfl)
      (by decide)
    exact hwrong (h _ (-1060) hfinite hsmall hnot)

end Width

end DiffTape
