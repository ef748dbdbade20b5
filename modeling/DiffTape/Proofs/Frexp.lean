/-
  TAKING A NUMBER APART INTO MANTISSA AND EXPONENT.

  The exponent comes from a logarithm that is rounded.  All that is asked of it is to be off by less
  than one.  Then its floor is off by at most one in either direction, and so is the first guess
  `e₀` of the exponent (`Log2Near.log2Floor`).  Scaled by `2 ^ -e₀` the magnitude lies between `1/4`
  and `2`, where nothing is rounded (`inFormat_unit`), and one comparison there tells the exponent
  (`frexpExponent_bounds`).

  Scaling back and forth by the exponent is exact in both directions, so `ldexp` undoes `frexp`
  (`ldexp_frexp`).
-/
import DiffTape.Catalog
import DiffTape.Proofs.PowersOfTwo

namespace DiffTape

open Binary
open Scalar (two powi)
open Float.Model (Format UnpackedFloat)
open Float.Model.UnpackedFloat (Sign)

/-! ## Rounding down -/

/-- An arithmetic shift to the right rounds down. -/
theorem floorDyadic_eq (negative : Bool) (m : ℕ) (e : ℤ) :
    floorDyadic negative m e = ⌊((if negative then -m else m : ℤ) : ℚ) * 2 ^ e⌋ := by
  unfold floorDyadic
  generalize (if negative then -m else m : ℤ) = n
  dsimp only
  split_ifs with he
  · have hpow : (n : ℚ) * 2 ^ e = (n * 2 ^ e.toNat : ℤ) := by
      push_cast
      rw [← zpow_natCast, Int.toNat_of_nonneg he]
    rw [hpow, Int.floor_intCast, Int.shiftLeft_eq]
  · have hpow : (n : ℚ) * 2 ^ e = n / (2 ^ (-e).toNat : ℕ) := by
      push_cast
      rw [← zpow_natCast, Int.toNat_of_nonneg (by omega), zpow_neg, div_inv_eq_mul]
    rw [hpow, Rat.floor_intCast_div_natCast, Int.shiftRight_eq_div_pow]

namespace Width

variable {w : Width} {x y : w.Number} {e : ℤ}

theorem floorInt?_eq_floor (hx : Scalar.isFinite x = true) :
    Scalar.floorInt? x = some ⌊w.value x⌋ := by
  rw [isFinite_eq] at hx
  rw [floorInt?_eq]
  unfold value
  generalize w.unpack x = u at hx ⊢
  cases u with
  | notANumber => cases hx
  | infinity => cases hx
  | zero s => exact congrArg some Int.floor_zero.symm
  | finite s m e hm =>
    show some (floorDyadic _ m e) = _
    rw [floorDyadic_eq]
    cases s with
    | positive => rw [value_positive]; simp
    | negative => rw [value_negative]; simp

/-! ## The first guess -/

theorem isFinite_abs (x : w.Number) : Scalar.isFinite (Scalar.abs x) = Scalar.isFinite x := by
  rw [isFinite_eq, isFinite_eq, unpack_abs]
  cases w.unpack x <;> rfl

theorem value_abs (x : w.Number) : w.value (Scalar.abs x) = |w.value x| := by
  unfold value
  rw [unpack_abs]
  cases w.unpack x with
  | finite s m e hm => rw [abs_value_finite]; exact value_positive hm
  | _ => exact abs_zero.symm

/-- The magnitudes of a format are below a power of two. -/
theorem abs_value_lt_zpow (x : w.Number) :
    |w.value x| < (2 : ℚ) ^ (w.format.mantissaBits + maxExponent w.format) := by
  rw [zpow_add₀ two_ne_zero, zpow_natCast]
  exact (inFormat_value w x).range

theorem exponents_small (w : Width) :
    -1074 ≤ w.format.minExponent ∧ w.format.mantissaBits + maxExponent w.format ≤ 1024 := by
  cases w <;> decide

/-- A number between two powers of two has an exponent between theirs. -/
theorem exponent_bounds (hne : w.value x ≠ 0) {i j : ℤ} (hi : (2 : ℚ) ^ i ≤ |w.value x|)
    (hj : |w.value x| < 2 ^ j) : i < 1024 ∧ -1074 < j := by
  obtain ⟨hmin, hmax⟩ := exponents_small w
  have hlo := lt_of_le_of_lt hi (abs_value_lt_zpow x)
  have hhi := lt_of_le_of_lt ((inFormat_value w x).least_le hne) hj
  rw [zpow_lt_zpow_iff_right₀ one_lt_two] at hlo hhi
  exact ⟨by omega, by omega⟩

variable [Elementary w.Number]

/-- The binary logarithm of the magnitude, as far as the platform can tell, is finite and off by
    less than one. -/
structure Log2Near (x : w.Number) : Prop where
  finite : Scalar.isFinite (Elementary.log2 (Scalar.abs x)) = true
  near : |(w.value (Elementary.log2 (Scalar.abs x)) : ℝ) - Real.logb 2 (|w.value x| : ℚ)| < 1

/-- The floor of such a logarithm is off by at most one. -/
theorem Log2Near.floor (h : Log2Near x) (hne : w.value x ≠ 0) :
    (2 : ℚ) ^ (⌊w.value (Elementary.log2 (Scalar.abs x))⌋ - 1) ≤ |w.value x| ∧
      |w.value x| < 2 ^ (⌊w.value (Elementary.log2 (Scalar.abs x))⌋ + 2) := by
  have hpos : (0 : ℝ) < (|w.value x| : ℚ) := by exact_mod_cast abs_pos.mpr hne
  obtain ⟨hlo, hhi⟩ := abs_lt.mp h.near
  generalize w.value (Elementary.log2 (Scalar.abs x)) = l at hlo hhi ⊢
  have hfloor : (⌊l⌋ : ℝ) ≤ l := by exact_mod_cast Int.floor_le l
  have hceil : (l : ℝ) < ⌊l⌋ + 1 := by exact_mod_cast Int.lt_floor_add_one l
  have hlow : (2 : ℝ) ^ ((⌊l⌋ - 1 : ℤ) : ℝ) < (|w.value x| : ℚ) := by
    rw [← Real.lt_logb_iff_rpow_lt one_lt_two hpos]
    push_cast at hlo hhi ⊢
    linarith
  have hhigh : ((|w.value x| : ℚ) : ℝ) < 2 ^ ((⌊l⌋ + 2 : ℤ) : ℝ) := by
    rw [← Real.logb_lt_iff_lt_rpow one_lt_two hpos]
    push_cast at hlo hhi ⊢
    linarith
  rw [Real.rpow_intCast, ← Rat.cast_ofNat, ← Rat.cast_zpow] at hlow hhigh
  exact ⟨Rat.cast_le.mp hlow.le, Rat.cast_lt.mp hhigh⟩

/-- The exponent that is tried first is off by at most one. -/
theorem Log2Near.log2Floor (h : Log2Near x) (hne : w.value x ≠ 0) :
    (2 : ℚ) ^ (log2Floor (Scalar.abs x) - 1) ≤ |w.value x| ∧
      |w.value x| < 2 ^ (log2Floor (Scalar.abs x) + 2) := by
  have hbounds := h.floor hne
  have hrange := exponent_bounds hne hbounds.1 hbounds.2
  unfold DiffTape.log2Floor
  rw [floorInt?_eq_floor h.finite]
  dsimp only
  rw [if_pos]
  · exact hbounds
  · have hmin : Int32.minValue.toInt = -2147483648 := by decide
    have hmax : Int32.maxValue.toInt = 2147483647 := by decide
    rw [hmin, hmax]
    omega

/-! ## The exponent -/

/-- A mantissa fits between one and the least exponent. -/
theorem minExponent_le_neg_mantissaBits (w : Width) :
    w.format.minExponent ≤ -1 - w.format.mantissaBits := by
  cases w <;> decide

omit [Elementary w.Number] in
/-- Scaled to about one, a number is still in the format. -/
theorem inFormat_unit {e₀ : ℤ} (hlo : (2 : ℚ) ^ (e₀ - 2) ≤ |w.value x|)
    (hhi : |w.value x| < 2 ^ (e₀ + 1)) : InFormat w.format (w.value x * 2 ^ (-e₀)) := by
  have habs : |w.value x * 2 ^ (-e₀)| = |w.value x| * 2 ^ (-e₀) := abs_mul_two_zpow _ _
  refine ⟨?_, ?_⟩
  · obtain ⟨k, u, hk, -, hgrid⟩ := (inFormat_value w x).grid
    -- the last place of `x` is not more than a mantissa below its leading bit
    have hplace : e₀ - 2 < w.format.mantissaBits + u := by
      rw [← zpow_lt_zpow_iff_right₀ (one_lt_two (α := ℚ)), zpow_add₀ two_ne_zero, zpow_natCast]
      refine lt_of_le_of_lt hlo ?_
      rw [hgrid]
      exact mul_lt_mul_of_pos_right (by exact_mod_cast hk) (by positivity)
    have hleast := w.minExponent_le_neg_mantissaBits
    refine ⟨k, u + -e₀, hk, by omega, ?_⟩
    rw [habs, hgrid, zpow_add₀ two_ne_zero, mul_assoc]
  · have htop := w.le_maxExponent
    rw [habs]
    calc |w.value x| * 2 ^ (-e₀) < 2 ^ (e₀ + 1) * 2 ^ (-e₀) :=
          mul_lt_mul_of_pos_right hhi (by positivity)
      _ = 2 ^ (1 : ℤ) := by
          rw [← zpow_add₀ two_ne_zero]
          congr 1
          omega
      _ ≤ 2 ^ maxExponent w.format := zpow_le_zpow_right₀ one_le_two (by omega)
      _ ≤ 2 ^ w.format.mantissaBits * 2 ^ maxExponent w.format :=
          le_mul_of_one_le_left (by positivity) (one_le_pow₀ one_le_two)

omit [Elementary w.Number] in
/-- The comparisons that correct the first guess, on a finite number. -/
theorem one_le_iff_value (hx : Scalar.isFinite x = true) :
    1 < x ∨ (x == 1) = true ↔ 1 ≤ w.value x := by
  have hone := isPower_one w
  rw [lt_iff_value hone.finite hx, beq_iff_value hx hone.finite, hone.value, zpow_zero, eq_comm]
  exact le_iff_lt_or_eq.symm

omit [Elementary w.Number] in
theorem lt_half_iff_value (hx : Scalar.isFinite x = true) :
    x < 1 / two ↔ w.value x < 1 / 2 := by
  have hhalf := w.isPower_two.one_div (by decide) (by decide)
  rw [lt_iff_value hx hhalf.finite, hhalf.value, zpow_neg_one, one_div]

/-- `frexpExponent` is the exponent for which the mantissa lies between one half and one. -/
theorem frexpExponent_bounds (hx : Scalar.isFinite x = true) (hne : w.value x ≠ 0)
    (hlog : Log2Near x) :
    (2 : ℚ) ^ (frexpExponent x - 1) ≤ |w.value x| ∧ |w.value x| < 2 ^ frexpExponent x := by
  obtain ⟨hlo, hhi⟩ := hlog.log2Floor hne
  unfold frexpExponent
  rw [if_pos (canScale_iff.mpr ⟨hx, hne⟩)]
  dsimp only
  generalize he₀ : DiffTape.log2Floor (Scalar.abs x) + 1 = e₀
  rw [show DiffTape.log2Floor (Scalar.abs x) - 1 = e₀ - 2 by omega] at hlo
  rw [show DiffTape.log2Floor (Scalar.abs x) + 2 = e₀ + 1 by omega] at hhi
  obtain ⟨hfinite, hvalue, -⟩ := scalePow2_exact ((isFinite_abs x).trans hx)
    (inFormat_unit (x := Scalar.abs x) (by rwa [value_abs, abs_abs]) (by rwa [value_abs, abs_abs]))
  rw [value_abs] at hvalue
  -- comparing the scaled magnitude is comparing the magnitude with powers of two
  have hpos : (0 : ℚ) < 2 ^ e₀ := by positivity
  have hone : 1 ≤ |w.value x| * 2 ^ (-e₀) ↔ (2 : ℚ) ^ e₀ ≤ |w.value x| := by
    rw [zpow_neg, ← div_eq_mul_inv, le_div_iff₀ hpos, one_mul]
  have hhalf : |w.value x| * 2 ^ (-e₀) < 1 / 2 ↔ |w.value x| < (2 : ℚ) ^ (e₀ - 1) := by
    rw [zpow_neg, ← div_eq_mul_inv, div_lt_iff₀ hpos, zpow_sub_one₀ two_ne_zero, one_div, mul_comm]
  simp only [one_le_iff_value hfinite, lt_half_iff_value hfinite, hvalue, hone, hhalf]
  split_ifs with hlarge hsmall
  · exact ⟨by rwa [add_sub_cancel_right], hhi⟩
  · exact ⟨by rwa [show e₀ - 1 - 1 = e₀ - 2 by omega], hsmall⟩
  · exact ⟨not_lt.mp hsmall, not_le.mp hlarge⟩

/-! ## Back and forth -/

omit [Elementary w.Number] in
/-- Scaled down by its exponent a number is its mantissa, and scaled up again it is itself. -/
theorem scalePow2_mantissa (hx : Scalar.isFinite x = true)
    (hlo : (2 : ℚ) ^ (e - 1) ≤ |w.value x|) (hhi : |w.value x| < 2 ^ e) :
    Scalar.isFinite (scalePow2 x (-e)) = true ∧
      w.value (scalePow2 x (-e)) = w.value x * 2 ^ (-e) ∧
      w.sign (scalePow2 x (-e)) = w.sign x ∧
      1 / 2 ≤ |w.value (scalePow2 x (-e))| ∧ |w.value (scalePow2 x (-e))| < 1 ∧
      scalePow2 (scalePow2 x (-e)) e = x := by
  have hpos : (0 : ℚ) < 2 ^ e := by positivity
  have hself : w.value x * 2 ^ (-e) * 2 ^ e = w.value x := by
    rw [mul_assoc, ← zpow_add₀ two_ne_zero, neg_add_cancel, zpow_zero, mul_one]
  -- down, to the mantissa
  have hunit : InFormat w.format (w.value x * 2 ^ (-e)) :=
    inFormat_unit (le_trans (zpow_le_zpow_right₀ one_le_two (by omega)) hlo)
      (lt_of_lt_of_le hhi (zpow_le_zpow_right₀ one_le_two (by omega)))
  obtain ⟨hmfinite, hmvalue, hmsign⟩ := scalePow2_exact hx hunit
  have hmabs : |w.value (scalePow2 x (-e))| = |w.value x| / 2 ^ e := by
    rw [hmvalue, abs_mul_two_zpow, zpow_neg, div_eq_mul_inv]
  -- and up again
  obtain ⟨hfinite, hvalue, hsign⟩ := scalePow2_exact (e := e) hmfinite
    (by rw [hmvalue, hself]; exact inFormat_value w x)
  rw [hmvalue, hself] at hvalue
  refine ⟨hmfinite, hmvalue, hmsign, ?_, ?_, eq_of_value hfinite hx hvalue (hsign.trans hmsign)⟩
  · rw [hmabs, le_div_iff₀ hpos, one_div, mul_comm, ← zpow_sub_one₀ two_ne_zero]
    exact hlo
  · rw [hmabs, div_lt_one hpos]
    exact hhi

omit [Elementary w.Number] in
theorem canScale_eq_false (h : x = 0 ∨ x = -0 ∨ Scalar.isFinite x = false) :
    canScale x = false := by
  rw [← or_assoc, ← beq_zero_iff] at h
  unfold canScale
  rcases h with hzero | hnot
  · show (!(x == 0) && _) = false
    rw [hzero]
    rfl
  · rw [hnot, Bool.and_false]

/-- Taking a finite number other than zero apart gives a mantissa between one half and one in
    magnitude, with its sign and without rounding, and putting mantissa and exponent together gives
    the number back.  The logarithm may be any that is finite and off by less than one.  Zeros,
    infinities and NaN have the exponent zero and are left as they are. -/
theorem ldexp_frexp (x b b' : w.Number) :
    (Scalar.isFinite x = true → w.value x ≠ 0 → Log2Near x →
      ∃ (e : Int32) (m : w.Number), frexpExponent x = e.toInt ∧
        (2 : ℚ) ^ (e.toInt - 1) ≤ |w.value x| ∧ |w.value x| < 2 ^ e.toInt ∧
        evalValue .frexp x b (.exponent e) = m ∧ Scalar.isFinite m = true ∧
        w.value m = w.value x * 2 ^ (-e.toInt) ∧ w.sign m = w.sign x ∧
        1 / 2 ≤ |w.value m| ∧ |w.value m| < 1 ∧
        evalValue .ldexp m b' (.exponent e) = x) ∧
    (x = 0 ∨ x = -0 ∨ Scalar.isFinite x = false →
      frexpExponent x = 0 ∧ evalValue .frexp x b (.exponent 0) = x ∧
        evalValue .ldexp x b' (.exponent 0) = x) := by
  refine ⟨fun hx hne hlog => ?_, fun h => ?_⟩
  · obtain ⟨hlo, hhi⟩ := frexpExponent_bounds hx hne hlog
    obtain ⟨hmin, hmax⟩ := exponent_bounds hne hlo hhi
    generalize frexpExponent x = e at hlo hhi hmin hmax
    have hword : (Int32.ofInt e).toInt = e := Int32.toInt_ofInt_of_le (by omega) (by omega)
    -- only the least word has no negative
    have hneg : (Aux.exponent (.ofInt e)).negExponent = -e := by
      have hleast : Int32.minValue.toInt = -2 ^ 31 := by decide
      unfold Aux.negExponent
      rw [show (Aux.exponent (.ofInt e)).exponentD = e from hword]
      exact if_neg (by omega)
    have hfrexp : evalValue .frexp x b (.exponent (.ofInt e)) = scalePow2 x (-e) :=
      congrArg (scalePow2 x) hneg
    have hldexp : evalValue .ldexp (scalePow2 x (-e)) b' (.exponent (.ofInt e)) =
        scalePow2 (scalePow2 x (-e)) e := congrArg (scalePow2 _) hword
    obtain ⟨hfinite, hvalue, hsign, hhalf, hone, hback⟩ := scalePow2_mantissa hx hlo hhi
    refine ⟨.ofInt e, scalePow2 x (-e), hword.symm, ?_⟩
    rw [hword]
    exact ⟨hlo, hhi, hfrexp, hfinite, hvalue, hsign, hhalf, hone, hldexp.trans hback⟩
  · have hstop := canScale_eq_false h
    refine ⟨?_, scalePow2_of_not_canScale hstop _, scalePow2_of_not_canScale hstop _⟩
    unfold frexpExponent
    rw [hstop]
    rfl

/-- The greatest number below `2 ^ -125`, on a platform whose logarithm rounds it up to `-125`, and
    the negative zero. -/
theorem ldexp_frexp_below_power :
    ∃ (platform : Elementary (Width.Number .single)) (x m : Width.Number .single),
      x = Float32.ofBits 0x00FFFFFF ∧ platform.log2 (Scalar.abs x) = (-125 : Float32) ∧
      frexpExponent x = -125 ∧ evalValue .frexp x 0 (.exponent (-125)) = m ∧
      1 / 2 ≤ |Width.single.value m| ∧ |Width.single.value m| < 1 ∧
      evalValue .ldexp m 0 (.exponent (-125)) = x ∧
      frexpExponent (-0 : Width.Number .single) = 0 ∧
      evalValue .frexp (-0 : Width.Number .single) 0 (.exponent 0) = -0 ∧
      evalValue .ldexp (-0 : Width.Number .single) 0 (.exponent 0) = -0 := by
  obtain ⟨x, hx⟩ : ∃ x : Width.Number .single, x = Float32.ofBits 0x00FFFFFF := ⟨_, rfl⟩
  let platform : Elementary (Width.Number .single) :=
    { (inferInstance : Elementary Float32) with log2 := fun _ => (-125 : Float32) }
  have hunpack : Width.single.unpack x =
      .finite .positive (2 ^ 24 - 1) (-149) (by decide) := by
    rw [hx]
    rfl
  have hfinite : Scalar.isFinite x = true := by
    rw [isFinite_eq, hunpack]
    rfl
  have hvalue : Width.single.value x = (2 ^ 24 - 1) * 2 ^ (-149 : ℤ) := by
    unfold Width.value
    rw [hunpack, value_positive]
    norm_num
  have hpos : (0 : ℚ) < (2 ^ 24 - 1) * 2 ^ (-149 : ℤ) := by norm_num
  have hlog : Width.single.unpack (-125 : Float32) =
      .finite .negative (125 * 2 ^ 17) (-17) (by decide) := rfl
  have hlogvalue : Width.single.value (-125 : Float32) = -125 := by
    unfold Width.value
    rw [hlog, value_negative]
    norm_num
  have hnear : Log2Near x := by
    refine ⟨by rw [isFinite_eq]; exact congrArg _ hlog, ?_⟩
    show |(Width.single.value (-125 : Float32) : ℝ) - Real.logb 2 (|Width.single.value x| : ℚ)| < 1
    have hreal : (0 : ℝ) < ((2 ^ 24 - 1) * 2 ^ (-149 : ℤ) : ℚ) := by exact_mod_cast hpos
    have hlo : ((-126 : ℤ) : ℝ) < Real.logb 2 ((2 ^ 24 - 1) * 2 ^ (-149 : ℤ) : ℚ) := by
      rw [Real.lt_logb_iff_rpow_lt one_lt_two hreal, Real.rpow_intCast]
      norm_num
    have hhi : Real.logb 2 ((2 ^ 24 - 1) * 2 ^ (-149 : ℤ) : ℚ) < ((-125 : ℤ) : ℝ) := by
      rw [Real.logb_lt_iff_lt_rpow one_lt_two hreal, Real.rpow_intCast]
      norm_num
    rw [hlogvalue, hvalue, abs_of_pos hpos, abs_lt]
    push_cast at hlo hhi ⊢
    constructor <;> linarith
  obtain ⟨e, m, hexp, hle, hlt, hfrexp, -, -, -, hhalf, hone, hldexp⟩ :=
    (ldexp_frexp x 0 0).1 hfinite (by rw [hvalue]; exact hpos.ne') hnear
  -- only one exponent fits
  have he : e = -125 := by
    rw [hvalue, abs_of_pos hpos] at hle hlt
    have hlo : e.toInt - 1 < -125 := by
      rw [← zpow_lt_zpow_iff_right₀ (one_lt_two (α := ℚ))]
      exact lt_of_le_of_lt hle (by norm_num)
    have hhi : -126 < e.toInt := by
      rw [← zpow_lt_zpow_iff_right₀ (one_lt_two (α := ℚ))]
      exact lt_trans (by norm_num) hlt
    refine Int32.toInt_inj.mp ?_
    rw [show (-125 : Int32).toInt = -125 by decide]
    omega
  subst he
  obtain ⟨hzero, hzfrexp, hzldexp⟩ :=
    (ldexp_frexp (-0 : Width.Number .single) 0 0).2 (.inr (.inl rfl))
  exact ⟨platform, x, m, hx, rfl, hexp, hfrexp, hhalf, hone, hldexp, hzero, hzfrexp, hzldexp⟩

end Width

end DiffTape
