/-
  SCALING ENDS, AND SAYS WHAT THE PRODUCT IS.

  The exponent of a scaling is a 32-bit word, and the strides subtract from it or add to it.
  `StrideTurn` is one turn of the two loops on such words, with the arithmetic of words.

  1. `StrideTurn.toInt`    — a turn takes 64 from the magnitude of the exponent, and no word
                             overflows;
  2. `wellFounded_turn`    — so the loops end, whatever the number is;
  3. `exists_end_of_turns` — and they end where `takeStrides` ends;
  4. `exact_of_turns`      — if the product is a number of the format, so is every number on the way;
  5. `scalePow2_overflow`  — if it is beyond all of them, the result is infinite.

  The strides stop early at zero, infinity and NaN.  A stride leads to zero from zero only, where the
  product is a number, and to an infinity only where the product is infinite as well
  (`mul_isPower_overflow`).
-/
import DiffTape.Proofs.DoubleRounding
import DiffTape.Proofs.Frexp

namespace DiffTape

open Relation (ReflTransGen)

/-! ## The loops on words -/

section Turns

variable {F : Type} [Scalar F] {s s' : F × Int32} {x : F} {e : Int32}

/-- One turn of the loops, with the exponent in a 32-bit word. -/
inductive StrideTurn : F × Int32 → F × Int32 → Prop where
  | up {x : F} {e : Int32} (he : 64 < e) (hx : canScale x = true) :
      StrideTurn (x, e) (x * strideUp, e - 64)
  | down {x : F} {e : Int32} (he : e < -64) (hx : canScale x = true) :
      StrideTurn (x, e) (x * strideDown, e + 64)

theorem lt_iff_toInt : 64 < e ↔ 64 < e.toInt := Int32.lt_iff_toInt_lt

theorem lt_neg_iff_toInt : e < -64 ↔ e.toInt < -64 := Int32.lt_iff_toInt_lt

/-- The subtraction does not overflow. -/
theorem toInt_sub_of_lt (he : 64 < e) : (e - 64).toInt = e.toInt - 64 := by
  have hlarge := lt_iff_toInt.mp he
  have hmax := e.toInt_lt
  rw [Int32.toInt_sub, show (64 : Int32).toInt = 64 from rfl]
  exact Int.bmod_eq_of_le (by omega) (by omega)

/-- Nor does the addition. -/
theorem toInt_add_of_lt (he : e < -64) : (e + 64).toInt = e.toInt + 64 := by
  have hlarge := lt_neg_iff_toInt.mp he
  have hmin := e.le_toInt
  rw [Int32.toInt_add, show (64 : Int32).toInt = 64 from rfl]
  exact Int.bmod_eq_of_le (by omega) (by omega)

/-- What a turn does to the word is what it does to the integer. -/
theorem StrideTurn.toInt (h : StrideTurn s s') :
    64 < s.2.toInt ∧ s'.2.toInt = s.2.toInt - 64 ∨
      s.2.toInt < -64 ∧ s'.2.toInt = s.2.toInt + 64 := by
  cases h with
  | up he hx => exact Or.inl ⟨lt_iff_toInt.mp he, toInt_sub_of_lt he⟩
  | down he hx => exact Or.inr ⟨lt_neg_iff_toInt.mp he, toInt_add_of_lt he⟩

/-- The magnitude of the exponent shrinks with every turn. -/
theorem wellFounded_turn : WellFounded fun s' s : F × Int32 => StrideTurn s s' := by
  refine Subrelation.wf ?_ (measure fun s : F × Int32 => s.2.toInt.natAbs).wf
  intro s' s h
  show s'.2.toInt.natAbs < s.2.toInt.natAbs
  rcases h.toInt with ⟨hlarge, hnext⟩ | ⟨hlarge, hnext⟩ <;> omega

/-- The exponent does not change its sign on the way. -/
theorem sign_of_turns (h : ReflTransGen StrideTurn (x, e) s) :
    (0 ≤ e.toInt → 0 ≤ s.2.toInt) ∧ (e.toInt ≤ 0 → s.2.toInt ≤ 0) := by
  induction h with
  | refl => exact ⟨id, id⟩
  | tail _ hturn ih => rcases hturn.toInt with ⟨hlarge, hnext⟩ | ⟨hlarge, hnext⟩ <;> omega

/-- So every turn takes 64 off the exponent, in the direction of the first one. -/
theorem turn_of_turns (h : ReflTransGen StrideTurn (x, e) s) (hturn : StrideTurn s s') :
    s'.2.toInt = s.2.toInt - 64 * e.toInt.sign := by
  obtain ⟨hpos, hneg⟩ := sign_of_turns h
  rcases hturn.toInt with ⟨hlarge, hnext⟩ | ⟨hlarge, hnext⟩
  · rw [Int.sign_eq_one_of_pos (by omega)]
    omega
  · rw [Int.sign_eq_neg_one_of_neg (by omega)]
    omega

/-- A turn is what the strides begin with. -/
theorem StrideTurn.takeStrides (h : StrideTurn s s') :
    takeStrides s.1 s.2.toInt = takeStrides s'.1 s'.2.toInt := by
  cases h with
  | @up x e he hx =>
    have hlarge : scaleStride < e.toInt := lt_iff_toInt.mp he
    show DiffTape.takeStrides x e.toInt = DiffTape.takeStrides (x * strideUp) (e - 64).toInt
    rw [DiffTape.takeStrides, if_pos ⟨hlarge, hx⟩, toInt_sub_of_lt he]
    rfl
  | @down x e he hx =>
    have hlarge : e.toInt < -scaleStride := lt_neg_iff_toInt.mp he
    have hup : ¬ (scaleStride < e.toInt ∧ canScale x = true) := by
      unfold scaleStride at hlarge ⊢
      omega
    show DiffTape.takeStrides x e.toInt = DiffTape.takeStrides (x * strideDown) (e + 64).toInt
    rw [DiffTape.takeStrides, if_neg hup, if_pos ⟨hlarge, hx⟩, toInt_add_of_lt he]
    rfl

/-- Where there is no turn left, the strides are at their end. -/
theorem takeStrides_of_end (h : ∀ s', ¬ StrideTurn s s') :
    takeStrides s.1 s.2.toInt = (s.1, s.2.toInt) := by
  obtain ⟨x, e⟩ := s
  have hup : ¬ (scaleStride < e.toInt ∧ canScale x = true) := fun ⟨hlarge, hx⟩ =>
    h _ (.up (lt_iff_toInt.mpr hlarge) hx)
  have hdown : ¬ (e.toInt < -scaleStride ∧ canScale x = true) := fun ⟨hlarge, hx⟩ =>
    h _ (.down (lt_neg_iff_toInt.mpr hlarge) hx)
  rw [takeStrides, if_neg hup, if_neg hdown]

/-- The loops end where the strides end. -/
theorem exists_end_of_turns (s : F × Int32) :
    ∃ s', ReflTransGen StrideTurn s s' ∧ (∀ s'', ¬ StrideTurn s' s'') ∧
      takeStrides s.1 s.2.toInt = (s'.1, s'.2.toInt) := by
  induction s using (wellFounded_turn (F := F)).induction with
  | _ s ih =>
    by_cases hend : ∀ s', ¬ StrideTurn s s'
    · exact ⟨s, .refl, hend, takeStrides_of_end hend⟩
    · push Not at hend
      obtain ⟨next, hturn⟩ := hend
      obtain ⟨s', hturns, hlast, hstrides⟩ := ih next hturn
      exact ⟨s', .head hturn hturns, hlast, hturn.takeStrides.trans hstrides⟩

end Turns

namespace Width

open Binary
open Scalar (two powi)
open Float.Model (Format)
open Float.Model.UnpackedFloat (Sign)

variable {w : Width} {x y : w.Number} {q : ℚ} {e k : ℤ}

/-! ## Numbers on the way -/

/-- A turn towards a product of the format does not round. -/
theorem exact_of_turn {s s' : w.Number × Int32} (h : StrideTurn s s')
    (hs : Scalar.isFinite s.1 = true)
    (hformat : InFormat w.format (w.value s.1 * 2 ^ s.2.toInt)) :
    Scalar.isFinite s'.1 = true ∧
      w.value s'.1 * 2 ^ s'.2.toInt = w.value s.1 * 2 ^ s.2.toInt := by
  have hself := inFormat_value w s.1
  cases h with
  | @up x e he hx =>
    have hlarge := lt_iff_toInt.mp he
    dsimp only at hs hformat hself ⊢
    obtain ⟨hfinite, hvalue, -⟩ := mul_isPower_exact hs w.isPower_strideUp
      (hself.between hformat (Or.inl ⟨by decide, hlarge.le⟩))
    refine ⟨hfinite, ?_⟩
    rw [hvalue, toInt_sub_of_lt he, mul_assoc, ← zpow_add₀ two_ne_zero, add_sub_cancel]
  | @down x e he hx =>
    have hlarge := lt_neg_iff_toInt.mp he
    dsimp only at hs hformat hself ⊢
    obtain ⟨hfinite, hvalue, -⟩ := mul_isPower_exact hs w.isPower_strideDown
      (hself.between hformat (Or.inr ⟨hlarge.le, by decide⟩))
    refine ⟨hfinite, ?_⟩
    rw [hvalue, toInt_add_of_lt he, mul_assoc, ← zpow_add₀ two_ne_zero, neg_add_cancel_comm_assoc]

/-- Every number on the way to a product of the format is exact. -/
theorem exact_of_turns {e : Int32} {s : w.Number × Int32} (h : ReflTransGen StrideTurn (x, e) s)
    (hx : Scalar.isFinite x = true) (hformat : InFormat w.format (w.value x * 2 ^ e.toInt)) :
    Scalar.isFinite s.1 = true ∧ w.value s.1 * 2 ^ s.2.toInt = w.value x * 2 ^ e.toInt := by
  induction h with
  | refl => exact ⟨hx, rfl⟩
  | tail _ hturn ih =>
    obtain ⟨hfinite, hvalue⟩ := ih
    rw [← hvalue] at hformat ⊢
    exact exact_of_turn hturn hfinite hformat

/-! ## Beyond the numbers -/

theorem settle_of_not_inRange {fmt : Format} {u : Float.Model.UnpackedFloat}
    (h : ¬ InRange fmt u) : settle fmt u = .infinity (Binary.sign u) := by
  cases u with
  | finite s m e hm => exact if_pos (not_le.mp h)
  | _ => exact absurd trivial h

/-- What is not below the power of two above the greatest number becomes infinite. -/
theorem Computes.infinity {s : Sign} (h : w.Computes q s y)
    (hq : 2 ^ w.format.mantissaBits * 2 ^ maxExponent w.format ≤ |q|) :
    w.unpack y = .infinity s := by
  obtain ⟨n, t, hrounds, hy⟩ := h.rounded
  have hout : ¬ InRange w.format (assemble w.format s n t) := by
    rw [inRange_iff w.minExponent_le_maxExponent (canonical_assemble _ hrounds),
      value_assemble s hrounds.le_two_pow, abs_factor_mul, abs_of_nonneg (by positivity)]
    intro hlt
    -- that power of two would be nearer
    have hpow := two_pow_mul_zpow w.format (maxExponent w.format)
    have hnear := hrounds.le (k := 2 ^ w.format.mantissaBitsWithoutImplicit)
      (Nat.pow_lt_pow_right (by decide) (by unfold Format.mantissaBits; omega))
      (le_trans w.minExponent_le_maxExponent (Int.le_add_one le_rfl))
    push_cast at hnear
    rw [← hpow, abs_of_nonneg (sub_nonneg.mpr hq), abs_of_pos (by linarith)] at hnear
    linarith
  rw [hy, settle_of_not_inRange hout, sign_assemble]

theorem mul_isPower_overflow (hx : Scalar.isFinite x = true) (hy : w.IsPower y k)
    (hq : 2 ^ w.format.mantissaBits * 2 ^ maxExponent w.format ≤ |w.value x * 2 ^ k|) :
    w.unpack (x * y) = .infinity (w.sign x) := by
  have hmul := computes_mul hx hy.finite
  rw [hy.value] at hmul
  rw [← hy.sign_mul hx, hmul.infinity hq, hmul.sign_eq]

/-- Scaling up further begins with a stride. -/
theorem scalePow2_of_gt (x : w.Number) (he : 64 < e) :
    scalePow2 x e = scalePow2 (x * strideUp) (e - 64) := by
  by_cases hscale : canScale x = true
  · unfold scalePow2
    rw [takeStrides, if_pos ⟨he, hscale⟩]
    rfl
  · rw [Bool.not_eq_true] at hscale
    rw [mul_isPower_of_not_canScale hscale w.isPower_strideUp,
      scalePow2_of_not_canScale hscale, scalePow2_of_not_canScale hscale]

theorem not_canScale_of_infinity {s : Sign} (h : w.unpack x = .infinity s) :
    canScale x = false := by
  refine canScale_eq_false (Or.inr (Or.inr ?_))
  rw [isFinite_eq, h]
  rfl

/-- A product that is not below the power of two above the greatest number.  The strides on the way
    are exact, up to the first one that overflows. -/
theorem scalePow2_overflow (hx : Scalar.isFinite x = true)
    (hq : 2 ^ w.format.mantissaBits * 2 ^ maxExponent w.format ≤ |w.value x * 2 ^ e|) :
    w.unpack (scalePow2 x e) = .infinity (w.sign x) := by
  induction hn : e.natAbs using Nat.strong_induction_on generalizing e x with
  | _ n ih =>
    -- scaling down does not leave the format
    have hpos : 0 < e := by
      by_contra hneg
      have hsmall : |w.value x * 2 ^ e| ≤ |w.value x| := by
        rw [abs_mul_two_zpow]
        exact mul_le_of_le_one_right (abs_nonneg _)
          (zpow_le_one_of_nonpos₀ one_le_two (not_lt.mp hneg))
      linarith [(inFormat_value w x).range]
    by_cases hlarge : 64 < e
    · rw [scalePow2_of_gt x hlarge]
      rcases lt_or_ge |w.value x * 2 ^ (64 : ℤ)|
        (2 ^ w.format.mantissaBits * 2 ^ maxExponent w.format) with hlt | hge
      · obtain ⟨hfinite, hvalue, hsign⟩ := mul_isPower_exact hx w.isPower_strideUp
          ⟨(inFormat_value w x).grid.scale_up (by decide), hlt⟩
        have hrest : w.value (x * strideUp) * 2 ^ (e - 64) = w.value x * 2 ^ e := by
          rw [hvalue, mul_assoc, ← zpow_add₀ two_ne_zero, add_sub_cancel]
        rw [← hsign]
        exact ih (e - 64).natAbs (by omega) hfinite (hrest ▸ hq) rfl
      · have hinf := mul_isPower_overflow hx w.isPower_strideUp hge
        rw [scalePow2_of_not_canScale (not_canScale_of_infinity hinf), hinf]
    · rw [scalePow2_of_natAbs_le x (by omega)]
      exact mul_isPower_overflow hx (w.isPower_powi (by omega)) hq

/-- What is above all numbers is not below the power of two above the greatest number. -/
theorem le_of_forall_value_lt (h : ∀ z : w.Number, Scalar.isFinite z = true →
      w.value z < |w.value x * 2 ^ e|) (hx : Scalar.isFinite x = true) :
    2 ^ w.format.mantissaBits * 2 ^ maxExponent w.format ≤ |w.value x * 2 ^ e| := by
  by_contra hlt
  have hself := h (Scalar.abs x) ((isFinite_abs x).trans hx)
  rw [value_abs, abs_mul_two_zpow] at hself
  have hpos : 0 ≤ e := by
    by_contra hneg
    have hsmall := mul_le_of_le_one_right (abs_nonneg (w.value x))
      (zpow_le_one_of_nonpos₀ (one_le_two (α := ℚ)) (not_le.mp hneg).le)
    linarith
  -- it would be a number itself
  obtain ⟨hfinite, hvalue, -⟩ := scalePow2_exact hx
    ⟨(inFormat_value w x).grid.scale_up hpos, not_le.mp hlt⟩
  have hbeyond := h (Scalar.abs (scalePow2 x e)) ((isFinite_abs _).trans hfinite)
  rw [value_abs, hvalue] at hbeyond
  exact lt_irrefl _ hbeyond

/-! ## Scaling -/

/-- Scaling by any 32-bit exponent.  The loops end, and no exponent on the way overflows; what they
    leave is multiplied by the power that is left.  If the exact product is a number, then that is
    the result, with the sign of `x`, and every number on the way is exact.  If it is beyond all
    numbers, the result is the infinity with the sign of `x`.  Zeros, infinities and NaN stay as they
    are. -/
theorem scalePow2_spec (x : w.Number) (e : Int32) :
    (WellFounded (fun s' s : w.Number × Int32 => StrideTurn s s') ∧
      (∀ s s', ReflTransGen StrideTurn (x, e) s → StrideTurn s s' →
        s'.2.toInt = s.2.toInt - 64 * e.toInt.sign) ∧
      ∃ s, ReflTransGen StrideTurn (x, e) s ∧ (∀ s', ¬ StrideTurn s s') ∧
        scalePow2 x e.toInt =
          if 64 < s.2.toInt.natAbs then s.1 else s.1 * powi two s.2.toInt) ∧
    (Scalar.isFinite x = true →
      (∃ y, Scalar.isFinite y = true ∧ w.value y = w.value x * 2 ^ e.toInt) →
      Scalar.isFinite (scalePow2 x e.toInt) = true ∧
        w.value (scalePow2 x e.toInt) = w.value x * 2 ^ e.toInt ∧
        w.sign (scalePow2 x e.toInt) = w.sign x ∧
        ∀ s, ReflTransGen StrideTurn (x, e) s → Scalar.isFinite s.1 = true ∧
          w.value s.1 * 2 ^ s.2.toInt = w.value x * 2 ^ e.toInt) ∧
    (Scalar.isFinite x = true →
      (∀ y : w.Number, Scalar.isFinite y = true → w.value y < |w.value x * 2 ^ e.toInt|) →
      w.unpack (scalePow2 x e.toInt) = .infinity (w.sign x)) ∧
    (x = 0 ∨ x = -0 ∨ Scalar.isFinite x = false → scalePow2 x e.toInt = x) := by
  refine ⟨⟨wellFounded_turn, fun s s' hs hturn => turn_of_turns hs hturn, ?_⟩,
    fun hx hy => ?_, fun hx hbeyond => scalePow2_overflow hx (le_of_forall_value_lt hbeyond hx),
    fun h => scalePow2_of_not_canScale (canScale_eq_false h) _⟩
  · obtain ⟨s, hturns, hlast, hstrides⟩ := exists_end_of_turns (x, e)
    refine ⟨s, hturns, hlast, ?_⟩
    unfold scalePow2
    rw [hstrides]
    dsimp only
    refine if_congr ?_ rfl rfl
    unfold scaleStride
    omega
  · obtain ⟨y, -, hvalue⟩ := hy
    have hformat : InFormat w.format (w.value x * 2 ^ e.toInt) := hvalue ▸ inFormat_value w y
    obtain ⟨hfinite, hproduct, hsign⟩ := scalePow2_exact hx hformat
    exact ⟨hfinite, hproduct, hsign, fun s hs => exact_of_turns hs hx hformat⟩

/-- The least number, scaled in five factors to one near the greatest; minus three, scaled by the
    greatest exponent; and the negative zero, scaled by the least. -/
theorem scalePow2_spec_at_extremes :
    ∃ x y z : Width.Number .single, x = Float32.ofBits 1 ∧ y = Float32.ofBits 0x7F000000 ∧
      z = (-3 : Float32) ∧ scalePow2 x 276 = y ∧
      Width.single.unpack (scalePow2 z Int32.maxValue.toInt) = .infinity .negative ∧
      scalePow2 (-0 : Width.Number .single) Int32.minValue.toInt = -0 := by
  obtain ⟨x, hx⟩ : ∃ x : Width.Number .single, x = Float32.ofBits 1 := ⟨_, rfl⟩
  obtain ⟨y, hy⟩ : ∃ y : Width.Number .single, y = Float32.ofBits 0x7F000000 := ⟨_, rfl⟩
  obtain ⟨z, hz⟩ : ∃ z : Width.Number .single, z = (-3 : Float32) := ⟨_, rfl⟩
  have hxu : Width.single.unpack x = .finite .positive 1 (-149) (by decide) := by
    rw [hx]
    rfl
  have hyu : Width.single.unpack y = .finite .positive (2 ^ 23) 104 (by decide) := by
    rw [hy]
    rfl
  have hzu : Width.single.unpack z = .finite .negative (3 * 2 ^ 22) (-22) (by decide) := by
    rw [hz]
    rfl
  have hxfinite : Scalar.isFinite x = true := by rw [isFinite_eq, hxu]; rfl
  have hyfinite : Scalar.isFinite y = true := by rw [isFinite_eq, hyu]; rfl
  have hzfinite : Scalar.isFinite z = true := by rw [isFinite_eq, hzu]; rfl
  -- the product with the least number is a number
  have hvalue : Width.single.value y = Width.single.value x * 2 ^ (276 : Int32).toInt := by
    unfold value
    rw [hxu, hyu, value_positive, value_positive, show (276 : Int32).toInt = 276 from rfl,
      mul_assoc, ← zpow_add₀ two_ne_zero]
    norm_num
  obtain ⟨hfinite, hproduct, hsign, -⟩ :=
    (scalePow2_spec x 276).2.1 hxfinite ⟨y, hyfinite, hvalue⟩
  have hsigns : Width.single.sign x = Width.single.sign y := by
    unfold sign
    rw [hxu, hyu]
    rfl
  -- that with minus three is beyond all numbers
  have hbeyond : ∀ y' : Width.Number .single, Scalar.isFinite y' = true →
      Width.single.value y' < |Width.single.value z * 2 ^ Int32.maxValue.toInt| := by
    intro y' _
    have hthree : |Width.single.value z| = 3 := by
      unfold value
      rw [hzu, abs_value_finite]
      norm_num
    have hpow : (2 : ℚ) ^ (Width.single.format.mantissaBits + maxExponent Width.single.format) ≤
        2 ^ Int32.maxValue.toInt := zpow_le_zpow_right₀ one_le_two (by decide)
    have hpos : (0 : ℚ) < 2 ^ Int32.maxValue.toInt := by positivity
    have hrange := abs_value_lt_zpow y'
    have hle := le_abs_self (Width.single.value y')
    rw [abs_mul_two_zpow, hthree]
    generalize (2 : ℚ) ^ Int32.maxValue.toInt = big at hpow hpos ⊢
    linarith
  have hinf := (scalePow2_spec z Int32.maxValue).2.2.1 hzfinite hbeyond
  have hneg : Width.single.sign z = .negative := by
    unfold sign
    rw [hzu]
    rfl
  rw [hneg] at hinf
  exact ⟨x, y, z, hx, hy, hz,
    eq_of_value hfinite hyfinite (hproduct.trans hvalue.symm) (hsign.trans hsigns), hinf,
    (scalePow2_spec (-0) Int32.minValue).2.2.2 (Or.inr (Or.inl rfl))⟩

end Width

end DiffTape
