/-
  THE NUMBERS OF A BINARY FORMAT.

  A number of a format is kept as bits.  Every operation takes its operands apart into sign,
  mantissa and exponent, computes, and packs the result.  Here is what the parts mean:

  1. `Canonical`    — the one way in which a format writes a number: the leading bit of the
                      mantissa is set, or the exponent is the least one.
  2. `unpack_pack`  — packing keeps a canonical number, except that one beyond the greatest
                      exponent becomes infinite (`settle`).
  3. `value`        — the rational number that the parts stand for.  Comparing numbers is comparing
                      values (`compare_eq`), and value and sign determine a finite number
                      (`Canonical.eq_of_value`).

  The second half says the same of `Width.Number`.
-/
import DiffTape.Decimal
import Mathlib

namespace DiffTape.Binary

open Float.Model (Format UnpackedFloat)
open Float.Model.UnpackedFloat

variable {fmt : Format}

/-! ## Exponents -/

/-- The exponent of the greatest finite numbers. -/
def maxExponent (fmt : Format) : ℤ := fmt.exponentBias - fmt.mantissaBitsWithoutImplicit

/-- The least exponent is that of the exponent field `1`, as the mantissa is counted as an
    integer. -/
theorem minExponent_eq (fmt : Format) :
    fmt.minExponent = 1 - (fmt.exponentBias + fmt.mantissaBitsWithoutImplicit : ℤ) := by
  have hpos : 1 ≤ 2 ^ (fmt.exponentBits - 1) := Nat.one_le_two_pow
  unfold Format.minExponent Format.exponentBias Format.mantissaBits
  push_cast [Nat.cast_sub hpos]
  ring

/-- The exponent field has a state for every exponent, and two more. -/
theorem two_pow_exponentBits (fmt : Format) : 2 ^ fmt.exponentBits = 2 * fmt.exponentBias + 2 := by
  have hbits : fmt.exponentBits - 1 + 1 = fmt.exponentBits := Nat.sub_add_cancel fmt.he
  have hpos : 1 ≤ 2 ^ (fmt.exponentBits - 1) := Nat.one_le_two_pow
  have hpow : 2 ^ fmt.exponentBits = 2 * 2 ^ (fmt.exponentBits - 1) := by
    rw [← pow_succ', hbits]
  unfold Format.exponentBias
  omega

/-- A mantissa has one bit more than its field. -/
theorem two_pow_mantissaBits (fmt : Format) :
    2 ^ fmt.mantissaBits = 2 * 2 ^ fmt.mantissaBitsWithoutImplicit := by
  unfold Format.mantissaBits
  rw [Nat.add_comm, pow_succ']

/-- The powers of two between which the mantissas of one exponent with a leading bit are. -/
theorem two_pow_mul_zpow (fmt : Format) (e : ℤ) :
    (2 : ℚ) ^ fmt.mantissaBits * 2 ^ e = 2 ^ fmt.mantissaBitsWithoutImplicit * 2 ^ (e + 1) := by
  have hpow : (2 : ℚ) ^ fmt.mantissaBits = 2 * 2 ^ fmt.mantissaBitsWithoutImplicit := by
    exact_mod_cast two_pow_mantissaBits fmt
  rw [hpow, zpow_add_one₀ two_ne_zero]
  ring

/-! ## Canonical numbers -/

/-- A finite number has a mantissa that fits, and either its leading bit is set or it has the least
    exponent. -/
def Canonical (fmt : Format) : UnpackedFloat → Prop
  | .finite _ m e _ => m < 2 ^ fmt.mantissaBits ∧ fmt.minExponent ≤ e ∧
      (2 ^ fmt.mantissaBitsWithoutImplicit ≤ m ∨ e = fmt.minExponent)
  | _ => True

/-- A finite number does not have too large an exponent. -/
def InRange (fmt : Format) : UnpackedFloat → Prop
  | .finite _ _ e _ => e ≤ maxExponent fmt
  | _ => True

/-- What is beyond the greatest exponent becomes infinite. -/
def settle (fmt : Format) : UnpackedFloat → UnpackedFloat
  | .finite s m e h => if maxExponent fmt < e then .infinity s else .finite s m e h
  | u => u

/-- Nothing happens to what is in range. -/
theorem settle_of_inRange {u : UnpackedFloat} (h : InRange fmt u) : settle fmt u = u := by
  cases u with
  | finite s m e hm => exact if_neg (not_lt.mpr h)
  | _ => rfl

/-! ## Packing -/

theorem toNat_pos_of_ne_zero {n : ℕ} {b : BitVec n} (hb : b ≠ 0#n) : 0 < b.toNat := by
  rwa [BitVec.toNat_pos, BitVec.pos_iff_ne_zero]

theorem zero_ne_allOnes {n : ℕ} (hn : 0 < n) : (0#n) ≠ -1#n := by
  intro h
  have hnat := congrArg BitVec.toNat h
  rw [BitVec.neg_one_eq_allOnes, BitVec.toNat_allOnes, BitVec.toNat_zero] at hnat
  have := Nat.one_lt_two_pow hn.ne'
  omega

section Fields

variable {s : Sign} {e : BitVec fmt.exponentBits} {m : BitVec fmt.mantissaBitsWithoutImplicit}

/-- An exponent field of all ones is kept for what is not finite. -/
theorem unpack_infinity : unpack fmt (packComponents fmt s (-1#_) 0#_) = .infinity s := by
  unfold unpack
  simp

/-- With a mantissa besides it is not even infinite. -/
theorem unpack_notANumber (hm : m ≠ 0#_) :
    unpack fmt (packComponents fmt s (-1#_) m) = .notANumber := by
  unfold unpack
  simp [hm]

/-- Below the normal numbers the exponent field is zero, and stands for the least exponent. -/
theorem unpack_subnormal (hm : m ≠ 0#_) :
    unpack fmt (packComponents fmt s 0#_ m) =
      .finite s m.toNat fmt.minExponent (toNat_pos_of_ne_zero hm) := by
  have hexp : ((0#(fmt.exponentBits)).toNat : ℤ) -
      (fmt.exponentBias + fmt.mantissaBitsWithoutImplicit) + 1 = fmt.minExponent := by
    rw [minExponent_eq, BitVec.toNat_zero]
    ring
  unfold unpack
  simp only [unpackSign_packComponents, Sign.ofBitVec_toBitVec, unpackExponent_packComponents,
    unpackMantissa_packComponents, hexp]
  rw [if_neg (zero_ne_allOnes fmt.he), if_pos trivial, dif_neg hm]

/-- The leading bit of a normal number is not among its bits. -/
theorem toNat_implicit_append (m : BitVec fmt.mantissaBitsWithoutImplicit) :
    (1#1 ++ m).toNat = 2 ^ fmt.mantissaBitsWithoutImplicit + m.toNat := by
  rw [BitVec.toNat_append, ← Nat.shiftLeft_add_eq_or_of_lt m.isLt]
  simp [Nat.shiftLeft_eq]

/-- Everywhere else the field is the exponent, and the mantissa has a leading bit that is not
    kept. -/
theorem unpack_normal (hne : e ≠ -1#_) (hzero : e ≠ 0#_) :
    unpack fmt (packComponents fmt s e m) =
      .finite s (2 ^ fmt.mantissaBitsWithoutImplicit + m.toNat)
        (e.toNat - (fmt.exponentBias + fmt.mantissaBitsWithoutImplicit))
        (Nat.add_pos_left (Nat.two_pow_pos _) _) := by
  unfold unpack
  simp only [unpackSign_packComponents, Sign.ofBitVec_toBitVec, unpackExponent_packComponents,
    unpackMantissa_packComponents, toNat_implicit_append]
  rw [if_neg hne, if_neg hzero]

end Fields

/-- The states of the exponent field. -/
theorem toNat_lt_of_ne_allOnes {n : ℕ} {e : BitVec n} (h : e ≠ -1#n) : e.toNat + 1 < 2 ^ n := by
  have hlt := e.isLt
  have hne : e.toNat ≠ 2 ^ n - 1 := by
    intro heq
    refine h (BitVec.eq_of_toNat_eq ?_)
    rw [heq, BitVec.neg_one_eq_allOnes, BitVec.toNat_allOnes]
  omega

/-- What is unpacked is one of five. -/
theorem unpack_cases (b : BitVec fmt.numBits) :
    (∃ s, b = packComponents fmt s (-1#_) 0#_ ∧ unpack fmt b = .infinity s) ∨
    (∃ s m, m ≠ 0#_ ∧ b = packComponents fmt s (-1#_) m ∧ unpack fmt b = .notANumber) ∨
    (∃ s, b = packedZero fmt s ∧ unpack fmt b = .zero s) ∨
    (∃ s m hm, b = packComponents fmt s 0#_ m ∧
      unpack fmt b = .finite s m.toNat fmt.minExponent hm) ∨
    ∃ s e m hm, e ≠ -1#_ ∧ e ≠ 0#_ ∧ b = packComponents fmt s e m ∧
      unpack fmt b = .finite s (2 ^ fmt.mantissaBitsWithoutImplicit + m.toNat)
        (e.toNat - (fmt.exponentBias + fmt.mantissaBitsWithoutImplicit)) hm := by
  rw [← packComponents_unpackSign_unpackExponent_unpackMantissa b]
  generalize Sign.ofBitVec (unpackSign b) = s
  generalize unpackExponent b = e
  generalize unpackMantissa b = m
  -- the exponent field decides: all ones, zero, or an exponent
  by_cases hones : e = -1#_
  · subst hones
    by_cases hm : m = 0#_
    · subst hm
      exact .inl ⟨s, rfl, unpack_infinity⟩
    · exact .inr (.inl ⟨s, m, hm, rfl, unpack_notANumber hm⟩)
  · by_cases hzero : e = 0#_
    · subst hzero
      by_cases hm : m = 0#_
      · subst hm
        exact .inr (.inr (.inl ⟨s, rfl, unpack_packedZero⟩))
      · exact .inr (.inr (.inr (.inl ⟨s, m, _, rfl, unpack_subnormal hm⟩)))
    · exact .inr (.inr (.inr (.inr ⟨s, e, m, _, hones, hzero, rfl, unpack_normal hones hzero⟩)))

/-- What is unpacked is canonical: the format writes nothing else. -/
theorem canonical_unpack (b : BitVec fmt.numBits) : Canonical fmt (unpack fmt b) := by
  have hexp := minExponent_eq fmt
  have hpow := two_pow_mantissaBits fmt
  rcases unpack_cases b with ⟨s, -, h⟩ | ⟨s, m, -, -, h⟩ | ⟨s, -, h⟩ | ⟨s, m, hm, -, h⟩ |
    ⟨s, e, m, hm, -, hzero, -, h⟩
  · rw [h]
    trivial
  · rw [h]
    trivial
  · rw [h]
    trivial
  · rw [h]
    have hlt := m.isLt
    exact ⟨by omega, le_refl _, Or.inr rfl⟩
  · rw [h]
    have hlt := m.isLt
    have hpos := toNat_pos_of_ne_zero hzero
    exact ⟨by omega, by omega, Or.inl (Nat.le_add_right _ _)⟩

/-- And it is in range, since the exponent field has no state above. -/
theorem inRange_unpack (hfmt : fmt.minExponent ≤ maxExponent fmt) (b : BitVec fmt.numBits) :
    InRange fmt (unpack fmt b) := by
  have hstates := two_pow_exponentBits fmt
  rcases unpack_cases b with ⟨s, -, h⟩ | ⟨s, m, -, -, h⟩ | ⟨s, -, h⟩ | ⟨s, m, hm, -, h⟩ |
    ⟨s, e, m, hm, hones, -, -, h⟩
  · rw [h]
    trivial
  · rw [h]
    trivial
  · rw [h]
    trivial
  · rw [h]
    exact hfmt
  · rw [h]
    have htop := toNat_lt_of_ne_allOnes hones
    show _ ≤ maxExponent fmt
    unfold maxExponent
    omega

/-- The log of a mantissa tells whether its leading bit is set. -/
theorem log2_add_one_eq_iff {m : ℕ} (hm : m ≠ 0) (hlt : m < 2 ^ fmt.mantissaBits) :
    m.log2 + 1 = fmt.mantissaBits ↔ 2 ^ fmt.mantissaBitsWithoutImplicit ≤ m := by
  rw [← Nat.le_log2 hm]
  have htop := (Nat.log2_lt hm).mpr hlt
  unfold Format.mantissaBits at htop ⊢
  omega

section Pack

variable {s : Sign} {m : ℕ} {e : ℤ} {hm : 0 < m}

/-- The exponent field of a number whose exponent is not too small. -/
theorem toNat_biased (hmin : fmt.minExponent ≤ e) :
    ((e + fmt.exponentBias + fmt.mantissaBitsWithoutImplicit).toNat : ℤ) =
      e + fmt.exponentBias + fmt.mantissaBitsWithoutImplicit := by
  have hexp := minExponent_eq fmt
  exact Int.toNat_of_nonneg (by omega)

/-- The exponents that do not fit the field are those that are too large. -/
theorem overflows_iff (hmin : fmt.minExponent ≤ e) :
    2 ^ fmt.exponentBits ≤ (e + fmt.exponentBias + fmt.mantissaBitsWithoutImplicit).toNat + 1 ↔
      maxExponent fmt < e := by
  have hstates := two_pow_exponentBits fmt
  have hbiased := toNat_biased hmin
  unfold maxExponent
  omega

/-- A normal number keeps its exponent, as its field is neither of the two that mean something
    else. -/
theorem unpack_pack_normal (h : Canonical fmt (.finite s m e hm)) (hrange : e ≤ maxExponent fmt)
    (hlead : 2 ^ fmt.mantissaBitsWithoutImplicit ≤ m) :
    unpack fmt (pack fmt (.finite s m e hm)) = .finite s m e hm := by
  obtain ⟨hlt, hmin, -⟩ := h
  have hexp := minExponent_eq fmt
  have hpow := two_pow_mantissaBits fmt
  have hbiased := toNat_biased hmin
  have hfits := mt (overflows_iff hmin).mp (not_lt.mpr hrange)
  unfold pack
  rw [if_neg hfits, if_pos ((log2_add_one_eq_iff hm.ne' hlt).mpr hlead)]
  generalize (e + fmt.exponentBias + fmt.mantissaBitsWithoutImplicit).toNat = b at hbiased hfits
  have hfield : (BitVec.ofNat fmt.exponentBits b).toNat = b := by
    rw [BitVec.toNat_ofNat, Nat.mod_eq_of_lt (by omega)]
  have hones : BitVec.ofNat fmt.exponentBits b ≠ -1#_ := by
    intro h
    have hnat := congrArg BitVec.toNat h
    rw [hfield, BitVec.neg_one_eq_allOnes, BitVec.toNat_allOnes] at hnat
    omega
  have hzero : BitVec.ofNat fmt.exponentBits b ≠ 0#_ := by
    intro h
    have hnat := congrArg BitVec.toNat h
    rw [hfield, BitVec.toNat_zero] at hnat
    omega
  -- the field drops the leading bit, and unpacking puts it back
  have hmant : 2 ^ fmt.mantissaBitsWithoutImplicit +
      (BitVec.ofNat fmt.mantissaBitsWithoutImplicit m).toNat = m := by
    rw [BitVec.toNat_ofNat, Nat.mod_eq_sub_mod hlead, Nat.mod_eq_of_lt (by omega)]
    omega
  rw [unpack_normal hones hzero]
  simp only [hmant, hfield]
  congr 1
  omega

/-- A number without a leading bit is at the least exponent, which the field zero stands for. -/
theorem unpack_pack_subnormal (h : Canonical fmt (.finite s m e hm)) (hrange : e ≤ maxExponent fmt)
    (hlead : ¬ 2 ^ fmt.mantissaBitsWithoutImplicit ≤ m) :
    unpack fmt (pack fmt (.finite s m e hm)) = .finite s m e hm := by
  obtain ⟨hlt, hmin, hcanon⟩ := h
  unfold pack
  rw [if_neg (mt (overflows_iff hmin).mp (not_lt.mpr hrange)),
    if_neg (mt (log2_add_one_eq_iff hm.ne' hlt).mp hlead)]
  have hmant : (BitVec.ofNat fmt.mantissaBitsWithoutImplicit m).toNat = m := by
    rw [BitVec.toNat_ofNat, Nat.mod_eq_of_lt (not_le.mp hlead)]
  have hzero : BitVec.ofNat fmt.mantissaBitsWithoutImplicit m ≠ 0#_ := by
    intro h
    have hnat := congrArg BitVec.toNat h
    rw [hmant, BitVec.toNat_zero] at hnat
    omega
  rw [unpack_subnormal hzero]
  simp only [hmant]
  congr 1
  exact (hcanon.resolve_left hlead).symm

end Pack

/-- Packing keeps canonical numbers, and lets those beyond the range overflow. -/
theorem unpack_pack {u : UnpackedFloat} (h : Canonical fmt u) :
    unpack fmt (pack fmt u) = settle fmt u := by
  cases u with
  | notANumber => exact unpack_packedNaN
  | infinity s => exact unpack_infinity
  | zero s => exact unpack_packedZero
  | finite s m e hm =>
    by_cases hover : maxExponent fmt < e
    · rw [settle, if_pos hover]
      unfold pack
      rw [if_pos ((overflows_iff h.2.1).mpr hover)]
      exact unpack_infinity
    · rw [settle, if_neg hover]
      have hrange := not_lt.mp hover
      by_cases hlead : 2 ^ fmt.mantissaBitsWithoutImplicit ≤ m
      · exact unpack_pack_normal h hrange hlead
      · exact unpack_pack_subnormal h hrange hlead

/-! ## Values -/

/-- One or minus one. -/
def factor : Sign → ℚ
  | .positive => 1
  | .negative => -1

/-- The rational number that an unpacked number stands for; `0` for infinities and NaN. -/
def value : UnpackedFloat → ℚ
  | .finite s m e _ => factor s * (m * 2 ^ e)
  | _ => 0

/-- The sign, also of a zero and an infinity. -/
def sign : UnpackedFloat → Sign
  | .infinity s | .zero s | .finite s _ _ _ => s
  | .notANumber => .positive

/-- The mantissa; zero has none of its bits set. -/
def mantissa : UnpackedFloat → ℕ
  | .finite _ m _ _ => m
  | _ => 0

theorem value_positive {m : ℕ} {e : ℤ} (hm : 0 < m) :
    value (.finite .positive m e hm) = m * 2 ^ e := one_mul _

theorem value_negative {m : ℕ} {e : ℤ} (hm : 0 < m) :
    value (.finite .negative m e hm) = -(m * 2 ^ e) := neg_one_mul _

theorem magnitude_pos {m : ℕ} (hm : 0 < m) (e : ℤ) : (0 : ℚ) < m * 2 ^ e := by
  positivity

/-- The magnitude is told by mantissa and exponent. -/
theorem abs_value_finite (s : Sign) {m : ℕ} {e : ℤ} (hm : 0 < m) :
    |value (.finite s m e hm)| = m * 2 ^ e := by
  have hpos := magnitude_pos hm e
  cases s with
  | positive => rw [value_positive, abs_of_pos hpos]
  | negative => rw [value_negative, abs_neg, abs_of_pos hpos]

/-- Of two canonical numbers the one with the larger exponent is the larger. -/
theorem magnitude_lt {s₁ s₂ : Sign} {m₁ m₂ : ℕ} {e₁ e₂ : ℤ} {hm₁ : 0 < m₁} {hm₂ : 0 < m₂}
    (h₁ : Canonical fmt (.finite s₁ m₁ e₁ hm₁)) (h₂ : Canonical fmt (.finite s₂ m₂ e₂ hm₂))
    (he : e₁ < e₂) : (m₁ : ℚ) * 2 ^ e₁ < m₂ * 2 ^ e₂ := by
  obtain ⟨hlt, hmin, -⟩ := h₁
  have hlead := h₂.2.2.resolve_right (ne_of_gt (lt_of_le_of_lt hmin he))
  have hpow := two_pow_mantissaBits fmt
  have hmant : (m₁ : ℚ) < m₂ * 2 := by
    have hnat : m₁ < m₂ * 2 := by omega
    exact_mod_cast hnat
  calc (m₁ : ℚ) * 2 ^ e₁ < m₂ * 2 * 2 ^ e₁ := mul_lt_mul_of_pos_right hmant (by positivity)
    _ = m₂ * 2 ^ (e₁ + 1) := by rw [zpow_add_one₀ two_ne_zero]; ring
    _ ≤ m₂ * 2 ^ e₂ := by
      refine mul_le_mul_of_nonneg_left ?_ (Nat.cast_nonneg m₂)
      exact zpow_le_zpow_right₀ one_le_two he

/-- Comparing canonical numbers by exponent and then by mantissa is comparing them. -/
theorem compare_magnitudes {s₁ s₂ : Sign} {m₁ m₂ : ℕ} {e₁ e₂ : ℤ} {hm₁ : 0 < m₁} {hm₂ : 0 < m₂}
    (h₁ : Canonical fmt (.finite s₁ m₁ e₁ hm₁)) (h₂ : Canonical fmt (.finite s₂ m₂ e₂ hm₂)) :
    (compare e₁ e₂).then (compare m₁ m₂) = compare ((m₁ : ℚ) * 2 ^ e₁) (m₂ * 2 ^ e₂) := by
  rcases lt_trichotomy e₁ e₂ with he | rfl | he
  · rw [compare_lt_iff_lt.mpr he, compare_lt_iff_lt.mpr (magnitude_lt h₁ h₂ he)]
    rfl
  · have hpos : (0 : ℚ) < 2 ^ e₁ := by positivity
    rw [compare_eq_iff_eq.mpr rfl]
    show compare m₁ m₂ = _
    rcases lt_trichotomy m₁ m₂ with hm | rfl | hm
    · rw [compare_lt_iff_lt.mpr hm,
        compare_lt_iff_lt.mpr (mul_lt_mul_of_pos_right (Nat.cast_lt.mpr hm) hpos)]
    · rw [compare_eq_iff_eq.mpr rfl, compare_eq_iff_eq.mpr rfl]
    · rw [compare_gt_iff_gt.mpr hm,
        compare_gt_iff_gt.mpr (mul_lt_mul_of_pos_right (Nat.cast_lt.mpr hm) hpos)]
  · rw [compare_gt_iff_gt.mpr he, compare_gt_iff_gt.mpr (magnitude_lt h₂ h₁ he)]
    rfl

/-- Negating turns a comparison around. -/
theorem compare_neg (q r : ℚ) : compare (-q) (-r) = (compare q r).swap := by
  rcases lt_trichotomy q r with h | rfl | h
  · rw [compare_lt_iff_lt.mpr h, compare_gt_iff_gt.mpr (neg_lt_neg h)]
    rfl
  · rw [compare_eq_iff_eq.mpr rfl, compare_eq_iff_eq.mpr rfl]
    rfl
  · rw [compare_gt_iff_gt.mpr h, compare_lt_iff_lt.mpr (neg_lt_neg h)]
    rfl

/-- Comparing finite numbers is comparing their values. -/
theorem compare_eq {a b : UnpackedFloat} (ha : Canonical fmt a) (hb : Canonical fmt b)
    (hfa : a.isFinite = true) (hfb : b.isFinite = true) :
    a.compare b = some (compare (value a) (value b)) := by
  cases a with
  | notANumber => cases hfa
  | infinity => cases hfa
  | zero s =>
    cases b with
    | notANumber => cases hfb
    | infinity => cases hfb
    | zero s' => exact congrArg some (compare_eq_iff_eq.mpr rfl).symm
    | finite s' m e hm =>
      have hpos := magnitude_pos hm e
      cases s' with
      | positive =>
        rw [value_positive]
        exact congrArg some (compare_lt_iff_lt.mpr hpos).symm
      | negative =>
        rw [value_negative]
        exact congrArg some (compare_gt_iff_gt.mpr (neg_lt_zero.mpr hpos)).symm
  | finite s m e hm =>
    have hpos := magnitude_pos hm e
    cases b with
    | notANumber => cases hfb
    | infinity => cases hfb
    | zero s' =>
      cases s with
      | positive =>
        rw [value_positive]
        exact congrArg some (compare_gt_iff_gt.mpr hpos).symm
      | negative =>
        rw [value_negative]
        exact congrArg some (compare_lt_iff_lt.mpr (neg_lt_zero.mpr hpos)).symm
    | finite s' m' e' hm' =>
      -- of one sign the magnitudes are compared, and otherwise the signs tell
      have hpos' := magnitude_pos hm' e'
      have hmagnitudes := compare_magnitudes ha hb
      cases s with
      | positive =>
        cases s' with
        | positive =>
          rw [value_positive, value_positive, ← hmagnitudes]
          rfl
        | negative =>
          rw [value_positive, value_negative]
          exact congrArg some (compare_gt_iff_gt.mpr (by linarith)).symm
      | negative =>
        cases s' with
        | positive =>
          rw [value_negative, value_positive]
          exact congrArg some (compare_lt_iff_lt.mpr (by linarith)).symm
        | negative =>
          rw [value_negative, value_negative, compare_neg, ← hmagnitudes]
          rfl

/-- Only zeros compare equal to a zero. -/
theorem beq_zero_iff {u : UnpackedFloat} {s : Sign} :
    u.beq (.zero s) = true ↔ ∃ s', u = .zero s' := by
  constructor
  · intro h
    cases u with
    | zero s' => exact ⟨s', rfl⟩
    | notANumber => cases h
    | infinity s' => cases s' <;> cases h
    | finite s' m e hm => cases s' <;> cases h
  · rintro ⟨s', rfl⟩
    rfl

/-- Only a zero has the value zero. -/
theorem value_eq_zero_iff {u : UnpackedFloat} (hu : u.isFinite = true) :
    value u = 0 ↔ u = .zero (sign u) := by
  cases u with
  | notANumber => cases hu
  | infinity => cases hu
  | zero s => exact ⟨fun _ => rfl, fun _ => rfl⟩
  | finite s m e hm =>
    refine ⟨fun h => ?_, fun h => nomatch h⟩
    rw [← abs_eq_zero, abs_value_finite] at h
    exact absurd h (magnitude_pos hm e).ne'

/-- Value and sign determine a finite number. -/
theorem Canonical.eq_of_value {a b : UnpackedFloat} (ha : Canonical fmt a) (hb : Canonical fmt b)
    (hfa : a.isFinite = true) (hfb : b.isFinite = true) (hv : value a = value b)
    (hs : sign a = sign b) : a = b := by
  -- a zero has its sign only; for anything else the larger exponent would be the larger number
  by_cases hzero : value a = 0
  · rw [(value_eq_zero_iff hfa).mp hzero, (value_eq_zero_iff hfb).mp (hv ▸ hzero), hs]
  · cases a with
    | notANumber => exact absurd rfl hzero
    | infinity => exact absurd rfl hzero
    | zero => exact absurd rfl hzero
    | finite s m e hm =>
      cases b with
      | notANumber => exact absurd hv hzero
      | infinity => exact absurd hv hzero
      | zero => exact absurd hv hzero
      | finite s' m' e' hm' =>
        obtain rfl : s = s' := hs
        have hmag : (m : ℚ) * 2 ^ e = m' * 2 ^ e' := by
          rw [← abs_value_finite s hm, hv, abs_value_finite]
        obtain rfl : e = e' := by
          rcases lt_trichotomy e e' with he | rfl | he
          · exact absurd hmag (magnitude_lt ha hb he).ne
          · rfl
          · exact absurd hmag (magnitude_lt hb ha he).ne'
        have hpow : (2 : ℚ) ^ e ≠ 0 := by positivity
        obtain rfl : m = m' := Nat.cast_injective (mul_right_cancel₀ hpow hmag)
        rfl

end DiffTape.Binary

/-! ## The two widths -/

namespace DiffTape.Width

open Float.Model (UnpackedFloat)
open Float.Model.UnpackedFloat (Sign unpack_inj_of_valid)
open Binary

variable {w : Width}

/-- The rational number that a finite number is. -/
def value (w : Width) (x : w.Number) : ℚ := Binary.value (w.unpack x)

/-- The sign, also of a zero. -/
def sign (w : Width) (x : w.Number) : Sign := Binary.sign (w.unpack x)

/-- The mantissa, with its leading bit. -/
def mantissa (w : Width) (x : w.Number) : ℕ := Binary.mantissa (w.unpack x)

/-- Both formats have finite numbers of every exponent in between. -/
theorem minExponent_le_maxExponent (w : Width) : w.format.minExponent ≤ maxExponent w.format := by
  cases w <;> decide

theorem canonical_unpack (x : w.Number) : Canonical w.format (w.unpack x) := by
  cases w with
  | single => exact Binary.canonical_unpack _
  | double => exact Binary.canonical_unpack _

theorem inRange_unpack (x : w.Number) : InRange w.format (w.unpack x) := by
  cases w with
  | single => exact Binary.inRange_unpack (minExponent_le_maxExponent .single) _
  | double => exact Binary.inRange_unpack (minExponent_le_maxExponent .double) _

/-- Numbers are told apart by their parts: of the patterns of bits that are no number, a width has
    one only. -/
theorem unpack_injective (w : Width) : Function.Injective w.unpack := by
  intro x y h
  cases w with
  | single =>
    obtain ⟨⟨⟨b⟩, hb⟩⟩ := x
    obtain ⟨⟨⟨b'⟩, hb'⟩⟩ := y
    obtain rfl : b = b' := (unpack_inj_of_valid hb hb').mp h
    rfl
  | double =>
    obtain ⟨⟨⟨b⟩, hb⟩⟩ := x
    obtain ⟨⟨⟨b'⟩, hb'⟩⟩ := y
    obtain rfl : b = b' := (unpack_inj_of_valid hb hb').mp h
    rfl

/-! ### Every operation, by its operands taken apart -/

theorem isFinite_eq (x : w.Number) : Scalar.isFinite x = (w.unpack x).isFinite := by
  cases w <;> rfl

theorem isNaN_eq (x : w.Number) : Scalar.isNaN x = (w.unpack x).isNaN := by
  cases w <;> rfl

theorem floorInt?_eq (x : w.Number) : Scalar.floorInt? x = floorUnpacked? (w.unpack x) := by
  cases w <;> rfl

theorem beq_eq (x y : w.Number) : (x == y) = (w.unpack x).beq (w.unpack y) := by
  cases w <;> rfl

theorem lt_iff (x y : w.Number) : x < y ↔ (w.unpack x).lt (w.unpack y) = true := by
  cases w with
  | single => exact decide_eq_true_iff
  | double => exact decide_eq_true_iff

theorem unpack_zero : w.unpack 0 = .zero .positive := by
  cases w <;> rfl

theorem unpack_neg_zero : w.unpack (-0) = .zero .negative := by
  cases w <;> rfl

/-- A product of numbers is the product of their parts, packed. -/
theorem unpack_mul {x y : w.Number}
    (h : Canonical w.format (UnpackedFloat.mul w.format (w.unpack x) (w.unpack y))) :
    w.unpack (x * y) =
      settle w.format (UnpackedFloat.mul w.format (w.unpack x) (w.unpack y)) := by
  rw [← unpack_pack h]
  cases w <;> rfl

/-- And so is a quotient. -/
theorem unpack_div {x y : w.Number}
    (h : Canonical w.format (UnpackedFloat.div w.format (w.unpack x) (w.unpack y))) :
    w.unpack (x / y) =
      settle w.format (UnpackedFloat.div w.format (w.unpack x) (w.unpack y)) := by
  rw [← unpack_pack h]
  cases w <;> rfl

/-- The magnitude of a number differs from it in its sign only. -/
theorem unpack_abs (x : w.Number) : w.unpack (Scalar.abs x) = (w.unpack x).abs := by
  have hcanon : Canonical w.format (w.unpack x).abs := by
    have h := canonical_unpack x
    generalize w.unpack x = u at h ⊢
    cases u <;> exact h
  have hrange : InRange w.format (w.unpack x).abs := by
    have h := inRange_unpack x
    generalize w.unpack x = u at h ⊢
    cases u <;> exact h
  rw [← settle_of_inRange hrange, ← unpack_pack hcanon]
  cases w <;> rfl

/-! ### Comparing is comparing values -/

section Compare

variable {x y : w.Number}

/-- Order is order of values, so proofs about numbers go on with rationals. -/
theorem lt_iff_value (hx : Scalar.isFinite x = true) (hy : Scalar.isFinite y = true) :
    x < y ↔ w.value x < w.value y := by
  rw [isFinite_eq] at hx hy
  rw [lt_iff, UnpackedFloat.lt, compare_eq (canonical_unpack x) (canonical_unpack y) hx hy,
    beq_iff_eq, Option.some_inj]
  exact compare_lt_iff_lt

/-- And being equal is being equal in value, which the two zeros are. -/
theorem beq_iff_value (hx : Scalar.isFinite x = true) (hy : Scalar.isFinite y = true) :
    (x == y) = true ↔ w.value x = w.value y := by
  rw [isFinite_eq] at hx hy
  rw [beq_eq, UnpackedFloat.beq, compare_eq (canonical_unpack x) (canonical_unpack y) hx hy,
    beq_iff_eq, Option.some_inj]
  exact compare_eq_iff_eq

/-- Value and sign determine a finite number. -/
theorem eq_of_value (hx : Scalar.isFinite x = true) (hy : Scalar.isFinite y = true)
    (hv : w.value x = w.value y) (hs : w.sign x = w.sign y) : x = y := by
  rw [isFinite_eq] at hx hy
  exact w.unpack_injective
    ((canonical_unpack x).eq_of_value (canonical_unpack y) hx hy hv hs)

theorem isFinite_zero : Scalar.isFinite (0 : w.Number) = true := by
  rw [isFinite_eq, unpack_zero]
  rfl

theorem value_zero : w.value 0 = 0 := by
  unfold value
  rw [unpack_zero]
  rfl

/-- What compares equal to zero is one of the two zeros. -/
theorem beq_zero_iff : (x == 0) = true ↔ x = 0 ∨ x = -0 := by
  rw [beq_eq, unpack_zero, Binary.beq_zero_iff, ← w.unpack_injective.eq_iff,
    ← w.unpack_injective.eq_iff (b := -0), unpack_zero, unpack_neg_zero]
  constructor
  · rintro ⟨s, h⟩
    cases s with
    | positive => exact Or.inl h
    | negative => exact Or.inr h
  · rintro (h | h)
    · exact ⟨_, h⟩
    · exact ⟨_, h⟩

end Compare

end DiffTape.Width
