/-
  ROUNDING TO A BINARY FORMAT.

  An operation computes its exact result as a mantissa that may be too long, and shifts it to the
  right until it fits.  Two bits keep what was shifted out: the last bit, and whether there was a
  bit set before it.

  1. `Represents.shiftRight`   — so a shifted mantissa still represents the exact result;
  2. `Represents.nearestInt`   — and rounds to the nearest integer, of two to the even one.
  3. `roundWithAccuracy_eq`    — the place it is shifted to depends on the result (`Rounds`);
  4. `Rounds.le`, `Rounds.tie` — and there it is nearest among all numbers of the format.
  5. `Computes.roundsTo`       — so a product of numbers is the exact product rounded once, and is
                                 exact if that is a number (`Computes.value_of_inFormat`).

  The steps up to 4 are about magnitudes.  Signs are multiplied.
-/
import DiffTape.Proofs.Formats

namespace DiffTape.Binary

open Float.Model (Format UnpackedFloat totalExponent)
open Float.Model.UnpackedFloat

variable {fmt : Format} {q : ℚ} {n : ℕ}

/-! ## The nearest integer -/

/-- No integer is nearer to `q` than `n`, and if another one is as near then `n` is even. -/
def NearestInt (q : ℚ) (n : ℕ) : Prop := |q - n| ≤ 1 / 2 ∧ (|q - n| = 1 / 2 → Even n)

/-- Integers are one apart. -/
theorem one_le_abs_sub {n k : ℕ} (h : k ≠ n) : (1 : ℚ) ≤ |(k : ℚ) - n| := by
  have hint : (1 : ℤ) ≤ |(k : ℤ) - n| := Int.one_le_abs (sub_ne_zero.mpr (Nat.cast_injective.ne h))
  exact_mod_cast hint

/-- Half a unit is near enough: every other integer is a unit away from `n`. -/
theorem NearestInt.le (h : NearestInt q n) (k : ℕ) : |q - n| ≤ |q - k| := by
  by_cases hk : k = n
  · rw [hk]
  · have hapart := one_le_abs_sub hk
    have htri := abs_sub_le (k : ℚ) q n
    rw [abs_sub_comm (k : ℚ) q] at htri
    linarith [h.1]

/-- Two integers are as near only half way between them, where the even one is taken. -/
theorem NearestInt.tie (h : NearestInt q n) {k : ℕ} (hk : |q - k| = |q - n|) :
    k = n ∨ Even n := by
  by_cases heq : k = n
  · exact Or.inl heq
  · have hapart := one_le_abs_sub heq
    have htri := abs_sub_le (k : ℚ) q n
    rw [abs_sub_comm (k : ℚ) q] at htri
    exact Or.inr (h.2 (le_antisymm h.1 (by linarith)))

/-! ## Mantissas with two more bits

  The round bit is the bit that was shifted out last, and the sticky bit tells whether a bit was set
  before it.  `Represents` is the invariant of shifting.  Of what was shifted out it keeps whether
  it is less than half a unit, and whether it is exactly zero or exactly half a unit. -/

/-- What the round bit stands for. -/
def half (bit : Bool) : ℚ := if bit then 1 / 2 else 0

/-- A half unit at most, and never less than nothing. -/
theorem half_nonneg (bit : Bool) : 0 ≤ half bit := by
  cases bit <;> norm_num [half]

theorem half_le (bit : Bool) : half bit ≤ 1 / 2 := by
  cases bit <;> norm_num [half]

/-- What the mantissa and the round bit say is not more than half a unit below the number, and the
    sticky bit tells whether it is the number. -/
structure Represents (q : ℚ) (em : ExtendedMantissa) : Prop where
  le : em.mantissa + half em.roundBit ≤ q
  lt : q < em.mantissa + half em.roundBit + 1 / 2
  exact_iff : q = em.mantissa + half em.roundBit ↔ em.stickyBit = false

/-- The mantissa alone is the number, cut. -/
theorem Represents.mantissa_le {em : ExtendedMantissa} (h : Represents q em) : em.mantissa ≤ q := by
  linarith [h.le, half_nonneg em.roundBit]

/-- And it is cut by less than a unit. -/
theorem Represents.lt_mantissa {em : ExtendedMantissa} (h : Represents q em) :
    q < em.mantissa + 1 := by
  linarith [h.lt, half_le em.roundBit]

/-- A mantissa that is exact represents itself, with both bits clear. -/
theorem represents_exact (m : ℕ) : Represents m (.ofMantissaAndAccuracy m .exact) :=
  ⟨by norm_num [ExtendedMantissa.ofMantissaAndAccuracy, half],
    by norm_num [ExtendedMantissa.ofMantissaAndAccuracy, half],
    by simp [ExtendedMantissa.ofMantissaAndAccuracy, half]⟩

/-- Two bits are enough to round: the first tells on which side of half a unit the rest is, the
    second whether it is exactly there. -/
theorem Represents.nearestInt {em : ExtendedMantissa} (h : Represents q em) :
    NearestInt q em.roundedMantissa := by
  obtain ⟨m, round, sticky⟩ := em
  obtain ⟨hle, hlt, hexact⟩ := h
  dsimp only at hle hlt hexact
  cases round with
  | false =>
    -- less than half a unit is dropped
    have hround : (ExtendedMantissa.mk m false sticky).roundedMantissa = m := by
      cases sticky <;> rfl
    simp only [half, Bool.false_eq_true, if_false, add_zero] at hle hlt
    rw [hround]
    unfold NearestInt
    rw [abs_of_nonneg (by linarith)]
    exact ⟨by linarith, fun h => by linarith⟩
  | true =>
    simp only [half, if_true] at hle hlt hexact
    cases sticky with
    | false =>
      -- a tie: the bit that is added makes the mantissa even
      have hq : q = m + 1 / 2 := hexact.mpr rfl
      -- nothing is added to an even mantissa, and one to an odd one
      show |q - (m + m % 2 : ℕ)| ≤ 1 / 2 ∧ (_ → Even (m + m % 2))
      rcases Nat.even_or_odd m with heven | hodd
      · rw [Nat.even_iff.mp heven, Nat.add_zero, hq, add_sub_cancel_left]
        exact ⟨by norm_num, fun _ => heven⟩
      · rw [Nat.odd_iff.mp hodd, hq]
        push_cast
        refine ⟨?_, fun _ => hodd.add_one⟩
        rw [abs_of_neg (by linarith)]
        linarith
    | true =>
      -- more than half a unit, so the next integer is nearer
      have hne : q ≠ m + 1 / 2 := fun h => absurd (hexact.mp h) (by decide)
      have hlo := lt_of_le_of_ne hle hne.symm
      show |q - (m + 1 : ℕ)| ≤ 1 / 2 ∧ (|q - (m + 1 : ℕ)| = 1 / 2 → _)
      push_cast
      rw [abs_of_neg (by linarith)]
      exact ⟨by linarith, fun h => by linarith⟩

/-- A shift halves the number. -/
theorem Represents.shiftRightOne {em : ExtendedMantissa} (h : Represents q em) :
    Represents (q / 2) em.shiftRightOne := by
  obtain ⟨m, round, sticky⟩ := em
  obtain ⟨hle, hlt, hexact⟩ := h
  dsimp only at hle hlt hexact
  have hnonneg := half_nonneg round
  have hsmall := half_le round
  -- the bit that leaves the mantissa is the new round bit, and the old one joins the sticky bit
  have hm : (m : ℚ) = 2 * (m / 2 : ℕ) + 2 * half (m % 2 != 0) := by
    rcases Nat.mod_two_eq_zero_or_one m with hbit | hbit
    · rw [hbit]
      simp only [half, bne_self_eq_false, Bool.false_eq_true, if_false, mul_zero, add_zero]
      exact_mod_cast (by omega : m = 2 * (m / 2))
    · rw [hbit]
      norm_num [half]
      exact_mod_cast (by omega : m = 2 * (m / 2) + 1)
  refine ⟨?_, ?_, ?_⟩
  · show ((m / 2 : ℕ) : ℚ) + half (m % 2 != 0) ≤ q / 2
    linarith
  · show q / 2 < ((m / 2 : ℕ) : ℚ) + half (m % 2 != 0) + 1 / 2
    linarith
  · show q / 2 = ((m / 2 : ℕ) : ℚ) + half (m % 2 != 0) ↔ (round || sticky) = false
    rw [Bool.or_eq_false_iff]
    -- nothing is lost exactly if the bit that is now beyond the round bit was clear, as all before
    constructor
    · intro hq
      obtain rfl : round = false := by
        cases round with
        | false => rfl
        | true =>
          simp only [half, if_true] at hle
          linarith
      exact ⟨rfl, hexact.mp (by simp only [half, Bool.false_eq_true, if_false]; linarith)⟩
    · rintro ⟨rfl, rfl⟩
      have hq := hexact.mpr rfl
      simp only [half, Bool.false_eq_true, if_false] at hq
      linarith

/-- A shift by `k` places is `k` shifts, so the two bits sum up all that was shifted out. -/
theorem Represents.shiftRight {em : ExtendedMantissa} (h : Represents q em) (k : ℕ) :
    Represents (q / 2 ^ k) (em >>> k) := by
  induction k with
  | zero =>
    rw [pow_zero, div_one]
    exact h
  | succ k ih =>
    rw [pow_succ, ← div_div]
    exact ih.shiftRightOne

/-! ## The place of the last bit

  Nearest among the integers is not yet nearest in the format, whose numbers have places of their
  own.  At a place below `t` there are numbers between the integers at `t`; but if they fit they are
  so small that they are farther away (`unit_or_lt`).  So it is enough to compare with the multiples
  of the unit. -/

/-- `n · 2 ^ t` is what a magnitude `q` is rounded to.  Counted in units of the last place `t`, the
    mantissa of `q` fits, and its leading bit is set unless the place is the least one. -/
structure Rounds (fmt : Format) (q : ℚ) (n : ℕ) (t : ℤ) : Prop where
  least : fmt.minExponent ≤ t
  lt : q / 2 ^ t < 2 ^ fmt.mantissaBits
  lead : t = fmt.minExponent ∨ 2 ^ fmt.mantissaBitsWithoutImplicit ≤ q / 2 ^ t
  nearest : NearestInt (q / 2 ^ t) n

namespace Rounds

variable {t u : ℤ} {k : ℕ}

/-- Rounding up can make a mantissa one bit too long, and then it is a power of two. -/
theorem le_two_pow (h : Rounds fmt q n t) : n ≤ 2 ^ fmt.mantissaBits := by
  -- the power of two is above `q`, so `n` is not farther above
  have hle := h.nearest.le (2 ^ fmt.mantissaBits)
  have hlt := h.lt
  push_cast at hle
  rw [abs_of_neg (sub_neg_of_lt hlt)] at hle
  have hn := (abs_le.mp hle).1
  have hcast : (n : ℚ) ≤ (2 ^ fmt.mantissaBits : ℕ) := by
    push_cast
    linarith
  exact_mod_cast hcast

/-- Rounding down never loses the leading bit, for the power of two below is an integer too. -/
theorem two_pow_le (h : Rounds fmt q n t) :
    t = fmt.minExponent ∨ 2 ^ fmt.mantissaBitsWithoutImplicit ≤ n := by
  refine h.lead.imp_right fun hlead => ?_
  have hle := h.nearest.le (2 ^ fmt.mantissaBitsWithoutImplicit)
  push_cast at hle
  rw [abs_of_nonneg (sub_nonneg.mpr hlead)] at hle
  have hn := (abs_le.mp hle).2
  have hcast : ((2 ^ fmt.mantissaBitsWithoutImplicit : ℕ) : ℚ) ≤ n := by
    push_cast
    linarith
  exact_mod_cast hcast

/-- Distances count in units of the last place. -/
theorem abs_sub_unit (q : ℚ) (k : ℕ) (t : ℤ) :
    |q - k * 2 ^ t| = |q / 2 ^ t - k| * 2 ^ t := by
  have hpos : (0 : ℚ) < 2 ^ t := by positivity
  rw [← abs_of_pos hpos, ← abs_mul, abs_of_pos hpos, sub_mul, div_mul_cancel₀ _ hpos.ne']

/-- A number of the format has no bit below the last place, or it is so small that it is farther
    away than the rounded one. -/
theorem unit_or_lt (h : Rounds fmt q n t) (hk : k < 2 ^ fmt.mantissaBits)
    (hu : fmt.minExponent ≤ u) :
    (∃ k' : ℕ, (k : ℚ) * 2 ^ u = k' * 2 ^ t) ∨ |q - n * 2 ^ t| < |q - k * 2 ^ u| := by
  have hpos : (0 : ℚ) < 2 ^ t := by positivity
  by_cases htu : t ≤ u
  · -- at a place above `t` it is a multiple of the unit
    refine Or.inl ⟨k * 2 ^ (u - t).toNat, ?_⟩
    have hexp : ((u - t).toNat : ℤ) + t = u := by omega
    push_cast
    rw [mul_assoc, ← zpow_natCast, ← zpow_add₀ two_ne_zero, hexp]
  · right
    have hut : u + 1 ≤ t := by omega
    have hlead := h.lead.resolve_left (by omega)
    -- the number is below the least one that has its leading bit in the place of `q`
    have hsmall : (k : ℚ) * 2 ^ u < 2 ^ fmt.mantissaBitsWithoutImplicit * 2 ^ t := by
      have hmant : (k : ℚ) < 2 ^ fmt.mantissaBits := by exact_mod_cast hk
      calc (k : ℚ) * 2 ^ u < 2 ^ fmt.mantissaBits * 2 ^ u :=
            mul_lt_mul_of_pos_right hmant (by positivity)
        _ = 2 ^ fmt.mantissaBitsWithoutImplicit * 2 ^ (u + 1) := two_pow_mul_zpow fmt u
        _ ≤ 2 ^ fmt.mantissaBitsWithoutImplicit * 2 ^ t :=
            mul_le_mul_of_nonneg_left (zpow_le_zpow_right₀ one_le_two hut) (by positivity)
    have hq : 2 ^ fmt.mantissaBitsWithoutImplicit * 2 ^ t ≤ q := (le_div_iff₀ hpos).mp hlead
    -- `q` is at or above that least one, and the rounded number is not farther from `q` than it
    have hnear := h.nearest.le (2 ^ fmt.mantissaBitsWithoutImplicit)
    push_cast at hnear
    rw [abs_of_nonneg (sub_nonneg.mpr hlead)] at hnear
    calc |q - n * 2 ^ t| = |q / 2 ^ t - n| * 2 ^ t := abs_sub_unit q n t
      _ ≤ (q / 2 ^ t - 2 ^ fmt.mantissaBitsWithoutImplicit) * 2 ^ t :=
          mul_le_mul_of_nonneg_right hnear hpos.le
      _ = q - 2 ^ fmt.mantissaBitsWithoutImplicit * 2 ^ t := by
          rw [sub_mul, div_mul_cancel₀ _ hpos.ne']
      _ < q - k * 2 ^ u := by linarith
      _ ≤ |q - k * 2 ^ u| := le_abs_self _

/-- No number of the format is nearer. -/
theorem le (h : Rounds fmt q n t) (hk : k < 2 ^ fmt.mantissaBits) (hu : fmt.minExponent ≤ u) :
    |q - n * 2 ^ t| ≤ |q - k * 2 ^ u| := by
  rcases h.unit_or_lt hk hu with ⟨k', hk'⟩ | hlt
  · rw [hk', abs_sub_unit, abs_sub_unit]
    exact mul_le_mul_of_nonneg_right (h.nearest.le k') (by positivity)
  · exact hlt.le

/-- If another one is as near, the mantissa is even. -/
theorem tie (h : Rounds fmt q n t) (hk : k < 2 ^ fmt.mantissaBits) (hu : fmt.minExponent ≤ u)
    (htie : |q - k * 2 ^ u| = |q - n * 2 ^ t|) : (k : ℚ) * 2 ^ u = n * 2 ^ t ∨ Even n := by
  rcases h.unit_or_lt hk hu with ⟨k', hk'⟩ | hlt
  · have hpos : (0 : ℚ) < 2 ^ t := by positivity
    rw [hk', abs_sub_unit, abs_sub_unit] at htie
    rw [hk']
    refine (h.nearest.tie (mul_right_cancel₀ hpos.ne' htie)).imp_left ?_
    rintro rfl
    rfl
  · exact absurd htie hlt.ne'

end Rounds

/-! ## A mantissa that is shifted and rounded

  There are two shifts.  The first one makes room for the leading bit; the second one is for a
  mantissa that became too long when it was rounded up, and drops a zero. -/

/-- `± n · 2 ^ t`, where `n` fits or has become one bit too long by rounding up. -/
def assemble (fmt : Format) (s : Sign) (n : ℕ) (t : ℤ) : UnpackedFloat :=
  if h : n = 0 then .zero s
  else if n < 2 ^ fmt.mantissaBits then .finite s n t (Nat.pos_of_ne_zero h)
  else .finite s (2 ^ fmt.mantissaBitsWithoutImplicit) (t + 1) (Nat.two_pow_pos _)

/-- The accuracy of a mantissa goes into the bits after it. -/
theorem mantissa_ofMantissaAndAccuracy (m : ℕ) (acc : Accuracy) :
    (ExtendedMantissa.ofMantissaAndAccuracy m acc).mantissa = m := by
  cases acc with
  | exact => rfl
  | inexact order => cases order <;> rfl

/-- The leading bit is implicit, and counted among the bits. -/
theorem mantissaBits_eq (fmt : Format) :
    (fmt.mantissaBits : ℤ) = 1 + fmt.mantissaBitsWithoutImplicit := by
  unfold Format.mantissaBits
  push_cast
  rfl

/-- The second shift, which makes room for a mantissa that was rounded up to a power of two. -/
theorem shiftToTargetExponent_exact {t : ℤ} (hn : n ≤ 2 ^ fmt.mantissaBits)
    (ht : fmt.minExponent ≤ t) :
    let shifted := shiftToTargetExponent fmt n t .exact
    shifted.1.mantissa = (if n < 2 ^ fmt.mantissaBits then n
      else 2 ^ fmt.mantissaBitsWithoutImplicit) ∧
    shifted.2 = if n < 2 ^ fmt.mantissaBits then t else t + 1 := by
  intro shifted
  have hbits := mantissaBits_eq fmt
  by_cases hfits : n < 2 ^ fmt.mantissaBits
  · -- it fits, so there is nothing to shift
    have hlog : n.log2 < fmt.mantissaBits := by
      by_cases hzero : n = 0
      · rw [hzero, Nat.log2_zero]
        unfold Format.mantissaBits
        omega
      · exact (Nat.log2_lt hzero).mpr hfits
    have hshift : (fmt.targetExponent (totalExponent n t) - t).toNat = 0 := by
      unfold Format.targetExponent totalExponent
      omega
    rw [if_pos hfits, if_pos hfits]
    simp only [shifted, shiftToTargetExponent, shiftToExponent, hshift]
    exact ⟨rfl, Int.add_zero t⟩
  · -- it is the power of two itself, and one place is enough
    obtain rfl : n = 2 ^ fmt.mantissaBits := by omega
    have hshift : (fmt.targetExponent (totalExponent (2 ^ fmt.mantissaBits) t) - t).toNat = 1 := by
      unfold Format.targetExponent totalExponent
      rw [Nat.log2_two_pow]
      omega
    rw [if_neg hfits, if_neg hfits]
    simp only [shifted, shiftToTargetExponent, shiftToExponent, hshift]
    refine ⟨?_, rfl⟩
    show 2 ^ fmt.mantissaBits / 2 = _
    rw [two_pow_mantissaBits, Nat.mul_div_cancel_left _ Nat.zero_lt_two]

/-- What is left when the first shift is known: the mantissa is rounded, and made to fit again. -/
theorem roundWithAccuracy_of_shift {m : ℕ} {e t : ℤ} {acc : Accuracy} {em : ExtendedMantissa}
    (h : shiftToTargetExponent fmt m e acc = (em, t))
    (hn : em.roundedMantissa ≤ 2 ^ fmt.mantissaBits) (ht : fmt.minExponent ≤ t) (s : Sign) :
    roundWithAccuracy fmt s m e acc = assemble fmt s em.roundedMantissa t := by
  obtain ⟨hmant, hexp⟩ := shiftToTargetExponent_exact hn ht
  unfold roundWithAccuracy assemble
  rw [h]
  dsimp only
  generalize em.roundedMantissa = n at hmant hexp ⊢
  generalize shiftToTargetExponent fmt n t .exact = shifted at hmant hexp ⊢
  obtain ⟨⟨n', round, sticky⟩, t'⟩ := shifted
  dsimp only at hmant hexp ⊢
  subst hmant hexp
  by_cases hfits : n < 2 ^ fmt.mantissaBits
  · simp only [if_pos hfits]
  · have hn : n ≠ 0 := by
      rintro rfl
      exact hfits (Nat.two_pow_pos _)
    simp only [if_neg hfits]
    rw [dif_neg hn, dif_neg (Nat.two_pow_pos _).ne']

/-- The first shift, to the place that the leading bit calls for. -/
theorem Represents.rounds {m k : ℕ} {e t : ℤ} {acc : Accuracy}
    (hq : Represents q (.ofMantissaAndAccuracy m acc))
    (ht : t = fmt.targetExponent (totalExponent m e)) (hk : e + k = t) :
    Rounds fmt (q * 2 ^ e) (ExtendedMantissa.ofMantissaAndAccuracy m acc >>> k).roundedMantissa
      t := by
  have hbits := mantissaBits_eq fmt
  -- in units of the new place the number is `q`, shifted
  have hunit : q * 2 ^ e / 2 ^ t = q / 2 ^ k := by
    rw [← hk, zpow_add₀ two_ne_zero, zpow_natCast, mul_comm q,
      mul_div_mul_left _ _ (by positivity)]
  have hle := hq.mantissa_le
  have hlt := hq.lt_mantissa
  rw [mantissa_ofMantissaAndAccuracy] at hle hlt
  refine ⟨ht ▸ le_max_right _ _, ?_, ?_, ?_⟩
  -- the place is high enough for the mantissa to fit
  · have htop : (m : ℚ) + 1 ≤ 2 ^ (m.log2 + 1) := by exact_mod_cast Nat.lt_log2_self
    have hlog : m.log2 + 1 ≤ fmt.mantissaBits + k := by
      have hplace : totalExponent m e - fmt.mantissaBits ≤ t := ht ▸ le_max_left _ _
      unfold totalExponent at hplace
      omega
    rw [hunit, div_lt_iff₀ (by positivity), ← pow_add]
    exact lt_of_lt_of_le (lt_of_lt_of_le hlt htop) (pow_le_pow_right₀ one_le_two hlog)
  -- and no higher: the leading bit is there, or the place is the least one
  · rcases max_choice (totalExponent m e - fmt.mantissaBits) fmt.minExponent with hmax | hmax
    · right
      have hplace : t = totalExponent m e - fmt.mantissaBits := ht.trans hmax
      unfold totalExponent at hplace
      have hpos := fmt.hm
      -- zero would be shifted to the left, which this is not
      have hm : m ≠ 0 := by
        rintro rfl
        rw [Nat.log2_zero] at hplace
        omega
      have hlog : fmt.mantissaBitsWithoutImplicit + k = m.log2 := by omega
      rw [hunit, le_div_iff₀ (by positivity), ← pow_add, hlog]
      refine le_trans ?_ hle
      exact_mod_cast Nat.log2_self_le hm
    · exact Or.inl (ht.trans hmax)
  · rw [hunit]
    exact (hq.shiftRight k).nearestInt

/-- If there are not fewer bits than the format has, shifting and rounding gives the exact result
    rounded to the format. -/
theorem roundWithAccuracy_eq {m : ℕ} {e : ℤ} {acc : Accuracy}
    (hq : Represents q (.ofMantissaAndAccuracy m acc))
    (he : e ≤ fmt.targetExponent (totalExponent m e)) (s : Sign) :
    ∃ n t, Rounds fmt (q * 2 ^ e) n t ∧ roundWithAccuracy fmt s m e acc = assemble fmt s n t := by
  have hk : e + (fmt.targetExponent (totalExponent m e) - e).toNat =
      fmt.targetExponent (totalExponent m e) := by omega
  have hrounds : Rounds fmt (q * 2 ^ e) _ _ := hq.rounds rfl hk
  refine ⟨_, _, hrounds, ?_⟩
  refine roundWithAccuracy_of_shift ?_ hrounds.le_two_pow hrounds.least s
  unfold shiftToTargetExponent shiftToExponent
  exact Prod.ext rfl hk

/-! ## What has been assembled -/

/-- A number that does not overflow stays as it was assembled. -/
theorem settle_of_isFinite {u : UnpackedFloat} (h : (settle fmt u).isFinite = true) :
    settle fmt u = u := by
  cases u with
  | finite s m e hm =>
    by_cases hover : maxExponent fmt < e
    · rw [settle, if_pos hover] at h
      cases h
    · exact if_neg hover
  | _ => rfl

/-- Overflow keeps the sign. -/
theorem sign_settle (fmt : Format) (u : UnpackedFloat) : sign (settle fmt u) = sign u := by
  cases u with
  | finite s m e hm =>
    unfold settle
    dsimp only
    split_ifs <;> rfl
  | _ => rfl

section Assemble

variable {t : ℤ} (s : Sign)

/-- What is assembled is finite; only settling it can overflow. -/
theorem isFinite_assemble (fmt : Format) (n : ℕ) (t : ℤ) :
    (assemble fmt s n t).isFinite = true := by
  unfold assemble
  split_ifs <;> rfl

theorem sign_assemble (fmt : Format) (n : ℕ) (t : ℤ) : sign (assemble fmt s n t) = s := by
  unfold assemble
  split_ifs <;> rfl

/-- Also where the mantissa was one bit too long: half of it, one place higher, is the same
    number. -/
theorem value_assemble (hn : n ≤ 2 ^ fmt.mantissaBits) :
    value (assemble fmt s n t) = factor s * (n * 2 ^ t) := by
  unfold assemble
  split_ifs with hzero hfits
  · rw [hzero, Nat.cast_zero, zero_mul, mul_zero]
    rfl
  · rfl
  · obtain rfl : n = 2 ^ fmt.mantissaBits := by omega
    push_cast
    rw [two_pow_mul_zpow]
    exact congrArg (fun m : ℚ => factor s * (m * 2 ^ (t + 1))) (Nat.cast_pow 2 _)

/-- What was rounded at its place has the one form in which a format writes it. -/
theorem canonical_assemble (h : Rounds fmt q n t) : Canonical fmt (assemble fmt s n t) := by
  have hpow := two_pow_mantissaBits fmt
  have hmin := h.least
  unfold assemble
  split_ifs with hzero hfits
  · trivial
  · exact ⟨hfits, hmin, h.two_pow_le.symm⟩
  · exact ⟨by have := Nat.two_pow_pos fmt.mantissaBitsWithoutImplicit; omega, by omega,
      Or.inl le_rfl⟩

/-- The mantissa that was too long was a power of two, and half of it is even as well. -/
theorem even_mantissa_assemble (hn : Even n) : Even (mantissa (assemble fmt s n t)) := by
  unfold assemble
  split_ifs with hzero hfits
  · exact Even.zero
  · exact hn
  · exact (even_two.pow_of_ne_zero fmt.hm.ne')

end Assemble

/-! ## Products

  A product of mantissas is exact, and longer than a mantissa, unless both factors are small.  That
  it is not shorter is what rounding once depends on: bits that were never there could not be
  shifted back in. -/

/-- Signs multiply as their factors do. -/
theorem factor_mul (s s' : Sign) : factor (s * s') = factor s * factor s' := by
  cases s <;> cases s' <;> norm_num [factor]

theorem factor_mul_self (s : Sign) : factor s * factor s = 1 := by
  cases s <;> norm_num [factor]

theorem abs_factor_mul (s : Sign) (q : ℚ) : |factor s * q| = |q| := by
  cases s with
  | positive => rw [factor, one_mul]
  | negative => rw [factor, neg_one_mul, abs_neg]

/-- A number is its sign and its magnitude, so only magnitudes have to be rounded. -/
theorem value_eq_factor_mul (u : UnpackedFloat) : value u = factor (sign u) * |value u| := by
  cases u with
  | finite s m e hm => rw [abs_value_finite]; rfl
  | _ => simp [value]

/-- Zero is at the least place, where no leading bit is asked for. -/
theorem rounds_zero (fmt : Format) : Rounds fmt 0 0 fmt.minExponent :=
  ⟨le_rfl, by rw [zero_div]; positivity, Or.inl rfl, by norm_num [NearestInt]⟩

/-- A mantissa that has its leading bit makes the product long enough. -/
theorem le_targetExponent_of_lead {m : ℕ} (hm : 2 ^ fmt.mantissaBitsWithoutImplicit ≤ m) (e : ℤ) :
    e ≤ fmt.targetExponent (totalExponent m e) := by
  have hbits := mantissaBits_eq fmt
  have hpos := Nat.two_pow_pos fmt.mantissaBitsWithoutImplicit
  have hlog := (Nat.le_log2 (by omega)).mpr hm
  unfold Format.targetExponent totalExponent
  omega

/-- The product of two canonical mantissas is not shorter than a mantissa, or is below the least
    exponent. -/
theorem le_targetExponent_mul {s₁ s₂ : Sign} {m₁ m₂ : ℕ} {e₁ e₂ : ℤ} {hm₁ : 0 < m₁} {hm₂ : 0 < m₂}
    (h₁ : Canonical fmt (.finite s₁ m₁ e₁ hm₁)) (h₂ : Canonical fmt (.finite s₂ m₂ e₂ hm₂)) :
    e₁ + e₂ ≤ fmt.targetExponent (totalExponent (m₁ * m₂) (e₁ + e₂)) := by
  -- one factor has its leading bit, or both are subnormal
  rcases h₁.2.2 with hlead | he₁
  · exact le_targetExponent_of_lead (le_trans hlead (Nat.le_mul_of_pos_right _ hm₂)) _
  · rcases h₂.2.2 with hlead | he₂
    · exact le_targetExponent_of_lead (le_trans hlead (Nat.le_mul_of_pos_left _ hm₁)) _
    · have hexp := minExponent_eq fmt
      have hpos := fmt.hm
      unfold Format.targetExponent
      omega

/-- A product of finite numbers is assembled from the exact product, rounded. -/
theorem mul_eq {a b : UnpackedFloat} (ha : Canonical fmt a) (hb : Canonical fmt b)
    (hfa : a.isFinite = true) (hfb : b.isFinite = true) :
    ∃ n t, Rounds fmt |value a * value b| n t ∧
      mul fmt a b = assemble fmt (sign a * sign b) n t := by
  cases a with
  | notANumber => cases hfa
  | infinity => cases hfa
  | zero s =>
    refine ⟨0, fmt.minExponent, ?_, ?_⟩
    · rw [show value (.zero s) = 0 from rfl, zero_mul, abs_zero]
      exact rounds_zero fmt
    · cases b with
      | notANumber => cases hfb
      | infinity => cases hfb
      | zero s' => rfl
      | finite s' m e hm => rfl
  | finite s m e hm =>
    cases b with
    | notANumber => cases hfb
    | infinity => cases hfb
    | zero s' =>
      refine ⟨0, fmt.minExponent, ?_, rfl⟩
      rw [show value (.zero s') = 0 from rfl, mul_zero, abs_zero]
      exact rounds_zero fmt
    | finite s' m' e' hm' =>
      have hexact : |value (.finite s m e hm) * value (.finite s' m' e' hm')| =
          (m * m' : ℕ) * 2 ^ (e + e') := by
        rw [abs_mul, abs_value_finite, abs_value_finite, zpow_add₀ two_ne_zero]
        push_cast
        ring
      rw [hexact]
      exact roundWithAccuracy_eq (represents_exact _) (le_targetExponent_mul ha hb) _

/-! ## Quotients

  A quotient is not exact.  The dividend is shifted to the left first, far enough for the integer
  quotient to be as long as a mantissa, and the remainder tells the rest. -/

/-- A quotient has the sign of the product. -/
theorem sign_div (s s' : Sign) : s / s' = s * s' := by
  cases s <;> cases s' <;> rfl

/-- How the remainder compares to half the divisor tells the two bits of a quotient. -/
theorem represents_div (m : ℕ) {m' : ℕ} (hm' : 0 < m') :
    Represents (m / m') (.ofMantissaAndAccuracy (m / m') (accuracyOfFraction (m % m') m')) := by
  have hpos : (0 : ℚ) < m' := by exact_mod_cast hm'
  have hq : (m : ℚ) = (m / m' : ℕ) * m' + (m % m' : ℕ) := by
    exact_mod_cast (Nat.div_add_mod' m m').symm
  have hlt : m % m' < m' := Nat.mod_lt m hm'
  -- from here on the quotient is `d`, and the remainder `r` decides the two bits
  generalize m / m' = d at hq ⊢
  generalize m % m' = r at hq hlt ⊢
  have hfrac : (m : ℚ) / m' = d + r / m' := by
    rw [hq, add_div, mul_div_cancel_right₀ _ hpos.ne']
  rw [hfrac]
  unfold accuracyOfFraction
  by_cases hr : r = 0
  · rw [if_pos hr, hr, Nat.cast_zero, zero_div, add_zero]
    exact represents_exact d
  · have hrpos : (0 : ℚ) < r / m' := div_pos (by exact_mod_cast Nat.pos_of_ne_zero hr) hpos
    have hrlt : (r : ℚ) / m' < 1 := (div_lt_one hpos).mpr (by exact_mod_cast hlt)
    rw [if_neg hr]
    -- less than half a unit, half a unit, or more
    rcases lt_trichotomy (2 * r) m' with hcmp | hcmp | hcmp
    · have hhalf : (r : ℚ) / m' < 1 / 2 := by
        rw [div_lt_div_iff₀ hpos two_pos]
        exact_mod_cast (by omega : r * 2 < 1 * m')
      rw [compare_lt_iff_lt.mpr hcmp]
      refine ⟨?_, ?_, ?_⟩ <;>
        simp only [ExtendedMantissa.ofMantissaAndAccuracy, half, Bool.false_eq_true, if_false]
      · linarith
      · linarith
      · exact iff_of_false (by linarith) (by decide)
    · have hhalf : (r : ℚ) / m' = 1 / 2 := by
        rw [div_eq_div_iff hpos.ne' two_ne_zero]
        exact_mod_cast (by omega : r * 2 = 1 * m')
      rw [compare_eq_iff_eq.mpr hcmp]
      refine ⟨?_, ?_, ?_⟩ <;>
        simp only [ExtendedMantissa.ofMantissaAndAccuracy, half, if_true]
      · linarith
      · linarith
      · exact iff_of_true (by linarith) trivial
    · have hhalf : 1 / 2 < (r : ℚ) / m' := by
        rw [div_lt_div_iff₀ two_pos hpos]
        exact_mod_cast (by omega : 1 * m' < r * 2)
      rw [compare_gt_iff_gt.mpr hcmp]
      refine ⟨?_, ?_, ?_⟩ <;>
        simp only [ExtendedMantissa.ofMantissaAndAccuracy, half, if_true]
      · linarith
      · linarith
      · exact iff_of_false (by linarith) (by decide)

/-- The dividend is shifted to the left until the quotient is long enough. -/
theorem le_targetExponent_div (fmt : Format) {m₁ m₂ k : ℕ} {e₁ e₂ e : ℤ} (hm₁ : 0 < m₁)
    (hm₂ : 0 < m₂) (hk : e + k = e₁ - e₂)
    (he : e ≤ fmt.targetExponent (totalExponent m₁ e₁ - totalExponent m₂ e₂)) :
    e ≤ fmt.targetExponent (totalExponent (m₁ * 2 ^ k / m₂) e) := by
  have hbits := mantissaBits_eq fmt
  -- below the least exponent any length will do
  by_cases hmin : e ≤ fmt.minExponent
  · exact le_trans hmin (le_max_right _ _)
  · refine le_targetExponent_of_lead ((Nat.le_div_iff_mul_le hm₂).mpr ?_) e
    have hlog : fmt.mantissaBitsWithoutImplicit + (m₂.log2 + 1) ≤ m₁.log2 + k := by
      unfold Format.targetExponent totalExponent at he
      omega
    calc 2 ^ fmt.mantissaBitsWithoutImplicit * m₂
        ≤ 2 ^ fmt.mantissaBitsWithoutImplicit * 2 ^ (m₂.log2 + 1) :=
          Nat.mul_le_mul_left _ Nat.lt_log2_self.le
      _ = 2 ^ (fmt.mantissaBitsWithoutImplicit + (m₂.log2 + 1)) := (pow_add 2 _ _).symm
      _ ≤ 2 ^ (m₁.log2 + k) := Nat.pow_le_pow_right Nat.zero_lt_two hlog
      _ = 2 ^ m₁.log2 * 2 ^ k := pow_add 2 _ _
      _ ≤ m₁ * 2 ^ k := Nat.mul_le_mul_right _ (Nat.log2_self_le hm₁.ne')

/-- A quotient of finite numbers is assembled from the exact quotient, rounded. -/
theorem div_eq (fmt : Format) {a b : UnpackedFloat} (hfa : a.isFinite = true)
    (hfb : b.isFinite = true) (hzero : value b ≠ 0) :
    ∃ n t, Rounds fmt |value a / value b| n t ∧
      div fmt a b = assemble fmt (sign a * sign b) n t := by
  cases b with
  | notANumber => cases hfb
  | infinity => cases hfb
  | zero => exact absurd rfl hzero
  | finite s' m' e' hm' =>
    cases a with
    | notANumber => cases hfa
    | infinity => cases hfa
    | zero s =>
      refine ⟨0, fmt.minExponent, ?_, ?_⟩
      · rw [show value (.zero s) = 0 from rfl, zero_div, abs_zero]
        exact rounds_zero fmt
      · exact congrArg _ (sign_div s s')
    | finite s m e hm =>
      -- the place down to which the integer quotient is computed
      let place := min (e - e') (fmt.targetExponent (totalExponent m e - totalExponent m' e'))
      have hk : place + (e - e' - place).toNat = e - e' := by
        have : place ≤ e - e' := min_le_left _ _
        omega
      have hpow : (2 : ℚ) ^ e / 2 ^ e' = 2 ^ (e - e' - place).toNat * 2 ^ place := by
        rw [← zpow_sub₀ two_ne_zero, ← zpow_natCast, ← zpow_add₀ two_ne_zero, add_comm, hk]
      have hexact : |value (.finite s m e hm) / value (.finite s' m' e' hm')| =
          (m <<< (e - e' - place).toNat : ℕ) / m' * 2 ^ place := by
        rw [abs_div, abs_value_finite, abs_value_finite, mul_div_mul_comm, hpow, Nat.shiftLeft_eq]
        push_cast
        ring
      have hplace := le_targetExponent_div fmt hm hm' hk (min_le_right _ _)
      rw [← Nat.shiftLeft_eq] at hplace
      rw [hexact, ← sign_div]
      exact roundWithAccuracy_eq (represents_div _ hm') hplace (s / s')

/-! ## The range of a format

  The format ends at a power of two, and a number that would be rounded to it or beyond is infinite.
  So being in range is a bound on the magnitude, and so is being a number of the format, apart from
  its grid. -/

/-- A canonical number is in range if it is below the power of two that is above the greatest
    number. -/
theorem inRange_iff (hfmt : fmt.minExponent ≤ maxExponent fmt) {u : UnpackedFloat}
    (h : Canonical fmt u) :
    InRange fmt u ↔ |value u| < 2 ^ fmt.mantissaBits * 2 ^ maxExponent fmt := by
  have hpos : (0 : ℚ) < 2 ^ fmt.mantissaBits * 2 ^ maxExponent fmt := by positivity
  cases u with
  | notANumber => exact ⟨fun _ => by simpa only [value, abs_zero], fun _ => trivial⟩
  | infinity s => exact ⟨fun _ => by simpa only [value, abs_zero], fun _ => trivial⟩
  | zero s => exact ⟨fun _ => by simpa only [value, abs_zero], fun _ => trivial⟩
  | finite s m e hm =>
    obtain ⟨hlt, hmin, hcanon⟩ := h
    rw [abs_value_finite]
    show e ≤ maxExponent fmt ↔ _
    constructor
    · -- a mantissa that fits, at an exponent that is allowed
      intro he
      have hmant : (m : ℚ) < 2 ^ fmt.mantissaBits := by exact_mod_cast hlt
      calc (m : ℚ) * 2 ^ e < 2 ^ fmt.mantissaBits * 2 ^ e :=
            mul_lt_mul_of_pos_right hmant (by positivity)
        _ ≤ 2 ^ fmt.mantissaBits * 2 ^ maxExponent fmt :=
            mul_le_mul_of_nonneg_left (zpow_le_zpow_right₀ one_le_two he) (by positivity)
    · -- a canonical number at a higher exponent has its leading bit, and is too large
      intro hvalue
      by_contra he
      have hlead := hcanon.resolve_right (by omega)
      have hmant : (2 : ℚ) ^ fmt.mantissaBitsWithoutImplicit ≤ m := by exact_mod_cast hlead
      refine absurd hvalue (not_lt.mpr ?_)
      calc (2 : ℚ) ^ fmt.mantissaBits * 2 ^ maxExponent fmt
          = 2 ^ fmt.mantissaBitsWithoutImplicit * 2 ^ (maxExponent fmt + 1) :=
            two_pow_mul_zpow fmt _
        _ ≤ m * 2 ^ (maxExponent fmt + 1) := mul_le_mul_of_nonneg_right hmant (by positivity)
        _ ≤ m * 2 ^ e := mul_le_mul_of_nonneg_left
            (zpow_le_zpow_right₀ one_le_two (by omega)) (by positivity)

/-- The magnitude is written with a mantissa that fits, and no bit is below the least exponent. -/
def OnGrid (fmt : Format) (q : ℚ) : Prop :=
  ∃ (k : ℕ) (u : ℤ), k < 2 ^ fmt.mantissaBits ∧ fmt.minExponent ≤ u ∧ |q| = k * 2 ^ u

/-- A rational number that is a number of the format. -/
structure InFormat (fmt : Format) (q : ℚ) : Prop where
  grid : OnGrid fmt q
  range : |q| < 2 ^ fmt.mantissaBits * 2 ^ maxExponent fmt

/-- A number that can be written is on the grid and in range. -/
theorem Canonical.inFormat (hfmt : fmt.minExponent ≤ maxExponent fmt) {u : UnpackedFloat}
    (h : Canonical fmt u) (hr : InRange fmt u) : InFormat fmt (value u) := by
  refine ⟨?_, (inRange_iff hfmt h).mp hr⟩
  cases u with
  | finite s m e hm => exact ⟨m, e, h.1, h.2.1, abs_value_finite s hm⟩
  | _ => exact ⟨0, fmt.minExponent, Nat.two_pow_pos _, le_rfl, by simp [value]⟩

/-- Only zero is nearer to zero than the least exponent. -/
theorem InFormat.least_le (h : InFormat fmt q) (hne : q ≠ 0) : (2 : ℚ) ^ fmt.minExponent ≤ |q| := by
  obtain ⟨k, u, -, hu, hgrid⟩ := h.grid
  have hk : k ≠ 0 := by
    rintro rfl
    rw [Nat.cast_zero, zero_mul, abs_eq_zero] at hgrid
    exact hne hgrid
  rw [hgrid]
  calc (2 : ℚ) ^ fmt.minExponent ≤ 2 ^ u := zpow_le_zpow_right₀ one_le_two hu
    _ ≤ k * 2 ^ u :=
        le_mul_of_one_le_left (by positivity) (by exact_mod_cast Nat.one_le_iff_ne_zero.mpr hk)

/-- A format is symmetric about zero. -/
theorem InFormat.factor_mul (h : InFormat fmt q) (s : Sign) : InFormat fmt (factor s * q) :=
  ⟨by unfold OnGrid; rw [abs_factor_mul]; exact h.grid, by rw [abs_factor_mul]; exact h.range⟩

/-- What is in the format is rounded to itself. -/
theorem Rounds.eq_of_inFormat {t : ℤ} (h : Rounds fmt |q| n t) (hq : InFormat fmt q) :
    |q| = n * 2 ^ t := by
  obtain ⟨k, u, hk, hu, hgrid⟩ := hq.grid
  have hle := h.le hk hu
  rw [← hgrid, sub_self, abs_zero] at hle
  exact sub_eq_zero.mp (abs_nonpos_iff.mp hle)

/-- Of a signed number of the format the same can be said: none is nearer, and if one is as near
    then the mantissa is even. -/
theorem Rounds.signed {t : ℤ} (h : Rounds fmt q n t) (hq : 0 ≤ q) {r : ℚ} (hr : InFormat fmt r) :
    |n * 2 ^ t - q| ≤ |r - q| ∧ (|r - q| = |n * 2 ^ t - q| → r = n * 2 ^ t ∨ Even n) := by
  obtain ⟨k, u, hk, hu, hgrid⟩ := hr.grid
  rw [abs_sub_comm _ q, abs_sub_comm _ q]
  -- on the same side of zero this is what is known of magnitudes
  by_cases hsign : 0 ≤ r
  · rw [abs_of_nonneg hsign] at hgrid
    rw [hgrid]
    exact ⟨h.le hk hu, h.tie hk hu⟩
  · -- zero is nearer
    have hzero := h.le (k := 0) (Nat.two_pow_pos _) le_rfl
    rw [Nat.cast_zero, zero_mul, sub_zero, abs_of_nonneg hq] at hzero
    have hfar : |q - n * 2 ^ t| < |q - r| := by
      rw [abs_of_pos (a := q - r) (by linarith)]
      linarith
    exact ⟨hfar.le, fun heq => absurd heq hfar.ne'⟩

end DiffTape.Binary

/-! ## Numbers of a width -/

namespace DiffTape.Width

open Binary
open Float.Model.UnpackedFloat (Sign)

variable {w : Width} {x y : w.Number} {q : ℚ} {s : Sign}

/-- Every number of the width is a number of its format. -/
theorem inFormat_value (w : Width) (x : w.Number) : InFormat w.format (w.value x) :=
  (canonical_unpack x).inFormat w.minExponent_le_maxExponent (inRange_unpack x)

/-- A number of the width is its sign and its magnitude. -/
theorem value_eq (x : w.Number) : w.value x = factor (w.sign x) * |w.value x| :=
  value_eq_factor_mul _

/-- `y` is a finite number that is nearest to `q`, and if another one is as near then the mantissa
    of `y` is even. -/
structure RoundsTo (w : Width) (q : ℚ) (y : w.Number) : Prop where
  finite : Scalar.isFinite y = true
  nearest : ∀ z : w.Number, Scalar.isFinite z = true → |w.value y - q| ≤ |w.value z - q|
  even : ∀ z : w.Number, Scalar.isFinite z = true → |w.value z - q| = |w.value y - q| →
    w.value z ≠ w.value y → Even (w.mantissa y)

/-- `y` is `q` with the sign `s`, rounded to the format, or the infinity of that sign if it is out
    of range then. -/
structure Computes (w : Width) (q : ℚ) (s : Sign) (y : w.Number) : Prop where
  signed : q = factor s * |q|
  rounded : ∃ n t, Rounds w.format |q| n t ∧
    w.unpack y = settle w.format (assemble w.format s n t)

/-- A product is computed with the product of the signs, and rounded once. -/
theorem computes_mul (hx : Scalar.isFinite x = true) (hy : Scalar.isFinite y = true) :
    w.Computes (w.value x * w.value y) (w.sign x * w.sign y) (x * y) := by
  have hsx := value_eq x
  have hsy := value_eq y
  rw [isFinite_eq] at hx hy
  refine ⟨?_, ?_⟩
  -- both numbers are their signs and magnitudes, and so is the product
  · rw [Binary.factor_mul, abs_mul]
    linear_combination w.value y * hsx + factor (w.sign x) * |w.value x| * hsy
  · obtain ⟨n, t, hrounds, hmul⟩ := mul_eq (canonical_unpack x) (canonical_unpack y) hx hy
    refine ⟨n, t, hrounds, ?_⟩
    rw [unpack_mul (by rw [hmul]; exact canonical_assemble _ hrounds), hmul]
    rfl

/-- A quotient likewise, unless it is by zero. -/
theorem computes_div (hx : Scalar.isFinite x = true) (hy : Scalar.isFinite y = true)
    (hzero : w.value y ≠ 0) :
    w.Computes (w.value x / w.value y) (w.sign x * w.sign y) (x / y) := by
  have hsx := value_eq x
  have hsy := value_eq y
  rw [isFinite_eq] at hx hy
  refine ⟨?_, ?_⟩
  · have habs : |w.value y| ≠ 0 := abs_ne_zero.mpr hzero
    have hself := factor_mul_self (w.sign y)
    rw [Binary.factor_mul, abs_div, div_eq_iff hzero, mul_assoc, div_mul_eq_mul_div,
      ← mul_div_assoc, eq_div_iff habs]
    linear_combination |w.value y| * hsx -
      factor (w.sign x) * factor (w.sign y) * |w.value x| * hsy -
      factor (w.sign x) * |w.value x| * |w.value y| * hself
  · obtain ⟨n, t, hrounds, hdiv⟩ := div_eq w.format hx hy hzero
    refine ⟨n, t, hrounds, ?_⟩
    rw [unpack_div (by rw [hdiv]; exact canonical_assemble _ hrounds), hdiv]
    rfl

namespace Computes

/-- Even a product that overflows, or is rounded to zero, has its sign. -/
theorem sign_eq (h : w.Computes q s y) : w.sign y = s := by
  obtain ⟨n, t, -, hy⟩ := h.rounded
  show Binary.sign (w.unpack y) = s
  rw [hy, sign_settle, sign_assemble]

/-- In range, the number is the rounded magnitude with its sign. -/
theorem value_eq_of_finite (h : w.Computes q s y) (hfinite : Scalar.isFinite y = true) :
    ∃ n t, Rounds w.format |q| n t ∧ w.unpack y = assemble w.format s n t ∧
      w.value y = factor s * (n * 2 ^ t) := by
  obtain ⟨n, t, hrounds, hy⟩ := h.rounded
  rw [isFinite_eq, hy] at hfinite
  -- overflow would have made it infinite
  rw [settle_of_isFinite hfinite] at hy
  refine ⟨n, t, hrounds, hy, ?_⟩
  unfold value
  rw [hy, value_assemble s hrounds.le_two_pow]

/-- Seen from the side of `q`, distances are those of the magnitudes. -/
theorem abs_sub_eq (h : w.Computes q s y) (r : ℚ) : |factor s * r - q| = |r - (|q|)| := by
  have hself := factor_mul_self s
  rw [← abs_factor_mul s (r - |q|)]
  congr 1
  linear_combination -h.signed

/-- What does not overflow is rounded once. -/
theorem roundsTo (h : w.Computes q s y) (hfinite : Scalar.isFinite y = true) :
    w.RoundsTo q y := by
  obtain ⟨n, t, hrounds, hy, hvalue⟩ := h.value_eq_of_finite hfinite
  -- with the sign of the result taken off, all numbers are compared to the magnitude of `q`
  have hself := fun r : ℚ => show factor s * (factor s * r) = r by
    rw [← mul_assoc, factor_mul_self, one_mul]
  have hdist : ∀ z : w.Number, |w.value z - q| = |factor s * w.value z - (|q|)| := fun z => by
    rw [← h.abs_sub_eq, hself]
  have hsigned := fun z : w.Number =>
    hrounds.signed (abs_nonneg q) ((w.inFormat_value z).factor_mul s)
  refine ⟨hfinite, fun z _ => ?_, fun z _ htie hne => ?_⟩
  · rw [hvalue, h.abs_sub_eq, hdist z]
    exact (hsigned z).1
  · rw [hvalue, h.abs_sub_eq, hdist z] at htie
    rcases (hsigned z).2 htie with heq | heven
    -- the other one is the same number, which was excluded, or the mantissa is even
    · exact absurd (by rw [hvalue, ← heq, hself]) hne
    · unfold mantissa
      rw [hy]
      exact even_mantissa_assemble s heven

/-- What is in the format is exact. -/
theorem value_of_inFormat (h : w.Computes q s y) (hq : InFormat w.format q) :
    Scalar.isFinite y = true ∧ w.value y = q := by
  obtain ⟨n, t, hrounds, hy⟩ := h.rounded
  have hexact := hrounds.eq_of_inFormat hq
  have hvalue := value_assemble (t := t) s hrounds.le_two_pow
  -- it is rounded to itself, and it is in range, so it does not overflow
  have hrange : InRange w.format (assemble w.format s n t) := by
    rw [inRange_iff w.minExponent_le_maxExponent (canonical_assemble _ hrounds), hvalue,
      abs_factor_mul, ← hexact, abs_abs]
    exact hq.range
  rw [settle_of_inRange hrange] at hy
  refine ⟨by rw [isFinite_eq, hy]; exact isFinite_assemble _ _ _ _, ?_⟩
  show Binary.value (w.unpack y) = q
  rw [hy, hvalue, ← hexact, ← h.signed]

end Computes

end DiffTape.Width
