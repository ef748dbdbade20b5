/-
  THE SIGN OF THE SLOPE OF AN INTEGER POWER.

  `n · a ^ (n - 1)` is computed by many roundings, some of which overflow or vanish.  A sign
  survives all of them: whatever a product or a quotient is rounded to, its sign is the product of
  the signs, unless it is a NaN.  So the sign of the partial is settled by parities alone.

  1. `sign_unpack_pack`  — packing keeps the sign, for whatever is packed; a product and a quotient
                           are packed with the product of the signs.
  2. `HasSign`           — a number of this sign, or a NaN.  An operation that multiplies signs
                           keeps it (`hasSign_of_pack`), and so do negation and the conversion of
                           integers (`hasSign_ofInt`).
  3. `HasSign.powLoop`   — the loop of a power keeps the sign of `m · a ^ p`, so an integer power
                           has the sign of the exact one (`HasSign.powi`).
  4. `sign_powi_partial` — and the partial that of the exact slope.  At the least exponent `n - 1`
                           is a number and not an integer.  There the parity depends on how it is
                           rounded: a single number has no bit for the one, and `n - 1` is even.

  Of the power of the platform nothing is assumed but its sign (`PowSigned`).
-/
import DiffTape.Catalog
import DiffTape.Proofs.Frexp

namespace DiffTape

open Float.Model (Format UnpackedFloat)
open Float.Model.UnpackedFloat (Sign)
open Scalar (powi powLoop ofInt)

/-! ## Signs of unpacked numbers -/

namespace Binary

open Float.Model.UnpackedFloat

variable {fmt : Format}

/-- Unpacking finds the sign that was packed. -/
theorem sign_unpack_packComponents {s : Sign} {e : BitVec fmt.exponentBits}
    {m : BitVec fmt.mantissaBitsWithoutImplicit}
    (h : (unpack fmt (packComponents fmt s e m)).isNaN = false) :
    sign (unpack fmt (packComponents fmt s e m)) = s := by
  unfold unpack at h ⊢
  simp only [unpackSign_packComponents, Sign.ofBitVec_toBitVec, unpackExponent_packComponents,
    unpackMantissa_packComponents] at h ⊢
  split_ifs at h ⊢
  all_goals first | rfl | cases h

/-- Packing keeps the sign of a number, and makes no number of a NaN. -/
theorem sign_unpack_pack {u : UnpackedFloat} (h : (unpack fmt (pack fmt u)).isNaN = false) :
    u.isNaN = false ∧ sign (unpack fmt (pack fmt u)) = sign u := by
  cases u with
  | notANumber =>
    rw [show pack fmt .notANumber = packedNaN fmt from rfl, unpack_packedNaN] at h
    cases h
  | infinity s => exact ⟨rfl, sign_unpack_packComponents h⟩
  | zero s => exact ⟨rfl, sign_unpack_packComponents h⟩
  | finite s m e hm =>
    refine ⟨rfl, ?_⟩
    unfold pack at h ⊢
    dsimp only at h ⊢
    split_ifs at h ⊢
    all_goals exact sign_unpack_packComponents h

/-- Rounding keeps the sign. -/
theorem sign_roundWithAccuracy (s : Sign) (m : ℕ) (e : ℤ) (acc : Accuracy) :
    sign (roundWithAccuracy fmt s m e acc) = s := by
  unfold roundWithAccuracy
  dsimp only
  split_ifs <;> rfl

/-- A product that is a number has the product of the signs. -/
theorem sign_mul {a b : UnpackedFloat} (h : (mul fmt a b).isNaN = false) :
    a.isNaN = false ∧ b.isNaN = false ∧ sign (mul fmt a b) = sign a * sign b := by
  cases a with
  | notANumber => cases h
  | infinity s =>
    cases b with
    | notANumber | zero => cases h
    | _ => exact ⟨rfl, rfl, rfl⟩
  | zero s =>
    cases b with
    | notANumber | infinity => cases h
    | _ => exact ⟨rfl, rfl, rfl⟩
  | finite s m e hm =>
    cases b with
    | notANumber => cases h
    | finite => exact ⟨rfl, rfl, sign_roundWithAccuracy _ _ _ _⟩
    | _ => exact ⟨rfl, rfl, rfl⟩

/-- And so has a quotient. -/
theorem sign_div_eq {a b : UnpackedFloat} (h : (div fmt a b).isNaN = false) :
    a.isNaN = false ∧ b.isNaN = false ∧ sign (div fmt a b) = sign a * sign b := by
  rw [← sign_div]
  cases a with
  | notANumber => cases h
  | infinity s =>
    cases b with
    | notANumber | infinity => cases h
    | _ => exact ⟨rfl, rfl, rfl⟩
  | zero s =>
    cases b with
    | notANumber | zero => cases h
    | _ => exact ⟨rfl, rfl, rfl⟩
  | finite s m e hm =>
    cases b with
    | notANumber => cases h
    | finite => exact ⟨rfl, rfl, sign_roundWithAccuracy _ _ _ _⟩
    | _ => exact ⟨rfl, rfl, rfl⟩

/-- A natural number is converted to one with a positive sign. -/
theorem sign_ofNat (n : ℕ) : sign (ofNat fmt n) = .positive := by
  unfold ofNat UnpackedFloat.ofInt UnpackedFloat.normalize
  split
  · rename_i h
    have hneg : (n : ℤ) < 0 := compare_lt_iff_lt.mp h
    omega
  · rfl
  · exact sign_roundWithAccuracy _ _ _ _

/-- Also when it is read as a decimal. -/
theorem sign_ofScientific (m : ℕ) (e : ℤ) (h : (ofScientific fmt m e).isNaN = false) :
    sign (ofScientific fmt m e) = .positive := by
  unfold ofScientific at h ⊢
  split_ifs at h ⊢
  · rfl
  · rfl
  · rfl
  · exact (sign_mul h).2.2
  · exact (sign_div_eq h).2.2

end Binary

/-! ## Signs of numbers -/

namespace Width

open Binary
open Float.Model.UnpackedFloat (pack)

variable {w : Width} {x y z : w.Number} {s t : Sign}

/-- The number has the sign `s`, unless it is a NaN. -/
def HasSign (w : Width) (x : w.Number) (s : Sign) : Prop :=
  Scalar.isNaN x = false → w.sign x = s

/-- A number that was packed has the sign of what was packed. -/
theorem sign_of_pack {u : UnpackedFloat} (hz : w.unpack z = .unpack w.format (pack w.format u))
    (h : Scalar.isNaN z = false) : u.isNaN = false ∧ w.sign z = Binary.sign u := by
  rw [isNaN_eq, hz] at h
  unfold Width.sign
  rw [hz]
  exact sign_unpack_pack h

/-- A negative number that is unpacked as finite is one, with that value. -/
theorem finite_of_unpack_negative {m : ℕ} {e : ℤ} {hm : 0 < m}
    (h : w.unpack x = .finite .negative m e hm) :
    Scalar.isFinite x = true ∧ w.value x = -(m * 2 ^ e) := by
  rw [isFinite_eq]
  unfold Width.value
  rw [h]
  exact ⟨rfl, value_negative hm⟩

/-- The machine packs the result of the unpacked operation, in both widths. -/
theorem unpack_mul_eq (x y : w.Number) : w.unpack (x * y) =
    .unpack w.format (pack w.format (.mul w.format (w.unpack x) (w.unpack y))) := by
  cases w <;> rfl

theorem unpack_div_eq (x y : w.Number) : w.unpack (x / y) =
    .unpack w.format (pack w.format (.div w.format (w.unpack x) (w.unpack y))) := by
  cases w <;> rfl

theorem unpack_neg_eq (x : w.Number) :
    w.unpack (-x) = .unpack w.format (pack w.format (w.unpack x).neg) := by
  cases w <;> rfl

/-- The result of an operation that multiplies the signs of its operands. -/
theorem hasSign_of_pack {op : UnpackedFloat → UnpackedFloat → UnpackedFloat}
    (hz : w.unpack z = .unpack w.format (pack w.format (op (w.unpack x) (w.unpack y))))
    (hop : ∀ {a b}, (op a b).isNaN = false →
      a.isNaN = false ∧ b.isNaN = false ∧ Binary.sign (op a b) = Binary.sign a * Binary.sign b)
    (hx : w.HasSign x s) (hy : w.HasSign y t) : w.HasSign z (s * t) := by
  intro h
  obtain ⟨hnum, hsign⟩ := sign_of_pack hz h
  obtain ⟨hxnum, hynum, hresult⟩ := hop hnum
  rw [← isNaN_eq] at hxnum hynum
  rw [hsign, hresult, ← hx hxnum, ← hy hynum]
  rfl

/-- The sign of a product, if it is a number. -/
theorem HasSign.mul (hx : w.HasSign x s) (hy : w.HasSign y t) : w.HasSign (x * y) (s * t) :=
  hasSign_of_pack (unpack_mul_eq x y) Binary.sign_mul hx hy

theorem HasSign.div (hx : w.HasSign x s) (hy : w.HasSign y t) : w.HasSign (x / y) (s * t) :=
  hasSign_of_pack (unpack_div_eq x y) Binary.sign_div_eq hx hy

/-- Negation turns the sign, and makes no number of a NaN. -/
theorem HasSign.neg (hx : w.HasSign x s) : w.HasSign (-x) (-s) := by
  intro h
  obtain ⟨hnum, hsign⟩ := sign_of_pack (unpack_neg_eq x) h
  have hxnum : Scalar.isNaN x = false := by
    rw [isNaN_eq]
    generalize w.unpack x = u at hnum
    cases u with
    | notANumber => cases hnum
    | _ => rfl
  rw [hsign, ← hx hxnum]
  unfold Width.sign
  rw [isNaN_eq] at hxnum
  generalize w.unpack x = u at hxnum ⊢
  cases u with
  | notANumber => cases hxnum
  | _ => rfl

theorem hasSign_one (w : Width) : w.HasSign 1 .positive := fun _ => (isPower_one w).sign

/-! ### Integers -/

/-- A small number is converted by the machine and multiplied with the power `10 ^ 0`, a large one
    is read as a decimal. -/
theorem ofNat_cases (w : Width) (n : ℕ) :
    (∃ m c : w.Number, ofInt (n : ℤ) = m * c ∧ w.sign c = .positive ∧
      w.unpack m = .unpack w.format (pack w.format (.ofUInt64 w.format n.toUInt64))) ∨
    w.unpack (ofInt (n : ℤ)) = .unpack w.format (pack w.format (.ofScientific w.format n 0)) := by
  cases w with
  | single =>
    have hconv : (ofInt (n : ℤ) : Width.Number .single) = Float32.ofScientific n false 0 := rfl
    rw [hconv]
    unfold Float32.ofScientific
    by_cases hsmall : n < 2 ^ 23 ∧ 0 ≤ 10
    · rw [dif_pos hsmall]
      exact .inl ⟨n.toUInt64.toFloat32, Float32.ofBits 0x3F800000, rfl, rfl, rfl⟩
    · rw [dif_neg hsmall]
      exact .inr rfl
  | double =>
    have hconv : (ofInt (n : ℤ) : Width.Number .double) = Float.ofScientific n false 0 := rfl
    rw [hconv]
    unfold Float.ofScientific
    by_cases hsmall : n < 2 ^ 53 ∧ 0 ≤ 22
    · rw [dif_pos hsmall]
      exact .inl ⟨n.toUInt64.toFloat, Float.ofBits 0x3FF0000000000000, rfl, rfl, rfl⟩
    · rw [dif_neg hsmall]
      exact .inr rfl

/-- However it is converted, a natural number is not negative. -/
theorem hasSign_ofNat (w : Width) (n : ℕ) : w.HasSign (ofInt (n : ℤ)) .positive := by
  rcases ofNat_cases w n with ⟨m, c, hprod, hc, hm⟩ | hdecimal
  · have hsign : w.HasSign m .positive := fun h => (sign_of_pack hm h).2.trans (sign_ofNat _)
    rw [hprod]
    exact hsign.mul fun _ => hc
  · intro h
    obtain ⟨hnum, hsign⟩ := sign_of_pack hdecimal h
    exact hsign.trans (sign_ofScientific n 0 hnum)

/-- An integer is converted to a number of its sign. -/
theorem hasSign_ofInt (w : Width) (n : ℤ) :
    w.HasSign (ofInt n) (if n < 0 then .negative else .positive) := by
  cases n with
  | ofNat n => exact hasSign_ofNat w n
  | negSucc n =>
    have hneg : (ofInt (Int.negSucc n) : w.Number) = -ofInt ((n + 1 : ℕ) : ℤ) := by
      cases w <;> rfl
    rw [hneg, if_pos (Int.negSucc_lt_zero n)]
    exact (hasSign_ofNat w (n + 1)).neg

/-! ### Comparing with zero -/

/-- A number that is not zero is above it if its sign is positive, and below it if it is
    negative. -/
theorem zero_lt_iff_sign (hnum : Scalar.isNaN x = false) (hne : (x == 0) = false) :
    (0 < x ↔ w.sign x = .positive) ∧ (x < 0 ↔ w.sign x = .negative) := by
  rw [isNaN_eq] at hnum
  rw [beq_eq, unpack_zero] at hne
  rw [lt_iff, lt_iff, unpack_zero]
  unfold Width.sign
  generalize w.unpack x = u at hnum hne ⊢
  cases u with
  | notANumber => cases hnum
  | zero s => cases hne
  | infinity s | finite s m e hm =>
    cases s with
    | positive => exact ⟨iff_of_true rfl rfl, iff_of_false nofun nofun⟩
    | negative => exact ⟨iff_of_false nofun nofun, iff_of_true rfl rfl⟩

/-- What is below zero is a number, and negative. -/
theorem sign_of_lt_zero (h : x < 0) : w.sign x = .negative := by
  rw [lt_iff, unpack_zero] at h
  unfold Width.sign
  generalize w.unpack x = u at h
  cases u with
  | notANumber => cases h
  | zero s => cases h
  | infinity s | finite s m e hm =>
    cases s with
    | negative => rfl
    | positive => cases h

/-- If a product is a number other than zero, then so is its second factor. -/
theorem mul_right_num (hnum : Scalar.isNaN (x * y) = false) (hne : (x * y == 0) = false) :
    Scalar.isNaN y = false ∧ (y == 0) = false := by
  obtain ⟨hprod, -⟩ := sign_of_pack (unpack_mul_eq x y) hnum
  obtain ⟨-, hy, -⟩ := Binary.sign_mul hprod
  refine ⟨by rw [isNaN_eq]; exact hy, ?_⟩
  rw [← Bool.not_eq_true] at hne ⊢
  intro hzero
  refine hne ?_
  rw [beq_eq, unpack_zero, Binary.beq_zero_iff] at hzero ⊢
  obtain ⟨s, hs⟩ := hzero
  rw [hs] at hprod
  rw [unpack_mul_eq, hs]
  generalize w.unpack x = u at hprod ⊢
  cases u with
  | notANumber => cases hprod
  | infinity => cases hprod
  | zero s' => exact ⟨_, unpack_pack (u := .zero (s' * s)) trivial⟩
  | finite s' m e hm => exact ⟨_, unpack_pack (u := .zero (s' * s)) trivial⟩

end Width

/-! ## Signs of powers -/

/-- The sign of a power whose base has the sign `s`. -/
def signPow (s : Sign) (n : ℤ) : Sign := if Odd n then s else .positive

theorem mul_positive (s : Sign) : s * .positive = s := by
  cases s <;> rfl

theorem positive_mul (s : Sign) : .positive * s = s := by
  cases s <;> rfl

theorem mul_self_sign (s : Sign) : s * s = .positive := by
  cases s <;> rfl

theorem signPow_positive (n : ℤ) : signPow .positive n = .positive := ite_self _

namespace Width

open Binary

variable {w : Width} {a m x y : w.Number} {s t : Sign}

/-- The loop over the bits of the exponent keeps the sign of `m · a ^ p`.  After the lowest bit the
    base is a square. -/
theorem HasSign.powLoop (p : ℕ) (hm : w.HasSign m s) (ha : w.HasSign a t) :
    w.HasSign (powLoop m a p) (s * signPow t p) := by
  induction p using Nat.strong_induction_on generalizing m a s t with
  | _ p ih =>
    have hfactor : w.HasSign (if p % 2 = 1 then m * a else m) (s * signPow t p) := by
      unfold signPow
      by_cases hbit : p % 2 = 1
      · have hodd : Odd (p : ℤ) := by
          rw [Int.odd_iff]
          omega
        rw [if_pos hbit, if_pos hodd]
        exact hm.mul ha
      · have heven : ¬ Odd (p : ℤ) := by
          rw [Int.odd_iff]
          omega
        rw [if_neg hbit, if_neg heven, mul_positive]
        exact hm
    rw [powLoop]
    by_cases hlast : p / 2 = 0
    · rw [if_pos hlast]
      exact hfactor
    · have hrest := ih (p / 2) (by omega) hfactor (ha.mul ha)
      rw [mul_self_sign, signPow_positive, mul_positive] at hrest
      rw [if_neg hlast]
      exact hrest

/-- An integer power has the sign of the exact one. -/
theorem HasSign.powi (ha : w.HasSign a t) (n : ℤ) : w.HasSign (powi a n) (signPow t n) := by
  have hloop := (hasSign_one w).powLoop n.natAbs ha
  have habs : signPow t (n.natAbs : ℤ) = signPow t n := by
    simp only [signPow, Int.natCast_natAbs, odd_abs]
  rw [positive_mul, habs] at hloop
  unfold Scalar.powi
  by_cases hneg : n < 0
  · rw [if_pos hneg, ← positive_mul (signPow t n)]
    exact (hasSign_one w).div hloop
  · rw [if_neg hneg]
    exact hloop

/-! ## The slope of a power -/

variable [Elementary w.Number]

/-- To an integral exponent the power of a negative number is negative exactly if the exponent is
    odd, unless the platform answers zero or a NaN. -/
def PowSigned (w : Width) [Elementary w.Number] : Prop :=
  ∀ (a y : w.Number) (k : ℤ), Scalar.isFinite a = true → a < 0 → Scalar.isFinite y = true →
    w.value y = k → Scalar.isNaN (Elementary.pow a y) = false →
    (Elementary.pow a y == 0) = false → (Elementary.pow a y < 0 ↔ Odd k)

end Width

/-- The slope `n · a ^ (n - 1)` is positive for negative `a`. -/
def SlopePositive (n : ℤ) : Prop := 0 < n ∧ Odd n ∨ n < 0 ∧ Even n

/-- What the slope is over the rationals. -/
theorem slope_pos_iff {q : ℚ} (hq : q < 0) (n : ℤ) :
    0 < n * q ^ (n - 1) ↔ SlopePositive n := by
  unfold SlopePositive
  rcases Int.even_or_odd n with heven | hodd
  · have hpow : q ^ (n - 1) < 0 := (heven.sub_odd odd_one).zpow_neg hq
    have hsign : 0 < n * q ^ (n - 1) ↔ n < 0 := by
      rw [mul_pos_iff, ← Int.cast_lt_zero (R := ℚ)]
      exact ⟨fun h => h.elim (fun h => absurd h.2 hpow.not_gt) And.left, fun h => .inr ⟨h, hpow⟩⟩
    have hnot : ¬ Odd n := Int.not_odd_iff_even.mpr heven
    rw [hsign]
    tauto
  · have hpow : 0 < q ^ (n - 1) := (hodd.sub_odd odd_one).zpow_pos hq.ne
    have hnot : ¬ Even n := Int.not_even_iff_odd.mpr hodd
    rw [mul_pos_iff_of_pos_right hpow, Int.cast_pos]
    tauto

/-- The sign of an integer other than zero, times that of the power below it. -/
theorem slope_sign_iff {n : ℤ} (hn : n ≠ 0) :
    (if n < 0 then Sign.negative else .positive) * signPow .negative (n - 1) = .positive ↔
      SlopePositive n := by
  unfold signPow SlopePositive
  rcases Int.even_or_odd n with heven | hodd
  · have hnot : ¬ Odd n := Int.not_odd_iff_even.mpr heven
    rw [if_pos (heven.sub_odd odd_one)]
    by_cases hneg : n < 0
    · rw [if_pos hneg]
      exact iff_of_true rfl (.inr ⟨hneg, heven⟩)
    · rw [if_neg hneg]
      exact iff_of_false nofun (by tauto)
  · have hnot : ¬ Even n := Int.not_even_iff_odd.mpr hodd
    rw [if_neg (Int.not_odd_iff_even.mpr (hodd.sub_odd odd_one))]
    by_cases hneg : n < 0
    · rw [if_pos hneg]
      exact iff_of_false nofun fun h => h.elim (fun h => absurd h.1 hneg.not_gt) (hnot ·.2)
    · rw [if_neg hneg]
      exact iff_of_true rfl (.inl ⟨by omega, hodd⟩)

namespace Width

open Binary

variable {w : Width} {a b r : w.Number} [Elementary w.Number]

/-- The power of the platform, where the product with it is a number other than zero. -/
theorem PowSigned.hasSign (hpow : PowSigned w) {a x y : w.Number} {k : ℤ}
    (hfin : Scalar.isFinite a = true) (ha : a < 0) (hy : Scalar.isFinite y = true)
    (hk : w.value y = k) (hnum : Scalar.isNaN (x * Elementary.pow a y) = false)
    (hne : (x * Elementary.pow a y == 0) = false) :
    w.HasSign (Elementary.pow a y) (signPow .negative k) := by
  intro _
  obtain ⟨hpownum, hpowne⟩ := mul_right_num hnum hne
  obtain ⟨hpos, hneg⟩ := zero_lt_iff_sign hpownum hpowne
  have hodd := hpow a y k hfin ha hy hk hpownum hpowne
  unfold signPow
  by_cases h : Odd k
  · rw [if_pos h]
    exact hneg.mp (hodd.mpr h)
  · rw [if_neg h]
    cases hs : w.sign (Elementary.pow a y) with
    | positive => rfl
    | negative => exact absurd (hodd.mp (hneg.mpr hs)) h

omit [Elementary w.Number] in
/-- The exponent below the least one, as a number: single numbers round it to the least exponent
    again, which is even. -/
theorem least_sub_one (w : Width) :
    ∃ k : ℤ, Scalar.isFinite (ofInt Int32.minValue.toInt - 1 : w.Number) = true ∧
      w.value (ofInt Int32.minValue.toInt - 1) = k ∧ (Odd k ↔ w = .double) := by
  cases w with
  | single =>
    have hbits : (ofInt Int32.minValue.toInt - 1 : Float32) = Float32.ofBits 0xCF000000 := by
      decide +kernel
    have hunpack : Width.single.unpack (Float32.ofBits 0xCF000000) =
        .finite .negative (2 ^ 23) 8 (by decide) := rfl
    obtain ⟨hfinite, hvalue⟩ := finite_of_unpack_negative (w := .single) hunpack
    rw [hbits]
    refine ⟨-2147483648, hfinite, ?_, by decide⟩
    rw [hvalue]
    norm_num
  | double =>
    have hbits : (ofInt Int32.minValue.toInt - 1 : Float) = Float.ofBits 0xC1E0000000200000 := by
      decide +kernel
    have hunpack : Width.double.unpack (Float.ofBits 0xC1E0000000200000) =
        .finite .negative ((2 ^ 31 + 1) * 2 ^ 21) (-21) (by decide) := rfl
    obtain ⟨hfinite, hvalue⟩ := finite_of_unpack_negative (w := .double) hunpack
    rw [hbits]
    refine ⟨-2147483649, hfinite, ?_, by decide⟩
    rw [hvalue]
    norm_num

/-- The sign of the slope that is computed. -/
theorem sign_powiPartial (hpow : PowSigned w) (hfin : Scalar.isFinite a = true) (ha : a < 0)
    {n : ℤ} (hn : n ≠ 0) (hnum : Scalar.isNaN (powiPartial a n) = false)
    (hne : (powiPartial a n == 0) = false) :
    w.sign (powiPartial a n) = .positive ↔
      SlopePositive n ∧ ¬ (w = .single ∧ n = Int32.minValue.toInt) := by
  have hsign : w.HasSign a .negative := fun _ => sign_of_lt_zero ha
  unfold powiPartial at hnum hne ⊢
  rw [if_neg hn] at hnum hne ⊢
  by_cases hleast : n = Int32.minValue.toInt
  · -- the power of the platform, to an exponent that may have been rounded
    subst hleast
    obtain ⟨k, hfinite, hvalue, hodd⟩ := least_sub_one w
    rw [if_pos rfl] at hnum hne ⊢
    rw [((hasSign_ofInt w _).mul (hpow.hasSign hfin ha hfinite hvalue hnum hne)) hnum,
      if_pos (by decide)]
    have hslope : SlopePositive Int32.minValue.toInt := .inr ⟨by decide, by decide⟩
    have hk : Sign.negative * signPow .negative k = .positive ↔ Odd k := by
      unfold signPow
      by_cases h : Odd k
      · rw [if_pos h]
        exact iff_of_true rfl h
      · rw [if_neg h]
        exact iff_of_false nofun h
    rw [hk, hodd]
    cases w with
    | single => exact iff_of_false nofun fun h => h.2 ⟨rfl, rfl⟩
    | double => exact iff_of_true rfl ⟨hslope, nofun⟩
  · rw [if_neg hleast] at hnum hne ⊢
    rw [((hasSign_ofInt w n).mul (hsign.powi (n - 1))) hnum, slope_sign_iff hn]
    exact (and_iff_left fun h => hleast h.2).symm

/-- The partial of an integer power of a negative number, where it is a number other than zero, has
    the sign of the exact slope.  The one exception is the least exponent in single width: the slope
    is positive there, and the partial negative. -/
theorem sign_powi_partial (hpow : PowSigned w) {n : Int32} (hfin : Scalar.isFinite a = true)
    (ha : a < 0) (hn : n ≠ 0)
    (hnum : Scalar.isNaN (partials .powi a b r (.exponent n)).1 = false)
    (hne : ((partials .powi a b r (.exponent n)).1 == 0) = false) :
    (0 < n.toInt * w.value a ^ (n.toInt - 1) ↔ SlopePositive n.toInt) ∧
      (0 < (partials .powi a b r (.exponent n)).1 ↔
        SlopePositive n.toInt ∧ ¬ (w = .single ∧ n = Int32.minValue)) ∧
      ((partials .powi a b r (.exponent n)).1 < 0 ↔
        ¬ 0 < (partials .powi a b r (.exponent n)).1) := by
  have hvalue : w.value a < 0 := by
    rwa [lt_iff_value hfin isFinite_zero, value_zero] at ha
  have hint : n.toInt ≠ 0 := fun h => hn (Int32.toInt_inj.mp h)
  have hsign := sign_powiPartial hpow hfin ha hint hnum hne
  rw [Int32.toInt_inj] at hsign
  obtain ⟨hpos, hneg⟩ := zero_lt_iff_sign hnum hne
  refine ⟨slope_pos_iff hvalue n.toInt, hpos.trans hsign, ?_⟩
  rw [hpos, hneg]
  cases w.sign (partials .powi a b r (.exponent n)).1 with
  | positive => exact iff_of_false nofun (absurd rfl)
  | negative => exact iff_of_true rfl nofun

/-! ## A platform -/

/-- A power that is one or minus one, by the parity of the exponent. -/
def parityPower (w : Width) (_ y : w.Number) : w.Number :=
  match Scalar.floorInt? y with
  | some k => if k % 2 = 0 then 1 else -1
  | none => 1

/-- A platform that knows the signs of powers, and is right about the powers of minus one. -/
abbrev parityPlatform (w : Width) : Elementary w.Number :=
  { (inferInstance : Elementary w.Number) with pow := parityPower w }

theorem powSigned_parityPlatform (w : Width) : @PowSigned w (parityPlatform w) := by
  intro a y k _ _ hy hk _ _
  show parityPower w a y < 0 ↔ Odd k
  have hone : ¬ (1 : w.Number) < 0 := by cases w <;> decide +kernel
  have hminus : (-1 : w.Number) < 0 := by cases w <;> decide +kernel
  unfold parityPower
  rw [floorInt?_eq_floor hy, hk, Int.floor_intCast]
  dsimp only
  rcases Int.even_or_odd k with heven | hodd
  · rw [if_pos (Int.even_iff.mp heven)]
    exact iff_of_false hone (Int.not_odd_iff_even.mpr heven)
  · rw [if_neg (by rw [Int.odd_iff.mp hodd]; decide)]
    exact iff_of_true hminus hodd

/-- In double width the least exponent is no exception. -/
theorem sign_powi_partial_of_least_exponent :
    0 < (@partials Float _ (parityPlatform .double) .powi (-1) 0 1
      (.exponent Int32.minValue)).1 := by
  have hslope : SlopePositive Int32.minValue.toInt := .inr ⟨by decide, by decide⟩
  exact (@sign_powi_partial .double (-1) 0 1 (parityPlatform .double)
    (powSigned_parityPlatform .double) Int32.minValue (by decide +kernel) (by decide +kernel)
    (by decide) (by decide +kernel) (by decide +kernel)).2.1.mpr ⟨hslope, nofun⟩

/-- The partial of an integer power of a negative number, where it is a number other than zero, is
    positive exactly if the exact slope is. -/
def SlopeSigned (w : Width) [Elementary w.Number] : Prop :=
  ∀ (a r : w.Number) (n : Int32), Scalar.isFinite a = true → a < 0 → n ≠ 0 →
    Scalar.isNaN (partials .powi a 0 r (.exponent n)).1 = false →
    ((partials .powi a 0 r (.exponent n)).1 == 0) = false →
    (0 < (partials .powi a 0 r (.exponent n)).1 ↔ SlopePositive n.toInt)

/-- In single width it is not, at minus one and the least exponent: `n - 1` is rounded to an even
    number. -/
theorem slope_of_least_exponent_wrong :
    ∃ platform : Elementary (Width.Number .single),
      @PowSigned .single platform ∧
      (@partials Float32 _ platform .powi (-1) 0 1 (.exponent Int32.minValue)).1 = -2147483648 ∧
      SlopePositive Int32.minValue.toInt ∧ ¬ @SlopeSigned .single platform := by
  have hslope : SlopePositive Int32.minValue.toInt := .inr ⟨by decide, by decide⟩
  have hpartial : (@partials Float32 _ (parityPlatform .single) .powi (-1) 0 1
      (.exponent Int32.minValue)).1 = -2147483648 := by
    decide +kernel
  refine ⟨parityPlatform .single, powSigned_parityPlatform .single, hpartial, hslope, fun h => ?_⟩
  have hpos := (h (-1) 1 Int32.minValue (by decide +kernel) (by decide +kernel) (by decide)
    (by decide +kernel) (by decide +kernel)).mpr hslope
  exact absurd hpos (by decide +kernel)

end Width

end DiffTape
