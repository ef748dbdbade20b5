/-
  THE PARTIALS ARE DERIVATIVES.

  The catalog has some thirty pairs of formulas.  Over the real numbers, with the elementary
  functions of analysis, the second formula of each pair is the derivative of the first:
  `hasPartials_evalValue` says that the value of an operation is differentiable as a function of
  both operands together, and that `partials`, given that very value as its `r`, are the
  coefficients of the derivative.  It holds wherever the operation is differentiable, which
  `Opcode.SmoothAt` spells out.

  1. **Interpretation** — the reals are an ordered field, so their arithmetic is `exactScalar`;
     only the elementary functions are still to be named.  The angle of a point is the argument
     of a complex number.

  2. **Functions of one number** — analysis mostly has the derivative in another form than the
     catalog, which writes it in terms of the result (`tan`, `tanh`, `sqrt`) or takes it from a
     loop (`powi`, `scalePow2`).  One lemma for each of these.

  3. **Functions of two numbers** — `HasPartials` is a total derivative, given by its two
     coefficients.  A function that ignores its second operand has one if it has a derivative
     (`HasPartials.of_unary`).  The power and the angle are the two that are no rule of
     differentiation; they come from the power and from the logarithm of analysis
     (`hasPartials_rpow`, `hasPartials_angle`).

  4. **The catalog** — one case for each operation.  From the total derivative come both partial
     ones (`HasPartials.fst`, `HasPartials.snd`), and with them `partials_eq_partialDerivatives`.
-/
import Mathlib.Analysis.CStarAlgebra.Classes
import Mathlib.Analysis.Calculus.Deriv.Abs
import Mathlib.Analysis.Calculus.Deriv.ZPow
import Mathlib.Analysis.SpecialFunctions.Arcosh
import Mathlib.Analysis.SpecialFunctions.Arsinh
import Mathlib.Analysis.SpecialFunctions.Artanh
import Mathlib.Analysis.SpecialFunctions.Complex.LogDeriv
import Mathlib.Analysis.SpecialFunctions.Log.Base
import Mathlib.Analysis.SpecialFunctions.Pow.Deriv
import Mathlib.Analysis.SpecialFunctions.Sqrt
import Mathlib.Analysis.SpecialFunctions.Trigonometric.ArctanDeriv
import Mathlib.Analysis.SpecialFunctions.Trigonometric.InverseDeriv
import DiffTape.Proofs.Exact

namespace DiffTape

open Scalar

/-! ## The real numbers -/

noncomputable instance : IntegerPart ℝ := ⟨fun x => some ⌊x⌋⟩

/-- The elementary functions of the reals are those of analysis. -/
noncomputable instance realFunctions : Elementary ℝ where
  exp := Real.exp
  ln := Real.log
  log10 := Real.logb 10
  log2 := Real.logb two
  sqrt := Real.sqrt
  sin := Real.sin
  cos := Real.cos
  tan := Real.tan
  asin := Real.arcsin
  acos := Real.arccos
  atan := Real.arctan
  atan2 a b := Complex.arg ⟨b, a⟩
  sinh := Real.sinh
  cosh := Real.cosh
  tanh := Real.tanh
  asinh := Real.arsinh
  acosh := Real.arcosh
  atanh := Real.artanh
  pow a b := a ^ b
  ln10 := Real.log 10

/-- The operand values at which an operation is differentiable.  A power with a negative exponent
    has a pole at zero, and the nonsmooth operations have their kink there. -/
def Opcode.SmoothAt (op : Opcode) (aux : Aux) (a b : ℝ) : Prop :=
  match op with
  | .div => b ≠ 0
  | .atan2 => 0 < b ∨ a ≠ 0
  | .pow | .ln | .log10 | .sqrt => 0 < a
  | .tan => Real.cos a ≠ 0
  | .asin | .acos | .atanh => |a| < 1
  | .acosh => 1 < a
  | .powi => aux.exponentD < 0 → a ≠ 0
  | .abs | .signum => a ≠ 0
  | _ => True

/-! ## Derivatives of functions of one number -/

theorem hasDerivAt_log10 {x : ℝ} (hx : 0 < x) :
    HasDerivAt (Real.logb 10) (1 / (x * Real.log 10)) x := by
  refine ((Real.hasDerivAt_log hx.ne').div_const (Real.log 10)).congr_deriv ?_
  rw [inv_eq_one_div, div_div]

/-- Inside the unit interval neither end is met. -/
theorem ne_ends_of_abs_lt {x : ℝ} (hx : |x| < 1) : x ≠ -1 ∧ x ≠ 1 := by
  obtain ⟨hlow, hhigh⟩ := abs_lt.mp hx
  exact ⟨hlow.ne', hhigh.ne⟩

/-- The derivative of the tangent, in terms of the tangent. -/
theorem hasDerivAt_tan_result {x : ℝ} (hx : Real.cos x ≠ 0) :
    HasDerivAt Real.tan (1 + Real.tan x * Real.tan x) x := by
  refine (Real.hasDerivAt_tan hx).congr_deriv ?_
  rw [div_eq_iff (pow_ne_zero 2 hx), ← pow_two]
  exact (Real.one_add_tan_sq_mul_cos_sq_eq_one hx).symm

/-- The derivative of the hyperbolic tangent, in terms of the hyperbolic tangent. -/
theorem hasDerivAt_tanh_result (x : ℝ) :
    HasDerivAt Real.tanh (1 - Real.tanh x * Real.tanh x) x := by
  have hcosh : Real.cosh x ≠ 0 := (Real.cosh_pos x).ne'
  have hquotient := (Real.hasDerivAt_sinh x).div (Real.hasDerivAt_cosh x) hcosh
  have htanh : Real.tanh = Real.sinh / Real.cosh := funext Real.tanh_eq_sinh_div_cosh
  rw [htanh]
  refine hquotient.congr_deriv ?_
  show _ = 1 - Real.sinh x / Real.cosh x * (Real.sinh x / Real.cosh x)
  field_simp

theorem hasDerivAt_artanh {x : ℝ} (hx : |x| < 1) :
    HasDerivAt Real.artanh (1 / (1 - x * x)) x := by
  obtain ⟨hlow, hhigh⟩ := abs_lt.mp hx
  have hquotient : HasDerivAt (fun u : ℝ => (1 + u) / (1 - u))
      ((1 * (1 - x) - (1 + x) * -1) / (1 - x) ^ 2) x :=
    ((hasDerivAt_id' x).const_add 1).div ((hasDerivAt_id' x).const_sub 1) (by linarith)
  have hne : (1 + x) / (1 - x) ≠ 0 := (div_pos (by linarith) (by linarith)).ne'
  -- near the point, the function is half a logarithm
  have hnear : Real.artanh =ᶠ[nhds x] fun u => 1 / 2 * Real.log ((1 + u) / (1 - u)) := by
    filter_upwards [Ioo_mem_nhds hlow hhigh] with u hu
    exact Real.artanh_eq_half_log (Set.Ioo_subset_Icc_self hu)
  refine (((hquotient.log hne).const_mul (1 / 2)).congr_of_eventuallyEq hnear).congr_deriv ?_
  have hplus : 1 + x ≠ 0 := by linarith
  have hminus : 1 - x ≠ 0 := by linarith
  have hprod : 1 - x * x = (1 - x) * (1 + x) := by ring
  rw [hprod]
  field_simp
  ring

/-- The sign of a number is constant on each side of zero. -/
theorem hasDerivAt_branchSign {x : ℝ} (hx : x ≠ 0) :
    HasDerivAt (fun u : ℝ => ((Branch.of u).sign : ℝ)) 0 x := by
  rcases lt_or_gt_of_ne hx with hneg | hpos
  · refine (hasDerivAt_const x (-1 : ℝ)).congr_of_eventuallyEq ?_
    filter_upwards [Iio_mem_nhds hneg] with u hu
    rw [branch_of_neg hu]
    rfl
  · refine (hasDerivAt_const x (1 : ℝ)).congr_of_eventuallyEq ?_
    filter_upwards [Ioi_mem_nhds hpos] with u hu
    rw [branch_of_pos hu]
    rfl

/-- The slope of the magnitude is the sign. -/
theorem hasDerivAt_abs_sign {x : ℝ} (hx : x ≠ 0) :
    HasDerivAt (fun u : ℝ => |u|) (Branch.of x).sign x := by
  rcases lt_or_gt_of_ne hx with hneg | hpos
  · rw [branch_of_neg hneg]
    exact hasDerivAt_abs_neg hneg
  · rw [branch_of_pos hpos]
    exact hasDerivAt_abs_pos hpos

/-- The slope of an integer power.  At the least exponent the formula goes through the real
    power, which for an integral exponent is the integer one. -/
theorem powiPartial_eq (x : ℝ) (n : Int) : powiPartial x n = n * x ^ (n - 1) := by
  unfold powiPartial
  by_cases hzero : n = 0
  · rw [if_pos hzero, hzero, Int.cast_zero, zero_mul]
  rw [if_neg hzero]
  by_cases hleast : n = Int32.minValue.toInt
  · rw [if_pos hleast]
    show (n : ℝ) * x ^ ((n : ℝ) - 1) = _
    rw [← Int.cast_one, ← Int.cast_sub, Real.rpow_intCast]
  · rw [if_neg hleast, powi_eq]
    rfl

theorem hasDerivAt_powi {x : ℝ} {n : Int} (hx : n < 0 → x ≠ 0) :
    HasDerivAt (fun u : ℝ => powi u n) (powiPartial x n) x := by
  have hpowi : (fun u : ℝ => powi u n) = fun u => u ^ n := funext fun u => powi_eq u n
  rw [hpowi, powiPartial_eq]
  refine hasDerivAt_zpow n x ?_
  by_cases hn : n < 0
  · exact Or.inl (hx hn)
  · exact Or.inr (not_lt.mp hn)

theorem hasDerivAt_scalePow2 (e : Int) (x : ℝ) :
    HasDerivAt (fun u : ℝ => scalePow2 u e) (scalePow2 1 e) x := by
  have hscale : (fun u : ℝ => scalePow2 u e) = fun u => u * 2 ^ e :=
    funext fun u => scalePow2_eq u e
  rw [hscale, scalePow2_eq]
  exact (hasDerivAt_id' x).mul_const _

/-! ## Derivatives of functions of two numbers -/

/-- A function of two numbers is differentiable at `(a, b)` with the partial derivatives `d`. -/
def HasPartials (f : ℝ → ℝ → ℝ) (d : ℝ × ℝ) (a b : ℝ) : Prop :=
  HasFDerivAt (fun u : ℝ × ℝ => f u.1 u.2)
    (d.1 • ContinuousLinearMap.fst ℝ ℝ ℝ + d.2 • ContinuousLinearMap.snd ℝ ℝ ℝ) (a, b)

namespace HasPartials

variable {f : ℝ → ℝ → ℝ} {d : ℝ × ℝ} {a b : ℝ}

/-- The derivative after the first operand, the second one held. -/
theorem fst (h : HasPartials f d a b) : HasDerivAt (fun u => f u b) d.1 a := by
  have hline : HasDerivAt (fun u : ℝ => (u, b)) ((1 : ℝ), (0 : ℝ)) a :=
    (hasDerivAt_id' a).prodMk (hasDerivAt_const a b)
  have htotal : HasFDerivAt (fun u : ℝ × ℝ => f u.1 u.2) _ (a, b) := h
  refine (htotal.comp_hasDerivAt a hline).congr_deriv ?_
  simp

/-- The derivative after the second operand, the first one held. -/
theorem snd (h : HasPartials f d a b) : HasDerivAt (fun v => f a v) d.2 b := by
  have hline : HasDerivAt (fun v : ℝ => (a, v)) ((0 : ℝ), (1 : ℝ)) b :=
    (hasDerivAt_const b a).prodMk (hasDerivAt_id' b)
  have htotal : HasFDerivAt (fun u : ℝ × ℝ => f u.1 u.2) _ (a, b) := h
  refine (htotal.comp_hasDerivAt b hline).congr_deriv ?_
  simp

/-- A function that ignores its second operand has no slope after it. -/
theorem of_unary {g : ℝ → ℝ} {g' : ℝ} (h : HasDerivAt g g' a) :
    HasPartials (fun u _ => g u) (g', 0) a b := by
  refine (h.comp_hasFDerivAt (a, b) hasFDerivAt_fst).congr_fderiv ?_
  simp

end HasPartials

/-- The quotient: the second slope is `-r / b`. -/
theorem hasPartials_div {b : ℝ} (hb : b ≠ 0) (a : ℝ) :
    HasPartials (fun u v => u / v) (1 / b, -(a / b) * (1 / b)) a b := by
  have hinv : HasFDerivAt (fun u : ℝ × ℝ => u.2⁻¹)
      (-(b ^ 2)⁻¹ • ContinuousLinearMap.snd ℝ ℝ ℝ) (a, b) :=
    (hasDerivAt_inv hb).comp_hasFDerivAt (a, b) hasFDerivAt_snd
  have hquotient : (fun u : ℝ × ℝ => u.1 / u.2) = fun u => u.1 * u.2⁻¹ :=
    funext fun u => div_eq_mul_inv u.1 u.2
  show HasFDerivAt (fun u : ℝ × ℝ => u.1 / u.2) _ (a, b)
  rw [hquotient]
  refine (hasFDerivAt_fst.mul hinv).congr_fderiv ?_
  ext
  · simp
  · simp
    field_simp

theorem hasPartials_rpow {a : ℝ} (ha : 0 < a) (b : ℝ) :
    HasPartials (fun u v => u ^ v) (b * a ^ (b - 1), Real.log a * a ^ b) a b := by
  refine (Real.hasStrictFDerivAt_rpow_of_pos (a, b) ha).hasFDerivAt.congr_fderiv ?_
  show _ • _ + (a ^ b * Real.log a) • _ = _ • _ + (Real.log a * a ^ b) • _
  rw [mul_comm (a ^ b)]

/-- The point with abscissa `u.2` and ordinate `u.1`, as a linear function of the two. -/
noncomputable def planePoint : ℝ × ℝ →L[ℝ] ℂ :=
  (Complex.equivRealProdCLM.symm : ℝ × ℝ →L[ℝ] ℂ).comp
    ((ContinuousLinearMap.snd ℝ ℝ ℝ).prod (ContinuousLinearMap.fst ℝ ℝ ℝ))

@[simp]
theorem planePoint_apply (u v : ℝ) : planePoint (u, v) = ⟨v, u⟩ :=
  Complex.ext (by simp [planePoint]) (by simp [planePoint])

/-- The angle of a point off the negative axis is the imaginary part of its logarithm. -/
theorem hasPartials_angle {a b : ℝ} (h : 0 < b ∨ a ≠ 0) :
    HasPartials (fun u v => Complex.arg ⟨v, u⟩)
      (b / (a * a + b * b), -a / (a * a + b * b)) a b := by
  have hplane : planePoint (a, b) ∈ Complex.slitPlane := by
    rw [planePoint_apply]
    exact Complex.mem_slitPlane_iff.mpr h
  have hlog := (Complex.hasStrictFDerivAt_log_real hplane).hasFDerivAt
  have himag := Complex.imCLM.hasFDerivAt.comp (a, b) (hlog.comp (a, b) planePoint.hasFDerivAt)
  have hangle : (fun u : ℝ × ℝ => Complex.arg ⟨u.2, u.1⟩) =
      Complex.imCLM ∘ Complex.log ∘ planePoint := by
    funext u
    show _ = (Complex.log (planePoint (u.1, u.2))).im
    rw [planePoint_apply, Complex.log_im]
  have hnorm : b * b + a * a = a * a + b * b := add_comm _ _
  show HasFDerivAt (fun u : ℝ × ℝ => Complex.arg ⟨u.2, u.1⟩) _ (a, b)
  rw [hangle]
  -- the slopes are the imaginary parts of `i / z` and of `1 / z`
  refine himag.congr_fderiv ?_
  ext
  · simp [Complex.normSq_mk, hnorm]
  · simp [Complex.normSq_mk, hnorm]

/-! ## The catalog -/

/-- The partials of an operation at its own result are the derivative of its value. -/
theorem hasPartials_evalValue {op : Opcode} {aux : Aux} {a b : ℝ} (hop : op ≠ .const)
    (hsmooth : op.SmoothAt aux a b) :
    HasPartials (fun u v => evalValue op u v aux)
      (partials op a b (evalValue op a b aux) aux) a b := by
  have hid : HasDerivAt (fun u : ℝ => u) 1 a := hasDerivAt_id' a
  cases op with
  | const => exact absurd rfl hop
  | add =>
    refine (hasFDerivAt_fst.add hasFDerivAt_snd).congr_fderiv ?_
    show _ = (1 : ℝ) • _ + (1 : ℝ) • _
    rw [one_smul, one_smul]
  | sub =>
    refine (hasFDerivAt_fst.sub hasFDerivAt_snd).congr_fderiv ?_
    show _ = (1 : ℝ) • _ + (-1 : ℝ) • _
    rw [one_smul, neg_one_smul ℝ (ContinuousLinearMap.snd ℝ ℝ ℝ), sub_eq_add_neg]
  | mul =>
    refine (hasFDerivAt_fst.mul hasFDerivAt_snd).congr_fderiv ?_
    exact add_comm _ _
  | div => exact hasPartials_div hsmooth a
  | atan2 => exact hasPartials_angle hsmooth
  | pow => exact hasPartials_rpow hsmooth b
  | pos => exact .of_unary hid
  | neg => exact .of_unary hid.neg
  | incr => exact .of_unary (hid.add_const 1)
  | decr => exact .of_unary (hid.sub_const 1)
  | powi => exact .of_unary (hasDerivAt_powi hsmooth)
  | ldexp => exact .of_unary (hasDerivAt_scalePow2 aux.exponentD a)
  | frexp => exact .of_unary (hasDerivAt_scalePow2 aux.negExponent a)
  | exp => exact .of_unary (Real.hasDerivAt_exp a)
  | ln =>
    have ha : 0 < a := hsmooth
    exact .of_unary ((Real.hasDerivAt_log ha.ne').congr_deriv (one_div a).symm)
  | log10 => exact .of_unary (hasDerivAt_log10 hsmooth)
  | sqrt =>
    have ha : 0 < a := hsmooth
    refine .of_unary ((Real.hasDerivAt_sqrt ha.ne').congr_deriv ?_)
    show _ = 1 / (two * √a)
    rw [two_eq]
  | sin => exact .of_unary (Real.hasDerivAt_sin a)
  | cos => exact .of_unary (Real.hasDerivAt_cos a)
  | tan => exact .of_unary (hasDerivAt_tan_result hsmooth)
  | asin =>
    -- here and below, analysis writes a square and the catalog a product
    obtain ⟨hlow, hhigh⟩ := ne_ends_of_abs_lt hsmooth
    refine .of_unary ((Real.hasDerivAt_arcsin hlow hhigh).congr_deriv ?_)
    rw [pow_two]
    rfl
  | acos =>
    obtain ⟨hlow, hhigh⟩ := ne_ends_of_abs_lt hsmooth
    refine .of_unary ((Real.hasDerivAt_arccos hlow hhigh).congr_deriv ?_)
    rw [pow_two, ← neg_div]
    rfl
  | atan =>
    refine .of_unary ((Real.hasDerivAt_arctan a).congr_deriv ?_)
    rw [pow_two]
  | sinh => exact .of_unary (Real.hasDerivAt_sinh a)
  | cosh => exact .of_unary (Real.hasDerivAt_cosh a)
  | tanh => exact .of_unary (hasDerivAt_tanh_result a)
  | asinh =>
    refine .of_unary ((Real.hasDerivAt_arsinh a).congr_deriv ?_)
    rw [pow_two, add_comm, inv_eq_one_div]
    rfl
  | acosh =>
    refine .of_unary ((Real.hasDerivAt_arcosh hsmooth).congr_deriv ?_)
    rw [pow_two, inv_eq_one_div]
    rfl
  | atanh => exact .of_unary (hasDerivAt_artanh hsmooth)
  | abs => exact .of_unary (hasDerivAt_abs_sign hsmooth)
  | signum => exact .of_unary (hasDerivAt_branchSign hsmooth)

/-- The partials of an operation are the two partial derivatives of its value, wherever it is
    differentiable.  The second one is zero if the operation reads one operand. -/
theorem partials_eq_partialDerivatives {op : Opcode} {aux : Aux} {a b : ℝ} (hop : op ≠ .const)
    (hsmooth : op.SmoothAt aux a b) :
    HasDerivAt (fun u => evalValue op u b aux) (partials op a b (evalValue op a b aux) aux).1 a ∧
      HasDerivAt (fun v => evalValue op a v aux) (partials op a b (evalValue op a b aux) aux).2
        b ∧
      (op.arity = 1 → (partials op a b (evalValue op a b aux) aux).2 = 0) := by
  have htotal := hasPartials_evalValue hop hsmooth
  refine ⟨htotal.fst, htotal.snd, fun hunary => ?_⟩
  cases op with
  | add | sub | mul | div | atan2 | pow => exact absurd hunary (by decide)
  | _ => rfl

/-- The slope of the reciprocal cube at two is `-3 / 16`. -/
theorem partials_eq_partialDerivatives_of_reciprocal_cube :
    HasDerivAt (fun u : ℝ => evalValue .powi u 0 (.exponent (-3))) (-3 / 16) 2 := by
  have hslope : powiPartial (2 : ℝ) (-3) = -3 / 16 := by
    rw [powiPartial_eq]
    norm_num
  rw [← hslope]
  exact (@partials_eq_partialDerivatives .powi (.exponent (-3)) 2 0 (by decide)
    (fun _ => two_ne_zero)).1

end DiffTape
