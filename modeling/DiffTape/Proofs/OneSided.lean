/-
  ONE-SIDED DERIVATIVES THROUGH KINKS.

  A tape of sums, scalings by constants and magnitudes computes a piecewise linear function.  It has
  a derivative in every direction at every point, on a kink too, and along a short enough step it
  EQUALS its linear prediction.  This is what the sweep computes if its policy is to replay the
  branches (`replay_one_sided`): not an element of some set of derivatives, but the very derivative
  in the direction that was asked for.

  1. `Shortly P`     — `P` holds of every step `τ ≥ 0` that is short enough.
  2. `shortly_abs`   — a magnitude is linear along a short step.  Off its kink the step has to be so
                       short that the operand keeps its sign; on the kink any step will do.
  3. `Entry.along`   — one entry: its cell predicts the values along a short step, if the cells of
                       its operands do.
  4. `Tape.along`    — the pass.  What a cell is related to is a FUNCTION of the step, so that
                       `pass_rel` carries the induction, and each location gets a bound of its own.

  How short a step has to be is decided along the tape: an entry takes the least of the bounds of its
  operands, and `abs` one of its own.
-/
import Mathlib.Algebra.Order.Ring.Abs
import Mathlib.Algebra.Order.Ring.Rat
import Mathlib.Tactic.Linarith
import Mathlib.Tactic.Ring
import DiffTape.Proofs.Exact
import DiffTape.Proofs.Soundness

namespace DiffTape

open Scalar

/-- The operations of a piecewise linear tape: sums, magnitudes, and scalings by powers of two and
    by literals.  (Where the literal of a quotient is zero, the quotient is zero throughout.) -/
def Entry.IsPiecewiseLinear {F : Type} (e : Entry F) : Prop :=
  match e.op with
  | .const | .add | .sub | .pos | .neg | .incr | .decr | .ldexp | .frexp | .abs => True
  | .mul => (∃ c, e.lhs = .literal c) ∨ ∃ c, e.rhs = .literal c
  | .div => ∃ c, e.rhs = .literal c
  | _ => False

variable {K : Type} [Field K]

/-- The operation is linear along a step on which its operands have the slopes `u` and `v`: of two
    factors one is constant, and so is a divisor. -/
def Opcode.IsLinearAlong (op : Opcode) (u v : K) : Prop :=
  match op with
  | .const => u = 0
  | .add | .sub | .pos | .neg | .incr | .decr | .ldexp | .frexp => True
  | .mul => u = 0 ∨ v = 0
  | .div => v = 0
  | _ => False

/-- The point at the step `τ` from `x`, in the direction of the `k`-th column of `rows`. -/
def stepFrom (x : Array K) (rows : Array (Array K)) (k : Nat) (τ : K) : Array K :=
  Array.zipWith (fun a row => a + τ * row[k]?.getD 0) x rows

theorem stepFrom_map {α : Type} (f : α → K) (g : α → Array K) (k : Nat) (τ : K) (l : Array α) :
    stepFrom (l.map f) (l.map g) k τ = l.map fun a => f a + τ * (g a)[k]?.getD 0 := by
  unfold stepFrom
  rw [Array.zipWith_map, Array.zipWith_self]

variable [LinearOrder K]

/-! ## Short steps -/

/-- Every step that is short enough has the property. -/
def Shortly (P : K → Prop) : Prop := ∃ τ₀ > 0, ∀ τ, 0 ≤ τ → τ ≤ τ₀ → P τ

theorem shortly_of_forall [IsStrictOrderedRing K] {P : K → Prop} (h : ∀ τ, 0 ≤ τ → P τ) : Shortly P :=
  ⟨1, one_pos, fun τ hτ _ => h τ hτ⟩

theorem Shortly.mono {P Q : K → Prop} (h : Shortly P) (hPQ : ∀ τ, P τ → Q τ) : Shortly Q := by
  obtain ⟨τ₀, hpos, hP⟩ := h
  exact ⟨τ₀, hpos, fun τ hτ hle => hPQ τ (hP τ hτ hle)⟩

theorem Shortly.and {P Q : K → Prop} (hP : Shortly P) (hQ : Shortly Q) :
    Shortly fun τ => P τ ∧ Q τ := by
  obtain ⟨τ₁, hpos₁, h₁⟩ := hP
  obtain ⟨τ₂, hpos₂, h₂⟩ := hQ
  refine ⟨min τ₁ τ₂, lt_min hpos₁ hpos₂, fun τ hτ hle => ⟨h₁ τ hτ ?_, h₂ τ hτ ?_⟩⟩
  · exact hle.trans (min_le_left _ _)
  · exact hle.trans (min_le_right _ _)

variable [IsStrictOrderedRing K]

/-- Finitely many properties have a bound in common. -/
theorem shortly_forall_mem {α : Type} {P : α → K → Prop} {l : List α}
    (h : ∀ x ∈ l, Shortly (P x)) : Shortly fun τ => ∀ x ∈ l, P x τ := by
  induction l with
  | nil => exact shortly_of_forall fun _ _ x hx => absurd hx List.not_mem_nil
  | cons y rest ih =>
    have hrest := ih fun x hx => h x (List.mem_cons_of_mem _ hx)
    refine ((h y List.mem_cons_self).and hrest).mono fun τ hτ => ?_
    exact List.forall_mem_cons.mpr hτ

/-! ## Magnitudes -/

/-- What is positive stays so along a short step. -/
theorem shortly_nonneg {a : K} (ha : 0 < a) (u : K) : Shortly fun τ => 0 ≤ a + τ * u := by
  have hden : 0 < |u| + 1 := by positivity
  refine ⟨a / (|u| + 1), div_pos ha hden, fun τ hτ hle => ?_⟩
  have hstep : τ * (|u| + 1) ≤ a := (le_div_iff₀ hden).mp hle
  have hu : -(τ * |u|) ≤ τ * u := by
    rw [← mul_neg]
    exact mul_le_mul_of_nonneg_left (neg_abs_le u) hτ
  linarith

variable [IntegerPart K]

/-- The derivative of the magnitude at `a` in the direction `u`. -/
def absSlope (a u : K) : K := if a = 0 then |u| else (Branch.of a).sign * u

/-- Along a short step the magnitude has this derivative. -/
theorem shortly_abs (a u : K) : Shortly fun τ => |a + τ * u| = |a| + τ * absSlope a u := by
  unfold absSlope
  rcases lt_trichotomy a 0 with ha | ha | ha
  · -- off the kink the operand keeps its sign, and the magnitude is the operand or its negative
    rw [if_neg ha.ne, branch_of_neg ha]
    refine (shortly_nonneg (neg_pos.mpr ha) (-u)).mono fun τ hτ => ?_
    have hneg : a + τ * u ≤ 0 := by linarith
    rw [abs_of_nonpos hneg, abs_of_neg ha]
    show -(a + τ * u) = -a + τ * (-1 * u)
    ring
  · -- on the kink: the magnitude of the step itself
    refine shortly_of_forall fun τ hτ => ?_
    rw [if_pos ha, ha, zero_add, abs_mul, abs_of_nonneg hτ, abs_zero, zero_add]
  · rw [if_neg ha.ne', branch_of_pos ha]
    refine (shortly_nonneg ha u).mono fun τ hτ => ?_
    rw [abs_of_nonneg hτ, abs_of_pos ha]
    show a + τ * u = a + τ * (1 * u)
    ring

/-! ## One entry -/

section Linear

variable [Elementary K]

/-- Where the operation is linear, `partials` has its slope. -/
theorem evalValue_along {op : Opcode} {u v : K} (hop : op.IsLinearAlong u v) (a b τ : K)
    (aux : Aux) :
    evalValue op (a + τ * u) (b + τ * v) aux = evalValue op a b aux +
      τ * ((partials op a b (evalValue op a b aux) aux).1 * u +
        (partials op a b (evalValue op a b aux) aux).2 * v) := by
  cases op
  case const =>
    have hu : u = 0 := hop
    show a + τ * u = a + τ * (0 * u + 0 * v)
    rw [hu]
    ring
  case add =>
    show a + τ * u + (b + τ * v) = a + b + τ * (1 * u + 1 * v)
    ring
  case sub =>
    show a + τ * u - (b + τ * v) = a - b + τ * (1 * u + -1 * v)
    ring
  case mul =>
    -- what the product rule leaves out is `τ ^ 2 * u * v`
    show (a + τ * u) * (b + τ * v) = a * b + τ * (b * u + a * v)
    rcases hop with hu | hv
    · rw [hu]
      ring
    · rw [hv]
      ring
  case div =>
    have hv : v = 0 := hop
    show (a + τ * u) / (b + τ * v) = a / b + τ * (1 / b * u + -(a / b) * (1 / b) * v)
    rw [hv, mul_zero, add_zero]
    ring
  case pos =>
    show a + τ * u = a + τ * (1 * u + 0 * v)
    ring
  case neg =>
    show -(a + τ * u) = -a + τ * (-1 * u + 0 * v)
    ring
  case incr =>
    show a + τ * u + 1 = a + 1 + τ * (1 * u + 0 * v)
    ring
  case decr =>
    show a + τ * u - 1 = a - 1 + τ * (1 * u + 0 * v)
    ring
  case ldexp =>
    show scalePow2 (a + τ * u) aux.exponentD =
      scalePow2 a aux.exponentD + τ * (scalePow2 1 aux.exponentD * u + 0 * v)
    rw [scalePow2_eq, scalePow2_eq, scalePow2_eq]
    ring
  case frexp =>
    show scalePow2 (a + τ * u) aux.negExponent =
      scalePow2 a aux.negExponent + τ * (scalePow2 1 aux.negExponent * u + 0 * v)
    rw [scalePow2_eq, scalePow2_eq, scalePow2_eq]
    ring
  all_goals exact False.elim hop

end Linear

/-- The row of `abs` has the slopes of the magnitude, if the policy is to replay the branch. -/
theorem getElem?_absRow {p k : Nat} (hk : k < p) {row : Option (Array K)} {u : K}
    (h : HasComponent k row u) (aux : Aux) (a : K) :
    (absRow .replay p aux a row)[k]? = some (absSlope a u) := by
  cases row with
  | none =>
    have hu : u = 0 := h
    show (Array.replicate p (0 : K))[k]? = some (absSlope a u)
    rw [Array.getElem?_replicate, if_pos hk, hu, absSlope, abs_zero, mul_zero, ite_self]
  | some row =>
    have hrow : row[k]? = some u := h
    show (if a == 0 then row.map Scalar.abs else row.map ((Branch.of a).sign * ·))[k]? = _
    unfold absSlope
    by_cases ha : a = 0
    · rw [if_pos (beq_zero_iff.mpr ha), if_pos ha, Array.getElem?_map, hrow]
      rfl
    · rw [if_neg (mt beq_zero_iff.mp ha), if_neg ha, Array.getElem?_map, hrow]
      rfl

/-- Along a short step, `φ` is the value of the cell with the `k`-th component of its row as slope. -/
def Cell.Predicts (k : Nat) (c : Cell K) (φ : K → K) : Prop :=
  ∃ u, c.row[k]? = some u ∧ Shortly fun τ => φ τ = c.value + τ * u

section Entries

variable {k : Nat} {env : Location → Cell K} {env' : Location → K → K}

theorem Operand.along (h : ∀ loc, (env loc).Predicts k (env' loc)) (o : Operand K) :
    ∃ u, HasComponent k (o.rowOf env) u ∧
      Shortly fun τ => (o.read fun loc => env' loc τ) = o.read (Cell.value ∘ env) + τ * u := by
  have hconst : ∀ c : K, Shortly fun τ : K => c = c + τ * 0 := by
    intro c
    refine shortly_of_forall fun τ _ => ?_
    rw [mul_zero, add_zero]
  cases o with
  | location loc => exact h loc
  | literal c => exact ⟨0, rfl, hconst c⟩
  | unused => exact ⟨0, rfl, hconst 0⟩

omit [LinearOrder K] [IsStrictOrderedRing K] [IntegerPart K] in
/-- The entries of a piecewise linear tape are linear along a step, unless they are magnitudes. -/
theorem Entry.isLinearAlong {e : Entry K} (hshape : e.Shaped) (hlin : e.IsPiecewiseLinear)
    (habs : e.op ≠ .abs) {u v : K} (hu : HasComponent k (e.lhs.rowOf env) u)
    (hv : HasComponent k (e.rhs.rowOf env) v) : e.op.IsLinearAlong u v := by
  have hleft : (∃ c, e.lhs = .literal c) → u = 0 := by
    rintro ⟨c, hc⟩
    rw [hc] at hu
    exact hu
  have hright : (∃ c, e.rhs = .literal c) → v = 0 := by
    rintro ⟨c, hc⟩
    rw [hc] at hv
    exact hv
  have hconst : e.op = .const → u = 0 := fun hop => hleft (hshape.lhs_of_const hop)
  unfold IsPiecewiseLinear at hlin
  cases hop : e.op
  all_goals rw [hop] at hlin hconst habs
  case const => exact hconst rfl
  case mul => exact hlin.imp hleft hright
  case div => exact hright hlin
  case abs => exact absurd rfl habs
  all_goals exact hlin

variable [Elementary K]

/-- The value an entry computes, as a function of the step. -/
def Entry.valueAlong (e : Entry K) (env : Location → K → K) : K → K :=
  fun τ => e.value fun loc => env loc τ

/-- An entry predicts its values along a short step, if its operands are predicted. -/
theorem Entry.along {e : Entry K} (hshape : e.Shaped) (hlin : e.IsPiecewiseLinear) {p : Nat}
    (hk : k < p) (h : ∀ loc, (env loc).Predicts k (env' loc)) :
    (e.cell .replay p env).Predicts k (e.valueAlong env') := by
  obtain ⟨u, hu, hA⟩ := Operand.along h e.lhs
  obtain ⟨v, hv, hB⟩ := Operand.along h e.rhs
  let a := e.lhs.read (Cell.value ∘ env)
  let b := e.rhs.read (Cell.value ∘ env)
  by_cases habs : e.op = .abs
  · -- a magnitude needs a bound of its own, besides that of its operand
    refine ⟨absSlope a u, ?_, (hA.and (shortly_abs a u)).mono fun τ hτ => ?_⟩
    · show (e.rowFrom .replay p a b (e.lhs.rowOf env) (e.rhs.rowOf env))[k]? = some (absSlope a u)
      unfold rowFrom
      rw [if_pos habs]
      exact getElem?_absRow hk hu e.aux a
    · show evalValue e.op (e.lhs.read fun loc => env' loc τ) (e.rhs.read fun loc => env' loc τ)
        e.aux = evalValue e.op a b e.aux + τ * absSlope a u
      rw [habs, hτ.1]
      exact hτ.2
  · have hop := Entry.isLinearAlong hshape hlin habs hu hv
    let r := evalValue e.op a b e.aux
    let d := partials e.op a b r e.aux
    refine ⟨d.1 * u + d.2 * v, ?_, (hA.and hB).mono fun τ hτ => ?_⟩
    · show (e.rowFrom .replay p a b (e.lhs.rowOf env) (e.rhs.rowOf env))[k]? =
        some (d.1 * u + d.2 * v)
      unfold rowFrom
      rw [if_neg habs]
      exact getElem?_combineRows hk hu hv d.1 d.2
    · show evalValue e.op (e.lhs.read fun loc => env' loc τ) (e.rhs.read fun loc => env' loc τ)
        e.aux = r + τ * (d.1 * u + d.2 * v)
      rw [hτ.1, hτ.2]
      exact evalValue_along hop a b τ e.aux

end Entries

/-! ## A whole tape -/

variable [Elementary K]

namespace Tape

variable {t : Tape K} {x : Array K} {p k : Nat} {xd : Array (Array K)}

/-- The values along the ray, location by location a function of the step. -/
def valuesAlong (t : Tape K) (x : Array K) (xd : Array (Array K)) (k : Nat) : Location → K → K :=
  pass Entry.valueAlong t.entries.toList
    (t.place (fun _ => 0) fun i τ => x[i]?.getD 0 + τ * (xd[i]?.getD #[])[k]?.getD 0)

omit [IsStrictOrderedRing K] in
/-- At each step they are the values of the tape at that point. -/
theorem valuesAlong_eq (hx : x.size = t.independents.size)
    (hxd : IsMatrix xd t.independents.size p) (τ : K) (loc : Location) :
    t.valuesAlong x xd k loc τ = t.valuesAt (stepFrom x xd k τ) loc := by
  refine pass_rel (R := fun (φ : K → K) v => φ τ = v) (fun e _ env env' h => ?_)
    (t.place_rel (R := fun (φ : K → K) v => φ τ = v) rfl fun i hi => ?_) loc
  · have henv : (fun loc => env loc τ) = env' := funext h
    show e.value (fun loc => env loc τ) = e.value env'
    rw [henv]
  · have hi₁ : i < x.size := by rw [hx]; exact hi
    have hi₂ : i < xd.size := by rw [hxd.1]; exact hi
    unfold stepFrom
    rw [Array.getElem?_zipWith, Array.getElem?_eq_getElem hi₁, Array.getElem?_eq_getElem hi₂]
    rfl

/-- The cells of a sweep predict the values along a short step, at every location. -/
theorem along (ht : t.Recorded) (hlin : ∀ e ∈ t.entries, e.IsPiecewiseLinear) (hk : k < p)
    (hx : x.size = t.independents.size) (hxd : IsMatrix xd t.independents.size p)
    (loc : Location) :
    (t.cells .replay x p xd loc).Predicts k fun τ => t.valuesAt (stepFrom x xd k τ) loc := by
  have hpass : (t.cells .replay x p xd loc).Predicts k (t.valuesAlong x xd k loc) := by
    refine pass_rel (R := Cell.Predicts k) (fun e he env env' h => ?_)
      (t.place_rel ?_ fun i hi => ?_) loc
    · have he' : e ∈ t.entries := Array.mem_toList_iff.mp he
      exact Entry.along (ht.shaped e he') (hlin e he') hk h
    · refine ⟨0, ?_, shortly_of_forall fun τ _ => ?_⟩
      · show (Array.replicate p (0 : K))[k]? = some 0
        rw [Array.getElem?_replicate, if_pos hk]
      · show (0 : K) = 0 + τ * 0
        rw [mul_zero, add_zero]
    · -- an independent moves on a straight line
      have hi' : i < xd.size := by rw [hxd.1]; exact hi
      have hk' : k < xd[i].size := by rw [hxd.2 _ (Array.getElem_mem hi')]; exact hk
      refine ⟨xd[i][k], ?_, shortly_of_forall fun τ _ => ?_⟩
      · show (xd[i]?.getD #[])[k]? = some xd[i][k]
        rw [Array.getElem?_eq_getElem hi', Option.getD_some, Array.getElem?_eq_getElem hk']
      · show x[i]?.getD 0 + τ * (xd[i]?.getD #[])[k]?.getD 0 = x[i]?.getD 0 + τ * xd[i][k]
        rw [Array.getElem?_eq_getElem hi', Option.getD_some, Array.getElem?_eq_getElem hk',
          Option.getD_some]
  obtain ⟨u, hu, hshort⟩ := hpass
  refine ⟨u, hu, hshort.mono fun τ hτ => ?_⟩
  show t.valuesAt (stepFrom x xd k τ) loc = _
  rw [← valuesAlong_eq hx hxd τ loc, hτ]

end Tape

/-- Evaluated with the policy to replay the branches, a recorded piecewise linear tape answers values
    and derivatives that, along a short enough step, are exactly those of the tape. -/
theorem replay_one_sided {W : World fun _ => K} (hW : W.Undisturbed) {w : Width}
    {store : StoreName} {id : TapeId} {t : Tape K} (ht : W.recorder.sealed? w store id = some t)
    (hlin : ∀ e ∈ t.entries, e.IsPiecewiseLinear) {p : Nat} {x : Array K}
    (hx : x.size = t.independents.size) {xd : Array (Array K)}
    (hxd : IsMatrix xd t.independents.size p) {out : Outputs K}
    (hy : out.y.size = t.dependents.size) (hyd : IsMatrix out.yd t.dependents.size p)
    (s : Scratch K) :
    ∃ report y yd s', (t.forwardWithScratch .replay p x xd out s).answer = .ok report ∧
      (t.forwardWithScratch .replay p x xd out s).buffers = (⟨y, yd⟩, s') ∧
      IsMatrix yd t.dependents.size p ∧
      ∀ k < p, ∃ τ₀ > 0, ∀ τ, 0 ≤ τ → τ ≤ τ₀ →
        ∀ (policy : BranchPolicy) (p' : Nat) (xd' : Array (Array K)) (out' : Outputs K)
          (s'' : Scratch K), IsMatrix xd' t.independents.size p' →
          out'.y.size = t.dependents.size → IsMatrix out'.yd t.dependents.size p' →
          (∃ report', (t.forwardWithScratch policy p' (stepFrom x xd k τ) xd' out' s'').answer =
            .ok report') ∧
          (t.forwardWithScratch policy p' (stepFrom x xd k τ) xd' out' s'').buffers.1.y =
            stepFrom y yd k τ := by
  have hrec := ((hW.sound w).sealed store id t ht).recorded
  obtain ⟨s', hs', hanswer, hbuffers⟩ := Tape.forwardWithScratch_eq hrec.toReplayable .replay hx hxd
    hy hyd s
  refine ⟨_, _, _, s', hanswer, hbuffers, ⟨Array.size_map .., ?_⟩, fun k hk => ?_⟩
  · intro row hrow
    obtain ⟨loc, hloc, rfl⟩ := Array.mem_map.mp hrow
    exact hs'.size_row (hrec.dependents_lt loc hloc)
  · -- one bound for all dependents
    have hshort : Shortly fun τ => ∀ loc ∈ t.dependents.toList,
        t.valuesAt (stepFrom x xd k τ) loc =
          t.valuesAt x loc + τ * (t.cells .replay x p xd loc).row[k]?.getD 0 := by
      refine shortly_forall_mem fun loc _ => ?_
      obtain ⟨u, hu, hvalue⟩ := Tape.along hrec hlin hk hx hxd loc
      refine hvalue.mono fun τ hτ => ?_
      have hτ' : t.valuesAt (stepFrom x xd k τ) loc = t.valuesAt x loc + τ * u := by
        rw [← Tape.value_cells t .replay x p xd]
        exact hτ
      rw [hτ', hu, Option.getD_some]
    obtain ⟨τ₀, hpos, hτ₀⟩ := hshort
    refine ⟨τ₀, hpos, fun τ hτ hle policy p' xd' out' s'' hxd' hy' hyd' => ?_⟩
    have hx' : (stepFrom x xd k τ).size = t.independents.size := by
      unfold stepFrom
      rw [Array.size_zipWith, hx, hxd.1, Nat.min_self]
    obtain ⟨s₂, -, hanswer', hbuffers'⟩ := Tape.forwardWithScratch_eq hrec.toReplayable policy hx'
      hxd' hy' hyd' s''
    refine ⟨⟨_, hanswer'⟩, ?_⟩
    rw [hbuffers', stepFrom_map]
    exact Array.map_congr_left fun loc hloc => hτ₀ τ hτ hle loc (Array.mem_toList_iff.mpr hloc)

/-- A kink on top of a kink, `||x||`, recorded at `1` and replayed at `0` in the direction `-1`: its
    derivative there is `1`. -/
theorem replay_one_sided_through_two_kinks :
    ∃ (_ : Elementary ℚ) (W : World fun _ => ℚ) (t : Tape ℚ), W.Undisturbed ∧
      W.recorder.sealed? .double "kinks" 7 = some t ∧
      ∃ report s' τ₀,
        (t.forwardWithScratch .replay 1 #[0] #[#[-1]] ⟨#[0], #[#[0]]⟩ {}).answer = .ok report ∧
        (t.forwardWithScratch .replay 1 #[0] #[#[-1]] ⟨#[0], #[#[0]]⟩ {}).buffers =
          (⟨#[0], #[#[1]]⟩, s') ∧
        0 < τ₀ ∧ ∀ τ, 0 ≤ τ → τ ≤ τ₀ →
          (t.forwardWithScratch .replay 1 #[-τ] #[#[-1]] ⟨#[0], #[#[0]]⟩ {}).buffers.1.y =
            #[τ] := by
  let elementary : Elementary ℚ := .absent ℚ
  let s : Session .double := ⟨"kinks", 7, 1⟩
  let u : ℚ := evalValue .abs 1 0 (.branch (.of (1 : ℚ)))
  let v : ℚ := evalValue .abs u 0 (.branch (.of u))
  let x : Handle ℚ := .place 1 0 7 1
  let y : Handle ℚ := .place u 1 7 1
  let z : Handle ℚ := .place v 2 7 1
  let W₁ := ({} : World fun _ => ℚ).perform 0 (.begin "kinks" 7 0 : Call _ .double)
  let W₂ := W₁.perform 0 (.independent s (1 : ℚ))
  let W₃ := W₂.perform 0 (.apply .abs x : Call _ .double)
  let W₄ := W₃.perform 0 (.apply .abs y : Call _ .double)
  let W₅ := W₄.perform 0 (.dependent s z)
  let W := W₅.perform 0 (.endTrace s)
  have h₁ : W₁.Undisturbed := .step .start 0 _ trivial id
  have h₂ : W₂.Undisturbed := .step h₁ 0 _ List.mem_cons_self id
  have h₃ : W₃.Undisturbed := .step h₂ 0 _ (Or.inr List.mem_cons_self) id
  have h₄ : W₄.Undisturbed := .step h₃ 0 _ (Or.inr List.mem_cons_self) id
  have h₅ : W₅.Undisturbed :=
    .step h₄ 0 _ ⟨List.mem_cons_self, Or.inr List.mem_cons_self⟩ id
  have hW : W.Undisturbed := .step h₅ 0 _ List.mem_cons_self id
  let t : Tape ℚ := ⟨7, 1, #[⟨.abs, 1, .location 0, .unused, .branch (.of (1 : ℚ))⟩,
    ⟨.abs, 2, .location 1, .unused, .branch (.of u)⟩], #[1, u, v], #[0], #[2]⟩
  have hslot : W₅.recorder.slot? .double 0 = some t := rfl
  have ht : W.recorder.sealed? .double "kinks" 7 = some t :=
    World.sealed_endTrace (s := s) hslot rfl
  have hlin : ∀ e ∈ t.entries, e.IsPiecewiseLinear := by
    intro e he
    simp only [t, List.mem_toArray, List.mem_cons, List.not_mem_nil, or_false] at he
    rcases he with rfl | rfl
    · trivial
    · trivial
  have hxd : IsMatrix #[#[(-1 : ℚ)]] 1 1 := ⟨rfl, by simp⟩
  let out : Outputs ℚ := ⟨#[0], #[#[0]]⟩
  have hy : out.y.size = 1 := rfl
  have hyd : IsMatrix out.yd 1 1 := ⟨rfl, by simp [out]⟩
  obtain ⟨report, y', yd', s', hanswer, hbuffers, -, hk⟩ := replay_one_sided hW ht hlin
    (x := #[0]) rfl hxd hy hyd {}
  obtain ⟨τ₀, hpos, hτ₀⟩ := hk 0 Nat.one_pos
  have hanswered : y' = #[0] ∧ yd' = #[#[1]] := by
    have hrec := ((hW.sound .double).sealed "kinks" 7 t ht).recorded
    obtain ⟨_, -, -, hbuffers'⟩ := Tape.forwardWithScratch_eq hrec.toReplayable .replay (x := #[0])
      rfl hxd hy hyd {}
    have hvalue : t.valuesAt #[0] 2 = 0 := by decide +kernel
    have hrow : (t.cells .replay #[0] 1 #[#[-1]] 2).row = #[1] := by decide +kernel
    have hboth := congrArg Prod.fst (hbuffers.symm.trans hbuffers')
    rw [show t.dependents = #[2] from rfl, List.map_toArray, List.map_toArray] at hboth
    simp only [List.map_cons, List.map_nil, hvalue, hrow, Outputs.mk.injEq] at hboth
    exact hboth
  obtain ⟨rfl, rfl⟩ := hanswered
  refine ⟨elementary, W, t, hW, ht, report, s', τ₀, hanswer, hbuffers, hpos, fun τ hτ hle => ?_⟩
  have hstep : stepFrom #[0] #[#[-1]] 0 τ = #[-τ] := by simp [stepFrom]
  have hstep' : stepFrom #[0] #[#[1]] 0 τ = #[τ] := by simp [stepFrom]
  have hvalues := (hτ₀ τ hτ hle .replay 1 #[#[-1]] out {} hxd hy hyd).2
  rw [hstep, hstep'] at hvalues
  exact hvalues

end DiffTape
