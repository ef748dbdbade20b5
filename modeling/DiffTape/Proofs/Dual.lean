/-
  RATIONAL TAPES ON DUAL NUMBERS.

  A dual number `a + b · ε`, with `ε · ε = 0`, is a value with a derivative.  Its arithmetic knows
  nothing of a table of partial derivatives: the quotient rule is what inverting `a + b · ε` comes
  to, and the rule for a power is what multiplying it by itself comes to.

  Here the entries of a tape are evaluated a second time, over dual numbers and with the operations
  of their ring only (`Entry.dualValue`).  On a rational tape this is what the sweep computes, at
  every location and for every column of its directions (`replay_on_dual_numbers`).

  1. `ringValue`       — the operations, in any ring that has an inverse.
  2. `fst_ringValue`   — the value of the result is the operation on the values.
  3. `snd_ringValue`   — the derivative of the result is the combination by `partials`.
  4. `Entry.cell_pair` — one entry keeps cells and dual numbers together; `pass_rel` does the rest.

  No divisor has to be assumed different from zero.  The inverse of zero is zero in the field, and
  the inverse of `b · ε` is zero among the dual numbers; the two evaluations agree there as well.
-/
import Mathlib.Algebra.DualNumber
import Mathlib.Algebra.Order.Ring.Rat
import Mathlib.Tactic.FieldSimp
import Mathlib.Tactic.NormNum
import Mathlib.Tactic.Ring
import DiffTape.Proofs.Exact
import DiffTape.Proofs.Soundness

namespace DiffTape

open Scalar TrivSqZeroExt

/-! ## Rational operations -/

/-- The operations that are sums, products and inverses. -/
def Opcode.IsRational : Opcode → Prop
  | .const | .add | .sub | .mul | .div | .pos | .neg | .incr | .decr | .powi | .ldexp | .frexp =>
    True
  | _ => False

/-- A rational operation whose exponent is not the least 32-bit integer, if it is one that counts
    down from its exponent or negates it. -/
structure Entry.IsRational {F : Type} (e : Entry F) : Prop where
  op : e.op.IsRational
  exponent : e.op = .powi ∨ e.op = .frexp → e.aux.exponentD ≠ Int32.minValue.toInt

section Ring

variable {R : Type} [CommRing R] [Inv R]

/-- A power as a product of factors, inverted if the exponent is negative. -/
def ringPower (a : R) (n : Int) : R := if n < 0 then (a ^ n.natAbs)⁻¹ else a ^ n.natAbs

/-- The value of a rational operation in a ring with an inverse. -/
def ringValue (op : Opcode) (a b : R) (aux : Aux) : R :=
  match op with
  | .const | .pos => a
  | .add => a + b
  | .sub => a - b
  | .mul => a * b
  | .div => a * b⁻¹
  | .neg => -a
  | .incr => a + 1
  | .decr => a - 1
  | .powi => ringPower a aux.exponentD
  | .ldexp => a * ringPower 2 aux.exponentD
  | .frexp => a * ringPower 2 (-aux.exponentD)
  | _ => 0

end Ring

section Field

variable {K : Type} [Field K]

/-! ## Powers of dual numbers -/

theorem ringPower_eq (a : K) (n : Int) : ringPower a n = a ^ n := (zpow_eq_ite a n).symm

theorem fst_ringPower (A : DualNumber K) (n : Int) : (ringPower A n).fst = A.fst ^ n := by
  unfold ringPower
  rw [zpow_eq_ite]
  split
  · rw [fst_inv, fst_pow]
  · rw [fst_pow]

theorem snd_pow_succ (A : DualNumber K) (m : Nat) :
    (A ^ (m + 1)).snd = (m + 1) * A.fst ^ m * A.snd := by
  rw [snd_pow, Nat.pred_succ, smul_eq_mul, nsmul_eq_mul, Nat.cast_succ, mul_assoc]

/-- The rule for a power, at every exponent and also where the base has no inverse. -/
theorem snd_ringPower (A : DualNumber K) (n : Int) :
    (ringPower A n).snd = n * A.fst ^ (n - 1) * A.snd := by
  unfold ringPower
  by_cases hn : n < 0
  · -- the inverse of a power, whose derivative is `-r · dr · r` where `r` is the inverse
    obtain ⟨m, hm⟩ : ∃ m : Nat, n = -((m : Int) + 1) := ⟨n.natAbs - 1, by omega⟩
    have habs : n.natAbs = m + 1 := by omega
    have hexp : n - 1 = -((m + 2 : Nat) : Int) := by omega
    rw [if_pos hn, snd_inv, habs, fst_pow, snd_pow_succ, hexp, zpow_neg, zpow_natCast, hm]
    simp only [smul_eq_mul, MulOpposite.smul_eq_mul_unop, MulOpposite.unop_op]
    push_cast
    by_cases ha : A.fst = 0
    · -- nothing cancels here, but both sides have a factor that is zero
      rw [ha, zero_pow (Nat.succ_ne_zero m), zero_pow (Nat.succ_ne_zero (m + 1))]
      ring
    · field_simp
      ring
  · rw [if_neg hn]
    rcases Nat.eq_zero_or_pos n.natAbs with hzero | hpos
    · have hn0 : n = 0 := by omega
      rw [hzero, hn0, pow_zero, snd_one, Int.cast_zero, zero_mul, zero_mul]
    · obtain ⟨m, hm⟩ : ∃ m : Nat, n.natAbs = m + 1 := ⟨n.natAbs - 1, by omega⟩
      have hn' : n = (m : Int) + 1 := by omega
      rw [hm, snd_pow_succ, hn', add_sub_cancel_right, zpow_natCast]
      push_cast
      rfl

/-- A power of two has no derivative, so the product with it scales value and derivative. -/
theorem mul_ringPower_two (A : DualNumber K) (n : Int) :
    (A * ringPower 2 n).fst = A.fst * 2 ^ n ∧ (A * ringPower 2 n).snd = 2 ^ n * A.snd := by
  have hfst : (ringPower (2 : DualNumber K) n).fst = 2 ^ n := fst_ringPower 2 n
  have hsnd : (ringPower (2 : DualNumber K) n).snd = 0 := by
    have htwo : (2 : DualNumber K).snd = 0 := snd_natCast 2
    rw [snd_ringPower, htwo, mul_zero]
  refine ⟨?_, ?_⟩
  · rw [fst_mul, hfst]
  · rw [DualNumber.snd_mul, hfst, hsnd, mul_zero, zero_add, mul_comm]

/-! ## Values and derivatives of the operations -/

/-- The value of a result comes from the values of the operands. -/
theorem fst_ringValue (op : Opcode) (A B : DualNumber K) (aux : Aux) :
    (ringValue op A B aux).fst = ringValue op A.fst B.fst aux := by
  cases op
  case powi =>
    show (ringPower A aux.exponentD).fst = ringPower A.fst aux.exponentD
    rw [fst_ringPower, ringPower_eq]
  case ldexp =>
    show (A * ringPower 2 aux.exponentD).fst = A.fst * ringPower 2 aux.exponentD
    rw [(mul_ringPower_two A _).1, ringPower_eq]
  case frexp =>
    show (A * ringPower 2 (-aux.exponentD)).fst = A.fst * ringPower 2 (-aux.exponentD)
    rw [(mul_ringPower_two A _).1, ringPower_eq]
  all_goals rfl

/-! ## The tape on dual numbers -/

/-- The dual number an entry computes.  Literals have no derivative. -/
def Entry.dualValue (e : Entry K) (env : Location → DualNumber K) : DualNumber K :=
  ringValue e.op (e.lhs.denote inl 0 env) (e.rhs.denote inl 0 env) e.aux

/-- The tape on dual numbers: the `i`-th independent is `x[i] + xd[i][k] · ε`. -/
def Tape.dualAt (t : Tape K) (x : Array K) (xd : Array (Array K)) (k : Nat) :
    Location → DualNumber K :=
  pass Entry.dualValue t.entries.toList
    (t.place 0 fun i => inl (x[i]?.getD 0) + ((xd[i]?.getD #[])[k]?.getD 0) • DualNumber.eps)

/-- The dual number has the value of the cell, and the `k`-th component of its row. -/
def Cell.Pairs (k : Nat) (c : Cell K) (d : DualNumber K) : Prop :=
  d.fst = c.value ∧ c.row[k]? = some d.snd

theorem Operand.component_pair {k : Nat} {env : Location → Cell K}
    {env' : Location → DualNumber K} (h : ∀ loc, (env loc).Pairs k (env' loc)) (o : Operand K) :
    HasComponent k (o.rowOf env) (o.denote inl 0 env').snd := by
  cases o with
  | location loc => exact (h loc).2
  | literal c => rfl
  | unused => rfl

/-! ## The catalog -/

variable [DecidableEq K] [Gauge K] [Elementary K] [CharZero K]

/-- The catalog has the value of the ring. -/
theorem evalValue_eq {op : Opcode} (hop : op.IsRational) (a b : K) {aux : Aux}
    (haux : op = .frexp → aux.exponentD ≠ Int32.minValue.toInt) :
    evalValue op a b aux = ringValue op a b aux := by
  cases op
  case div =>
    show a / b = a * b⁻¹
    rw [div_eq_mul_inv]
  case powi =>
    show powi a aux.exponentD = ringPower a aux.exponentD
    rw [powi_eq, ringPower_eq]
  case ldexp =>
    show scalePow2 a aux.exponentD = a * ringPower 2 aux.exponentD
    rw [scalePow2_eq, ringPower_eq]
  case frexp =>
    show scalePow2 a aux.negExponent = a * ringPower 2 (-aux.exponentD)
    rw [scalePow2_eq, ringPower_eq, Aux.negExponent, if_neg (haux rfl)]
  all_goals first | rfl | exact False.elim hop

/-- The partial derivatives of the catalog are what the arithmetic of dual numbers comes to. -/
theorem snd_ringValue {op : Opcode} (hop : op.IsRational) (A B : DualNumber K) {aux : Aux}
    (haux : op = .powi ∨ op = .frexp → aux.exponentD ≠ Int32.minValue.toInt)
    (hconst : op = .const → A.snd = 0) :
    (ringValue op A B aux).snd =
      (partials op A.fst B.fst (evalValue op A.fst B.fst aux) aux).1 * A.snd +
        (partials op A.fst B.fst (evalValue op A.fst B.fst aux) aux).2 * B.snd := by
  cases op
  case const =>
    show A.snd = 0 * A.snd + 0 * B.snd
    rw [hconst rfl]
    ring
  case add =>
    show A.snd + B.snd = 1 * A.snd + 1 * B.snd
    ring
  case sub =>
    show A.snd - B.snd = 1 * A.snd + -1 * B.snd
    ring
  case mul =>
    show (A * B).snd = B.fst * A.snd + A.fst * B.snd
    rw [DualNumber.snd_mul]
    ring
  case div =>
    -- the quotient rule: the derivative of the inverse is `-b⁻¹ · db · b⁻¹`
    show (A * B⁻¹).snd = 1 / B.fst * A.snd + -(A.fst / B.fst) * (1 / B.fst) * B.snd
    rw [DualNumber.snd_mul, snd_inv, fst_inv]
    simp only [smul_eq_mul, MulOpposite.smul_eq_mul_unop, MulOpposite.unop_op]
    ring
  case pos =>
    show A.snd = 1 * A.snd + 0 * B.snd
    ring
  case neg =>
    show -A.snd = -1 * A.snd + 0 * B.snd
    ring
  case incr =>
    show A.snd + 0 = 1 * A.snd + 0 * B.snd
    ring
  case decr =>
    show A.snd - 0 = 1 * A.snd + 0 * B.snd
    ring
  case powi =>
    -- the exponent may be zero, where the formula gives zero as well; the least one is excluded
    have hpartial : powiPartial A.fst aux.exponentD =
        aux.exponentD * A.fst ^ (aux.exponentD - 1) := by
      unfold powiPartial
      by_cases hzero : aux.exponentD = 0
      · rw [if_pos hzero, hzero, Int.cast_zero, zero_mul]
      · rw [if_neg hzero, if_neg (haux (Or.inl rfl)), powi_eq]
        rfl
    show (ringPower A aux.exponentD).snd =
      powiPartial A.fst aux.exponentD * A.snd + 0 * B.snd
    rw [snd_ringPower, hpartial, zero_mul, add_zero]
  case ldexp =>
    show (A * ringPower 2 aux.exponentD).snd =
      scalePow2 1 aux.exponentD * A.snd + 0 * B.snd
    rw [(mul_ringPower_two A _).2, scalePow2_eq]
    ring
  case frexp =>
    show (A * ringPower 2 (-aux.exponentD)).snd =
      scalePow2 1 aux.negExponent * A.snd + 0 * B.snd
    rw [(mul_ringPower_two A _).2, scalePow2_eq, Aux.negExponent, if_neg (haux (Or.inr rfl))]
    ring
  all_goals exact False.elim hop

/-! ## One entry -/

section Entries

variable {k : Nat} {env : Location → Cell K} {env' : Location → DualNumber K}

omit [CharZero K] [Elementary K] in
theorem Operand.read_pair (h : ∀ loc, (env loc).Pairs k (env' loc)) (o : Operand K) :
    (o.denote inl 0 env').fst = o.read (Cell.value ∘ env) :=
  o.denote_rel (R := fun (d : DualNumber K) a => d.fst = a) (fun _ => rfl) rfl fun loc => (h loc).1

/-- A rational entry keeps cells and dual numbers together. -/
theorem Entry.cell_pair {e : Entry K} (hshape : e.Shaped) (hrat : e.IsRational)
    (policy : BranchPolicy) {p : Nat} (hk : k < p) (h : ∀ loc, (env loc).Pairs k (env' loc)) :
    (e.cell policy p env).Pairs k (e.dualValue env') := by
  have hA := Operand.read_pair h e.lhs
  have hB := Operand.read_pair h e.rhs
  refine ⟨?_, ?_⟩
  · show (ringValue e.op (e.lhs.denote inl 0 env') (e.rhs.denote inl 0 env') e.aux).fst =
      evalValue e.op (e.lhs.read (Cell.value ∘ env)) (e.rhs.read (Cell.value ∘ env)) e.aux
    rw [fst_ringValue, hA, hB, evalValue_eq hrat.op _ _ fun hop => hrat.exponent (Or.inr hop)]
  · -- only the row of `abs` is not the combination by `partials`
    have habs : e.op ≠ .abs := by
      intro hop
      have hr := hrat.op
      rw [hop] at hr
      exact hr
    have hconst : e.op = .const → (e.lhs.denote inl 0 env').snd = 0 := by
      intro hop
      obtain ⟨c, hc⟩ := hshape.lhs_of_const hop
      rw [hc]
      rfl
    show (e.rowFrom policy p (e.lhs.read (Cell.value ∘ env)) (e.rhs.read (Cell.value ∘ env))
        (e.lhs.rowOf env) (e.rhs.rowOf env))[k]? =
      some (ringValue e.op (e.lhs.denote inl 0 env') (e.rhs.denote inl 0 env') e.aux).snd
    rw [snd_ringValue hrat.op _ _ hrat.exponent hconst, hA, hB, Entry.rowFrom, if_neg habs]
    exact getElem?_combineRows hk (Operand.component_pair h e.lhs) (Operand.component_pair h e.rhs)
      _ _

end Entries

/-! ## A whole tape -/

namespace Tape

/-- The cells of a sweep are the dual numbers, column by column. -/
theorem cells_pair {t : Tape K} (ht : t.Recorded) (hrat : ∀ e ∈ t.entries, e.IsRational)
    (policy : BranchPolicy) (x : Array K) {p k : Nat} (hk : k < p) {xd : Array (Array K)}
    (hxd : IsMatrix xd t.independents.size p) (loc : Location) :
    (t.cells policy x p xd loc).Pairs k (t.dualAt x xd k loc) := by
  refine pass_rel (R := Cell.Pairs k) (fun e he env env' h => ?_) (t.place_rel ?_ fun i hi => ?_) loc
  · have he' : e ∈ t.entries := Array.mem_toList_iff.mp he
    exact Entry.cell_pair (ht.shaped e he') (hrat e he') policy hk h
  · refine ⟨rfl, ?_⟩
    show (Array.replicate p (0 : K))[k]? = some 0
    rw [Array.getElem?_replicate, if_pos hk]
  · have hi' : i < xd.size := by rw [hxd.1]; exact hi
    have hrow : xd[i].size = p := hxd.2 _ (Array.getElem_mem hi')
    have hk' : k < xd[i].size := by rw [hrow]; exact hk
    refine ⟨?_, ?_⟩
    · simp
    · simp [hi', hk']

end Tape

/-- On a recorded rational tape, a sweep leaves at every location, and answers at the dependents, the
    value and the tangents that the arithmetic of dual numbers gives there. -/
theorem replay_on_dual_numbers {W : World fun _ => K} (hW : W.Undisturbed) {w : Width}
    {store : StoreName} {id : TapeId} {t : Tape K} (ht : W.recorder.sealed? w store id = some t)
    (hrat : ∀ e ∈ t.entries, e.IsRational) (policy : BranchPolicy) {p : Nat} {x : Array K}
    (hx : x.size = t.independents.size) {xd : Array (Array K)}
    (hxd : IsMatrix xd t.independents.size p) {out : Outputs K}
    (hy : out.y.size = t.dependents.size) (hyd : IsMatrix out.yd t.dependents.size p)
    (s : Scratch K) :
    ∃ report y yd s', (t.forwardWithScratch policy p x xd out s).answer = .ok report ∧
      (t.forwardWithScratch policy p x xd out s).buffers = (⟨y, yd⟩, s') ∧
      ∀ k < p,
        (∀ loc, loc.toNat < t.values.size →
          s'.value? loc = some (t.dualAt x xd k loc).fst ∧
          (s'.directionRow? loc).bind (·[k]?) = some (t.dualAt x xd k loc).snd) ∧
        y = t.dependents.map (fun loc => (t.dualAt x xd k loc).fst) ∧
        yd.map (·[k]?) = t.dependents.map fun loc => some (t.dualAt x xd k loc).snd := by
  have hrec := ((hW.sound w).sealed store id t ht).recorded
  obtain ⟨s', hs', hanswer, hbuffers⟩ := Tape.forwardWithScratch_eq hrec.toReplayable policy hx hxd
    hy hyd s
  refine ⟨_, _, _, s', hanswer, hbuffers, fun k hk => ?_⟩
  have hpair := Tape.cells_pair hrec hrat policy x hk hxd
  refine ⟨fun loc hloc => ⟨?_, ?_⟩, ?_, ?_⟩
  · rw [hs'.value loc hloc, (hpair loc).1]
  · rw [hs'.row loc hloc, Option.bind_some, (hpair loc).2]
  · rw [← Tape.value_cells t policy x p xd]
    exact Array.map_congr_left fun loc _ => (hpair loc).1.symm
  · rw [Array.map_map]
    exact Array.map_congr_left fun loc _ => (hpair loc).2

end Field

/-- A quotient of a negative power, recorded at `1` and replayed at `2`: there `x ^ -1 / x` has the
    value `1 / 4` and the derivative `-2 / x ^ 3 = -1 / 4`. -/
theorem replay_on_dual_numbers_of_quotient :
    ∃ (_ : Elementary ℚ) (W : World fun _ => ℚ) (t : Tape ℚ), W.Undisturbed ∧
      W.recorder.sealed? .double "quotient" 7 = some t ∧
      ∃ report y yd s',
        (t.forwardWithScratch .recorded 1 #[2] #[#[1]] ⟨#[0], #[#[0]]⟩ {}).answer = .ok report ∧
        (t.forwardWithScratch .recorded 1 #[2] #[#[1]] ⟨#[0], #[#[0]]⟩ {}).buffers =
          (⟨y, yd⟩, s') ∧
        y = #[1 / 4] ∧ yd.map (·[0]?) = #[some (-1 / 4 : ℚ)] := by
  have elementary : Elementary ℚ := .absent ℚ
  let s : Session .double := ⟨"quotient", 7, 1⟩
  let v : ℚ := evalValue .powi 1 0 (.exponent (-1))
  let x : Handle ℚ := .place 1 0 7 1
  let y : Handle ℚ := .place v 1 7 1
  let z : Handle ℚ := .place (evalValue .div v 1 .none) 2 7 1
  let W₁ := ({} : World fun _ => ℚ).perform 0 (.begin "quotient" 7 0 : Call _ .double)
  let W₂ := W₁.perform 0 (.independent s (1 : ℚ))
  let W₃ := W₂.perform 0 (.apply (.powi (-1)) x : Call _ .double)
  let W₄ := W₃.perform 0 (.combine .div y x : Call _ .double)
  let W₅ := W₄.perform 0 (.dependent s z)
  let W := W₅.perform 0 (.endTrace s)
  have h₁ : W₁.Undisturbed := .step .start 0 _ trivial id
  have h₂ : W₂.Undisturbed := .step h₁ 0 _ List.mem_cons_self id
  have h₃ : W₃.Undisturbed := .step h₂ 0 _ (Or.inr List.mem_cons_self) id
  have h₄ : W₄.Undisturbed :=
    .step h₃ 0 _ ⟨Or.inr List.mem_cons_self,
      Or.inr (List.mem_cons_of_mem _ List.mem_cons_self)⟩ id
  have h₅ : W₅.Undisturbed :=
    .step h₄ 0 _ ⟨List.mem_cons_self, Or.inr List.mem_cons_self⟩ id
  have hW : W.Undisturbed := .step h₅ 0 _ List.mem_cons_self id
  let t : Tape ℚ := ⟨7, 1, #[⟨.powi, 1, .location 0, .unused, .exponent (-1)⟩,
    ⟨.div, 2, .location 1, .location 0, .none⟩], #[1, v, evalValue .div v 1 .none], #[0], #[2]⟩
  have hslot : W₅.recorder.slot? .double 0 = some t := rfl
  have ht : W.recorder.sealed? .double "quotient" 7 = some t :=
    World.sealed_endTrace (s := s) hslot rfl
  have hrat : ∀ e ∈ t.entries, e.IsRational := by
    intro e he
    simp only [t, List.mem_toArray, List.mem_cons, List.not_mem_nil, or_false] at he
    rcases he with rfl | rfl
    · exact ⟨trivial, fun _ => by decide⟩
    · exact ⟨trivial, fun _ => by decide⟩
  have hxd : IsMatrix #[#[(1 : ℚ)]] 1 1 := ⟨rfl, by simp⟩
  let out : Outputs ℚ := ⟨#[0], #[#[0]]⟩
  have hy : out.y.size = 1 := rfl
  have hyd : IsMatrix out.yd 1 1 := ⟨rfl, by simp [out]⟩
  obtain ⟨report, y, yd, s', hanswer, hbuffers, hk⟩ := replay_on_dual_numbers hW ht hrat .recorded
    (x := #[2]) rfl hxd hy hyd {}
  obtain ⟨-, hy, hyd⟩ := hk 0 Nat.one_pos
  have hy' : y = #[(t.dualAt #[2] #[#[1]] 0 2).fst] := hy.trans (List.map_toArray ..)
  have hyd' : yd.map (·[0]?) = #[some (t.dualAt #[2] #[#[1]] 0 2).snd] :=
    hyd.trans (List.map_toArray ..)
  -- the two entries, on the dual number `2 + ε`
  let ξ : DualNumber ℚ := inl 2 + (1 : ℚ) • DualNumber.eps
  have hdual : t.dualAt #[2] #[#[1]] 0 2 = ringPower ξ (-1) * ξ⁻¹ := rfl
  have hfst : (ringPower ξ (-1) * ξ⁻¹).fst = 1 / 4 := by
    rw [fst_mul, fst_ringPower, fst_inv]
    norm_num [ξ]
  have hsnd : (ringPower ξ (-1) * ξ⁻¹).snd = -1 / 4 := by
    rw [DualNumber.snd_mul, fst_ringPower, snd_ringPower, fst_inv, snd_inv]
    norm_num [ξ]
  rw [hdual, hfst] at hy'
  rw [hdual, hsnd] at hyd'
  refine ⟨elementary, W, t, hW, ht, report, y, yd, s', hanswer, hbuffers, hy', hyd'⟩

end DiffTape
