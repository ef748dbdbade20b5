/-
  WHERE THE BRANCH POLICIES DIFFER.

  A policy is asked about one thing only: the sign of the derivative of an `abs` whose operand is
  not zero.  Both answer the sign of the operand, unless the entry was recorded on one side of its
  kink and is now on no side or on the other one.  Such an entry is listed in the report as a switch
  that `LeftSide`, so the report tells whether the policies can differ at all (`SameSides`).

  1. `BranchPolicy.absSign_eq` — where the policies have the same sign.
  2. `Entry.cell_policy`       — so an entry that has not left its side does not see the policy.
  3. `pass_cell_policy`        — nor does any entry after it: induction over the entries.
  4. `Tape.rowsAt_policy`      — nor do the derivatives that are read off.

  Values and switches are never a matter of the policy (`Tape.valuesAt`, `Tape.switchesAt`).
-/
import DiffTape.Proofs.Drivers
import DiffTape.Proofs.Soundness

namespace DiffTape

variable {F : Type} [Scalar F]

/-! ## Leaving a side -/

/-- An `abs` that was recorded on one side of its kink, and is now neither there nor on the kink.
    A NaN is on no side and not on the kink, so it has left the side. -/
def BranchSwitch.LeftSide (b : BranchSwitch F) : Prop :=
  b.op = .abs ∧ b.recorded ≠ .zero ∧ (b.switchingValue == 0) = false

/-- No `abs` has left the side on which it was recorded. -/
def Report.SameSides (r : Report F) : Prop := ∀ b ∈ r.switches, ¬ b.LeftSide

theorem Report.sameSides_of_isConsistent {r : Report F} (h : r.isConsistent = true) :
    r.SameSides := by
  have hnone : r.switches = #[] := Array.isEmpty_iff.mp h
  intro b hb
  rw [hnone] at hb
  exact absurd hb (Array.not_mem_empty b)

/-- Switches of `signum`, of entries that were recorded on the kink, and to the kink. -/
theorem Report.sameSides_of_harmless {r : Report F}
    (h : ∀ b ∈ r.switches, b.op = .signum ∨ b.recorded = .zero ∨ isKink b = true) :
    r.SameSides := by
  rintro b hb ⟨habs, hside, hvalue⟩
  rcases h b hb with hop | hzero | hkink
  · rw [hop] at habs
    cases habs
  · exact hside hzero
  · unfold isKink at hkink
    rw [hvalue, Bool.and_false] at hkink
    cases hkink

/-! ## One entry -/

/-- An operand that is on the recorded side has the same sign for both policies, and so has one
    that was recorded on the kink. -/
theorem BranchPolicy.absSign_eq (policy : BranchPolicy) {recorded : Option Branch} {a : F}
    (h : ∀ b, recorded = some b → b = .zero ∨ b = Branch.of a) :
    policy.absSign recorded a = (Branch.of a).sign := by
  cases policy with
  | replay => rfl
  | recorded =>
    cases recorded with
    | none => rfl
    | some b =>
      rcases h b rfl with rfl | rfl
      · rfl
      · unfold absSign
        cases Branch.of a <;> rfl

/-- An `abs` that has not left its side has one row for both policies. -/
theorem absRow_policy {e : Entry F} (habs : e.op = .abs) {a : F}
    (h : ∀ b ∈ e.switch? a, ¬ b.LeftSide) (policy policy' : BranchPolicy) (p : Nat)
    (rowA : Option (Array F)) :
    absRow policy p e.aux a rowA = absRow policy' p e.aux a rowA := by
  by_cases hzero : (a == 0) = true
  · -- on the kink every direction has its magnitude
    unfold absRow
    simp only [hzero, if_true]
  · have hsides : ∀ b, e.aux.branch? = some b → b = .zero ∨ b = Branch.of a := by
      intro b hb
      by_contra hnot
      obtain ⟨hside, hne⟩ := not_or.mp hnot
      have hswitch := Entry.switch?_eq_some_iff.mpr ⟨b, hb, Ne.symm hne, rfl⟩
      exact h _ hswitch ⟨habs, hside, Bool.not_eq_true _ ▸ hzero⟩
    unfold absRow
    rw [policy.absSign_eq hsides, policy'.absSign_eq hsides]

variable [Elementary F]

theorem Entry.cell_policy {e : Entry F} {p : Nat} {env : Location → Cell F}
    (h : ∀ b ∈ e.switch? (e.lhs.read (Cell.value ∘ env)), ¬ b.LeftSide)
    (policy policy' : BranchPolicy) : e.cell policy p env = e.cell policy' p env := by
  unfold cell rowFrom
  by_cases habs : e.op = .abs
  · simp only [if_pos habs, absRow_policy habs h policy policy']
  · simp only [if_neg habs]

/-! ## Every entry -/

/-- On a way on which no `abs` leaves its side the policies agree. -/
theorem pass_cell_policy {entries : List (Entry F)} {p : Nat} {env : Location → Cell F}
    (h : ∀ b ∈ switchesFrom entries (Cell.value ∘ env), ¬ b.LeftSide)
    (policy policy' : BranchPolicy) :
    pass (Entry.cell policy p) entries env = pass (Entry.cell policy' p) entries env := by
  induction entries generalizing env with
  | nil => rfl
  | cons e rest ih =>
    rw [switchesFrom, List.forall_mem_append] at h
    obtain ⟨hswitch, hrest⟩ := h
    have hcell := e.cell_policy (p := p) (fun b hb => hswitch b (Option.mem_toList.mpr hb)) policy
      policy'
    rw [pass, pass, hcell]
    refine ih ?_
    rw [Function.comp_update]
    exact hrest

namespace Tape

variable {t : Tape F} {x : Array F}

theorem cells_eq_of_sameSides (h : Report.SameSides ⟨t.switchesAt x⟩)
    (policy policy' : BranchPolicy) (p : Nat) (seeds : Array (Array F)) :
    t.cells policy x p seeds = t.cells policy' x p seeds := by
  refine pass_cell_policy (fun b hb => h b ?_) policy policy'
  rw [value_startCells] at hb
  exact List.mem_toArray.mpr hb

/-- A replay that leaves no branch does not depend on the policy. -/
theorem cells_policy (h : t.switchesAt x = #[]) (policy policy' : BranchPolicy) (p : Nat)
    (seeds : Array (Array F)) : t.cells policy x p seeds = t.cells policy' x p seeds := by
  refine cells_eq_of_sameSides (fun b hb => ?_) policy policy' p seeds
  rw [h] at hb
  exact absurd hb (Array.not_mem_empty b)

theorem rowsAt_policy (h : Report.SameSides ⟨t.switchesAt x⟩) (policy policy' : BranchPolicy)
    (p : Nat) (seeds : Array (Array F)) :
    t.rowsAt policy x p seeds = t.rowsAt policy' x p seeds := by
  unfold rowsAt
  rw [cells_eq_of_sameSides h policy policy']

end Tape

/-! ## Evaluations -/

namespace World.Undisturbed

variable {C : Width → Type} [∀ w, Scalar (C w)] [∀ w, Elementary (C w)] {w : Width}

/-- Every evaluation of a sealed tape gives the same values and the same report under both policies.
    Its derivatives are the same as well if no `abs` has left its side; and none has if the report
    is consistent, or lists nothing but `signum` entries, entries that were recorded on the kink,
    and entries that are on it now. -/
theorem policies_agree {W : World C} (hW : W.Undisturbed) {store : StoreName} {id : TapeId}
    {t : Tape (C w)} (ht : W.recorder.sealed? w store id = some t) {x : Array (C w)}
    (hx : x.size = t.independents.size) :
    ∃ (y : Array (C w)) (report : Report (C w)),
      (∀ (p : Nat) (xd : Array (Array (C w))), IsMatrix xd t.independents.size p →
        ∃ yd : BranchPolicy → Array (Array (C w)),
          (report.SameSides → yd .recorded = yd .replay) ∧
          ∀ policy,
            -- without independents the seeds have no rows to tell `p`, and it counts as zero
            ((t.independents.size = 0 → p = 0) →
              (t.forward policy x xd).Gives ⟨y, yd policy, report⟩ ()) ∧
            ∀ out : Outputs (C w), t.checkDirections p x xd out = .ok () →
              (t.forwardInto policy p x xd out).Gives report ⟨y, yd policy⟩ ∧
              (∀ s, ∃ s', (t.forwardWithScratch policy p x xd out s).Gives report
                (⟨y, yd policy⟩, s')) ∧
              ∀ (shelf : Store (C w)) (name : TapeId), shelf.tape name = .ok t →
                (shelf.forward policy name t.dependents.size t.independents.size p x xd out).Gives
                  report ⟨y, yd policy⟩) ∧
      (∀ d : Array (C w), d.size = t.independents.size →
        ∃ yd : BranchPolicy → Array (C w),
          (report.SameSides → yd .recorded = yd .replay) ∧
          ∀ (policy : BranchPolicy) (out : DirectionOutputs (C w)),
            t.checkDirection x d out = .ok () →
            (t.forwardAlong policy x d out).Gives report ⟨y, yd policy⟩) ∧
      (∃ rows : BranchPolicy → Array (Array (C w)),
        (report.SameSides → rows .recorded = rows .replay) ∧
        ∀ policy, (t.jacobian policy x).Gives ⟨y, rows policy⟩ ()) ∧
      (report.isConsistent = true → report.SameSides) ∧
      ((∀ b ∈ report.switches, b.op = .signum ∨ b.recorded = .zero ∨ Report.isKink b = true) →
        report.SameSides) := by
  have hrep := ((hW.sound w).sealed store id t ht).recorded.toReplayable
  refine ⟨t.dependents.map (t.valuesAt x), ⟨t.switchesAt x⟩, fun p xd hxd => ?_, fun d hd => ?_, ?_,
    Report.sameSides_of_isConsistent, Report.sameSides_of_harmless⟩
  · refine ⟨fun policy => t.rowsAt policy x p xd, fun h => t.rowsAt_policy h _ _ p xd,
      fun policy => ⟨t.forward_gives hrep policy hx hxd, fun out hfits => ?_⟩⟩
    obtain ⟨-, hy, -, hyd⟩ := Tape.checkDirections_eq_ok_iff.mp hfits
    have hinto := t.forwardInto_gives hrep policy hx hxd hy hyd
    refine ⟨hinto, t.forwardWithScratch_gives hrep policy hx hxd hy hyd, fun shelf name hname => ?_⟩
    rw [Store.forward_of_tape hname]
    exact hinto
  · refine ⟨fun policy => (t.rowsAt policy x 1 (d.map fun c => #[c])).flatten, fun h => ?_,
      fun policy out hfits => ?_⟩
    · exact congrArg Array.flatten (t.rowsAt_policy h _ _ 1 _)
    · obtain ⟨-, hy, -, hyd⟩ := Tape.checkDirection_eq_ok_iff.mp hfits
      exact t.forwardAlong_gives hrep policy hx hd hy hyd
  · exact ⟨fun policy => t.rowsAt policy x t.independents.size
      (Tape.identityRows t.independents.size), fun h => t.rowsAt_policy h _ _ _ _,
      fun policy => t.jacobian_gives hrep policy hx⟩

/-- A run that records the magnitude of one, and the replay of its tape on the kink.  There is a
    switch, of an `abs` that was recorded on a side, and yet the policies agree. -/
theorem policies_agree_on_kink :
    ∃ (W : World Width.Number) (t : Tape Float) (y yd : Array Float), W.Undisturbed ∧
      W.recorder.sealed? .double "kink" 7 = some t ∧
      ∀ policy, (t.forwardAlong policy #[0] #[-1] ⟨#[0], #[0]⟩).Gives
        ⟨#[⟨1, .abs, .positive, .zero, 0⟩]⟩ ⟨y, yd⟩ := by
  let s : Session .double := ⟨"kink", 7, 1⟩
  let x : Handle (Width.Number .double) := .place (1 : Float) 0 7 1
  let y : Handle (Width.Number .double) := .place (Float.abs 1) 1 7 1
  let W₁ := ({} : World Width.Number).perform 0 (.begin "kink" 7 0 : Call _ .double)
  let W₂ := W₁.perform 0 (.independent s (1 : Float))
  let W₃ := W₂.perform 0 (.apply .abs x)
  let W₄ := W₃.perform 0 (.dependent s y)
  let W := W₄.perform 0 (.endTrace s)
  have h₁ : W₁.Undisturbed := .step .start 0 _ trivial id
  have h₂ : W₂.Undisturbed := .step h₁ 0 _ List.mem_cons_self id
  have h₃ : W₃.Undisturbed := .step h₂ 0 _ (Or.inr List.mem_cons_self) id
  have h₄ : W₄.Undisturbed :=
    .step h₃ 0 _ ⟨List.mem_cons_self, Or.inr List.mem_cons_self⟩ id
  have hW : W.Undisturbed := .step h₄ 0 _ List.mem_cons_self id
  let t : Tape Float := ⟨7, 1, #[⟨.abs, 1, .location 0, .unused, .branch (.of (1 : Float))⟩],
    #[1, Float.abs 1], #[0], #[1]⟩
  have hslot : W₄.recorder.slot? .double 0 = some t := rfl
  have ht : W.recorder.sealed? .double "kink" 7 = some t :=
    World.sealed_endTrace (s := s) hslot rfl
  have hfits : t.checkDirection #[0] #[-1] ⟨#[0], #[0]⟩ = .ok () :=
    Tape.checkDirection_eq_ok_iff.mpr ⟨rfl, rfl, rfl, rfl⟩
  obtain ⟨y', report, -, halong, -, -, hharmless⟩ := policies_agree hW ht (x := #[0]) rfl
  obtain ⟨yd, hagree, hgives⟩ := halong #[-1] rfl
  -- the report is the one of the replay, and its only switch is a kink
  have hrep := ((hW.sound .double).sealed "kink" 7 t ht).recorded.toReplayable
  have hanswer := (hgives .replay _ hfits).1
  rw [(Tape.forwardAlong_gives hrep .replay rfl rfl rfl rfl).1] at hanswer
  have hside : Branch.of (1 : Float) = .positive := by decide +kernel
  have hswitches : t.switchesAt #[0] = #[⟨1, .abs, .positive, .zero, 0⟩] := by
    simp only [t, hside]
    rfl
  rw [hswitches] at hanswer
  cases hanswer
  refine ⟨W, t, y', yd .replay, hW, ht, fun policy => ?_⟩
  have hkink : Report.isKink (⟨1, .abs, .positive, .zero, 0⟩ : BranchSwitch Float) = true := by
    decide +kernel
  have hsame := hharmless fun b hb => by
    rw [List.mem_singleton.mp (Array.mem_toList_iff.mpr hb)]
    exact Or.inr (Or.inr hkink)
  cases policy with
  | recorded =>
    rw [← hagree hsame]
    exact hgives .recorded _ hfits
  | replay => exact hgives .replay _ hfits

end World.Undisturbed

end DiffTape
