/-
  WHAT A TAPE LOOKS LIKE.

  `Recorded` and `Faithful` say what the recorder keeps up while it appends.  This file reads off
  them what a reader of the tape relies on:

  * `Entry.WellMade` — the operands are earlier locations or literals, they are as many as the
    operation has, and the aux data are of its kind;
  * `Tape.WellMade`  — the independents and the results are the locations of the tape, each once
    and both in increasing order, and the recorded values are what the entries compute.

  Both hold of every tape in every run, while it is open and after it was sealed.  The check that
  the tape makes of itself, and its count of kinks, follow.  There are no gaps between the locations,
  so the entries form a graph (`isDag_of_undisturbed`).
-/
import DiffTape.Proofs.AppendOrder
import DiffTape.Proofs.Soundness
import Mathlib.Data.List.Nodup

namespace DiffTape

variable {F : Type}

/-! ## Entries -/

/-- What holds of every entry. -/
structure Entry.WellMade (e : Entry F) : Prop where
  lhs_below : e.lhs.Below e.result
  rhs_below : e.rhs.Below e.result
  /-- The first slot is used by every operation. -/
  lhs_used : ¬ e.lhs.isUnused
  /-- The second slot is used by operations of two operands only. -/
  rhs_used : ¬ e.rhs.isUnused ↔ e.op.arity = 2
  aux_branch : (∃ b, e.aux = .branch b) ↔ e.op = .abs ∨ e.op = .signum
  aux_exponent : (∃ n, e.aux = .exponent n) ↔ e.op = .powi ∨ e.op = .ldexp ∨ e.op = .frexp
  aux_none : e.aux = .none ↔
    ¬ (e.op = .abs ∨ e.op = .signum) ∧ ¬ (e.op = .powi ∨ e.op = .ldexp ∨ e.op = .frexp)
  /-- A constant is recorded in place, unless it is brought to a location of its own. -/
  location : e.op ≠ .const → ∃ loc, e.lhs = .location loc ∨ e.rhs = .location loc
  literal : e.op = .const → ∃ c, e.lhs = .literal c

/-- Aux data that fit an operation are those of its kind. -/
theorem Aux.Fits.kind {op : Opcode} {aux : Aux} (h : aux.Fits op) :
    ((∃ b, aux = .branch b) ↔ op = .abs ∨ op = .signum) ∧
      ((∃ n, aux = .exponent n) ↔ op = .powi ∨ op = .ldexp ∨ op = .frexp) ∧
      (aux = .none ↔
        ¬ (op = .abs ∨ op = .signum) ∧ ¬ (op = .powi ∨ op = .ldexp ∨ op = .frexp)) := by
  cases op with
  | abs | signum =>
    obtain ⟨b, rfl⟩ := h
    simp
  | powi | ldexp | frexp =>
    obtain ⟨n, rfl⟩ := h
    simp
  | _ =>
    cases h
    simp

/-- The aux data of a binary operation, and of a constant, are empty. -/
theorem Opcode.fits_none {op : Opcode} (h : op = .const ∨ op.arity = 2) :
    Aux.Fits op .none := by
  cases op with
  | abs | signum | powi | ldexp | frexp => simp [Opcode.arity] at h
  | _ => rfl

theorem Entry.Shaped.fits {e : Entry F} (h : e.Shaped) : e.aux.Fits e.op := by
  cases h with
  | const result c => exact Opcode.fits_none (Or.inl rfl)
  | unary harity hop haux => exact haux
  | locations harity | literalRight harity | literalLeft harity =>
    exact Opcode.fits_none (Or.inr harity)

theorem Entry.Shaped.wellMade {e : Entry F} (h : e.Shaped) (hl : e.lhs.Below e.result)
    (hr : e.rhs.Below e.result) : e.WellMade := by
  obtain ⟨hbranch, hexponent, hnone⟩ := h.fits.kind
  cases h with
  | const result c =>
    exact ⟨hl, hr, Bool.false_ne_true, by simp [Operand.isUnused, Opcode.arity], hbranch,
      hexponent, hnone, fun hop => absurd rfl hop, fun _ => ⟨c, rfl⟩⟩
  | unary harity hop haux =>
    exact ⟨hl, hr, Bool.false_ne_true, by simp [Operand.isUnused, harity], hbranch, hexponent,
      hnone, fun _ => ⟨_, Or.inl rfl⟩, fun h => absurd h hop⟩
  | locations harity | literalRight harity =>
    refine ⟨hl, hr, Bool.false_ne_true, by simp [Operand.isUnused, harity], hbranch, hexponent,
      hnone, fun _ => ⟨_, Or.inl rfl⟩, ?_⟩
    rintro rfl
    cases harity
  | literalLeft harity =>
    refine ⟨hl, hr, Bool.false_ne_true, by simp [Operand.isUnused, harity], hbranch, hexponent,
      hnone, fun _ => ⟨_, Or.inr rfl⟩, fun _ => ⟨_, rfl⟩⟩

/-! ## Tapes -/

/-- What holds of a tape. -/
structure Tape.WellMade [Scalar F] [Elementary F] (t : Tape F) : Prop where
  /-- Independents and results together are the locations of the tape, each once. -/
  locations : (t.independents.toList ++ t.entries.toList.map (·.result)).Perm
    ((List.range t.values.size).map Nat.toUInt32)
  independents_increasing : t.independents.toList.Pairwise (· < ·)
  results_increasing : (t.entries.toList.map (·.result)).Pairwise (· < ·)
  entries : ∀ e ∈ t.entries, e.WellMade
  dependents : ∀ loc ∈ t.dependents, loc.toNat < t.values.size
  computed : ∀ e ∈ t.entries, t.recordedValue? e.result =
    some (evalValue e.op (e.lhs.read t.recordedAt) (e.rhs.read t.recordedAt) e.aux)

/-- The locations of a tape of `n` values, as words. -/
theorem mem_locations {n : Nat} (hn : n < UInt32.size) {loc : Location} :
    loc ∈ (List.range n).map Nat.toUInt32 ↔ loc.toNat < n := by
  rw [List.mem_map]
  constructor
  · rintro ⟨k, hk, rfl⟩
    have hlt := List.mem_range.mp hk
    rw [Nat.toUInt32_eq, UInt32.toNat_ofNat_of_lt' (Nat.lt_trans hlt hn)]
    exact hlt
  · intro h
    refine ⟨loc.toNat, List.mem_range.mpr h, ?_⟩
    rw [Nat.toUInt32_eq, UInt32.ofNat_toNat]

theorem nodup_locations {n : Nat} (hn : n < UInt32.size) :
    ((List.range n).map Nat.toUInt32).Nodup := by
  refine List.Nodup.map_on (fun a ha b hb heq => ?_) List.nodup_range
  have hlt : ∀ k ∈ List.range n, k.toUInt32.toNat = k := by
    intro k hk
    rw [Nat.toUInt32_eq, UInt32.toNat_ofNat_of_lt' (Nat.lt_trans (List.mem_range.mp hk) hn)]
  rw [← hlt a ha, heq, hlt b hb]

theorem Tape.Recorded.wellMade {t : Tape F} (h : t.Recorded) {e : Entry F} (he : e ∈ t.entries) :
    e.WellMade :=
  (h.shaped e he).wellMade (h.lhs_below e he) (h.rhs_below e he)

section WellMade

variable [Scalar F] [Elementary F] {t : Tape F}

/-- Every location is an independent or a result, and none is both. -/
theorem Tape.Faithful.locations (h : t.Faithful) (hrec : t.Recorded)
    (hsize : t.values.size < UInt32.size) :
    (t.independents.toList ++ t.entries.toList.map (·.result)).Perm
      ((List.range t.values.size).map Nat.toUInt32) := by
  have hresults : (t.entries.toList.map (·.result)).Pairwise (· < ·) :=
    List.pairwise_map.mpr h.results_increasing
  have hnodup : (t.independents.toList ++ t.entries.toList.map (·.result)).Nodup := by
    refine List.nodup_append.mpr ⟨h.independents_increasing.imp UInt32.ne_of_lt,
      hresults.imp UInt32.ne_of_lt, fun loc hloc r hr heq => ?_⟩
    obtain ⟨e, he, rfl⟩ := List.mem_map.mp hr
    rw [heq] at hloc
    exact h.results_fresh e (Array.mem_toList_iff.mp he) (Array.mem_toList_iff.mp hloc)
  refine (List.perm_ext_iff_of_nodup hnodup (nodup_locations hsize)).mpr fun loc => ?_
  rw [mem_locations hsize, List.mem_append, List.mem_map, Array.mem_toList_iff]
  constructor
  · rintro (hloc | ⟨e, he, rfl⟩)
    · exact hrec.independents_lt loc hloc
    · exact hrec.result_lt e (Array.mem_toList_iff.mp he)
  · intro hlt
    rcases h.covered loc hlt with hloc | ⟨e, he, heq⟩
    · exact Or.inl hloc
    · exact Or.inr ⟨e, Array.mem_toList_iff.mpr he, heq⟩

theorem Tape.Faithful.wellMade (h : t.Faithful) (hrec : t.Recorded)
    (hsize : t.values.size < UInt32.size) : t.WellMade := by
  refine ⟨h.locations hrec hsize, h.independents_increasing,
    List.pairwise_map.mpr h.results_increasing, fun e he => hrec.wellMade he, hrec.dependents_lt,
    fun e he => ?_⟩
  have hlt := hrec.result_lt e he
  have hsome : t.recordedValue? e.result = some t.values[e.result.toNat] :=
    Array.getElem?_eq_getElem hlt
  have hat : t.recordedAt e.result = t.values[e.result.toNat] := by
    unfold recordedAt
    rw [hsome, Option.getD_some]
  rw [hsome, ← hat, h.computed e he]
  rfl

/-! ## What the tape says of itself -/

omit [Scalar F] [Elementary F] in
theorem Entry.WellMade.slotsFit {e : Entry F} (h : e.WellMade) : e.slotsFit = true := by
  have hreadable : ∀ {o : Operand F}, o.Below e.result → ¬ o.isUnused →
      o.readableBelow e.result = true := by
    intro o ho hused
    cases o with
    | location loc => exact decide_eq_true (ho loc rfl)
    | literal c => rfl
    | unused => exact absurd rfl hused
  have hlhs := hreadable h.lhs_below h.lhs_used
  unfold Entry.slotsFit
  rw [hlhs, Bool.true_and]
  by_cases harity : e.op.arity = 2
  · rw [if_pos (by omega)]
    exact hreadable h.rhs_below (h.rhs_used.mpr harity)
  · have hone : ¬ 1 < e.op.arity := by
      revert harity
      cases e.op <;> decide
    rw [if_neg hone]
    by_contra hused
    exact harity (h.rhs_used.mp hused)

theorem Tape.Faithful.ordered (h : t.Faithful) (hrec : t.Recorded) : t.Ordered :=
  ⟨hrec.result_lt, h.results_increasing, h.results_fresh,
    fun _ he => Entry.slotsFit_iff.mp (hrec.wellMade he).slotsFit, hrec.independents_lt,
    hrec.dependents_lt⟩

/-- So the tape passes its own check. -/
theorem Tape.Faithful.isWellFormed (h : t.Faithful) (hrec : t.Recorded)
    (hsize : t.values.size < UInt32.size) : t.isWellFormed = true :=
  (Tape.isWellFormed_iff_ordered hsize).mpr (h.ordered hrec)

/-- The recorder leaves no gap, so the tape is a graph. -/
theorem Tape.Faithful.isDag (h : t.Faithful) (hrec : t.Recorded) : t.IsDag := by
  refine Tape.isDag_iff.mpr ⟨h.ordered hrec, fun e he k loc hk => ?_⟩
  have hlt : loc < e.result := ((h.ordered hrec).reads_below e he).location hk
  have hloc := Nat.lt_trans (UInt32.lt_iff_toNat_lt.mp hlt) (hrec.result_lt e he)
  refine (h.covered loc hloc).imp_right ?_
  rintro ⟨e', he', hres⟩
  exact ⟨e', Array.mem_toList_iff.mpr he', hres⟩

omit [Scalar F] [Elementary F] in
/-- The kinks are counted by their operations; these are the entries that carry a branch. -/
theorem Tape.Recorded.nonsmooth (h : t.Recorded) :
    t.stats.nonsmooth = t.entries.countP (·.aux.branch?.isSome) := by
  refine Array.countP_congr fun e he => ?_
  have hkind := (h.wellMade he).aux_branch
  have hop : e.op.isNonsmooth = true ↔ e.op = .abs ∨ e.op = .signum := by
    cases e.op <;> decide
  have haux : e.aux.branch?.isSome = true ↔ ∃ b, e.aux = .branch b := by
    cases e.aux <;> simp [Aux.branch?]
  rw [hop, haux, hkind]

end WellMade

/-! ## Every run -/

variable {C : Width → Type} [∀ w, Scalar (C w)] [∀ w, Elementary (C w)] {w : Width}

/-- What the runs keep of a tape, in a slot or sealed. -/
theorem World.Undisturbed.good {W : World C} (hW : W.Undisturbed) {t : Tape (C w)}
    (ht : (∃ i, W.recorder.slot? w i = some t) ∨
      ∃ store id, W.recorder.sealed? w store id = some t) : (W.view w).Good t := by
  rcases ht with ⟨i, ht⟩ | ⟨store, id, ht⟩
  · exact (hW.sound w).slot i t ht
  · exact (hW.sound w).sealed store id t ht

/-- Every tape of every run that leaves the slots alone is well made, in a slot or sealed; so its
    own check succeeds, and its count of kinks is that of its recorded branches. -/
theorem representation_invariant {W : World C} (hW : W.Undisturbed) {t : Tape (C w)}
    (ht : (∃ i, W.recorder.slot? w i = some t) ∨
      ∃ store id, W.recorder.sealed? w store id = some t)
    (hsize : t.values.size < UInt32.size - 1) :
    t.WellMade ∧ t.isWellFormed = true ∧
      t.stats.nonsmooth = t.entries.countP (·.aux.branch?.isSome) := by
  have hgood := hW.good ht
  have haddr : t.Addressable := Nat.le_of_lt hsize
  have hfaithful := hgood.faithful haddr
  exact ⟨hfaithful.wellMade hgood.recorded haddr.lt, hfaithful.isWellFormed hgood.recorded haddr.lt,
    hgood.recorded.nonsmooth⟩

/-- A tape that is still open, with a constant that was marked dependent between two independents,
    and the magnitude of the first of them. -/
theorem representation_invariant_while_open :
    ∃ (W : World Width.Number) (t : Tape Float), W.Undisturbed ∧
      W.recorder.slot? .double 0 = some t ∧ t.independents = #[0, 2] ∧ t.dependents = #[1] ∧
      t.entries.map (·.result) = #[1, 3] ∧ t.WellMade ∧ t.isWellFormed = true ∧
      t.stats.nonsmooth = t.entries.countP (·.aux.branch?.isSome) := by
  let s : Session .double := ⟨"sweep", 3, 1⟩
  let c : Handle (Width.Number .double) := .constant (2 : Float)
  let x : Handle (Width.Number .double) := .place (1 : Float) 0 3 1
  let W₁ := ({} : World Width.Number).perform 0 (.begin "sweep" 3 0 : Call _ .double)
  let W₂ := W₁.perform 0 (.independent s (1 : Float))
  let W₃ := W₂.perform 0 (.dependent s c)
  let W₄ := W₃.perform 0 (.independent s (5 : Float))
  let W := W₄.perform 0 (.apply .abs x)
  have h₁ : W₁.Undisturbed := .step .start 0 _ trivial id
  have h₂ : W₂.Undisturbed := .step h₁ 0 _ List.mem_cons_self id
  have h₃ : W₃.Undisturbed := .step h₂ 0 _ ⟨List.mem_cons_self, Or.inl rfl⟩ id
  have h₄ : W₄.Undisturbed := .step h₃ 0 _ List.mem_cons_self id
  have hW : W.Undisturbed :=
    .step h₄ 0 _ (Or.inr (List.mem_cons_of_mem _ List.mem_cons_self)) id
  let t : Tape Float := ⟨3, 1, #[⟨.const, 1, .literal 2, .unused, .none⟩,
    ⟨.abs, 3, .location 0, .unused, .branch (.of (1 : Float))⟩],
    #[1, 2, 5, Float.abs 1], #[0, 2], #[1]⟩
  have hslot : W.recorder.slot? .double 0 = some t := rfl
  exact ⟨W, t, hW, hslot, rfl, rfl, by simp [t],
    representation_invariant hW (Or.inl ⟨0, hslot⟩) (by decide)⟩

/-- In each of these tapes, what an entry reads is an independent or was computed by an entry before
    it. -/
theorem isDag_of_undisturbed {W : World C} (hW : W.Undisturbed) {t : Tape (C w)}
    (ht : (∃ i, W.recorder.slot? w i = some t) ∨
      ∃ store id, W.recorder.sealed? w store id = some t)
    (hsize : t.values.size < UInt32.size - 1) : t.IsDag := by
  have hgood := hW.good ht
  have haddr : t.Addressable := Nat.le_of_lt hsize
  exact (hgood.faithful haddr).isDag hgood.recorded

end DiffTape
