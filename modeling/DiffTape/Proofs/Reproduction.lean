/-
  A REPLAY AT THE RECORDED INPUTS REPRODUCES THE RECORDING.

  The entries of a tape are equations: the value of every result is what the entry computes from the
  values of its operands.  A pass that starts from the inputs of a SOLUTION of these equations runs
  into it: whatever location is not the result of an entry still to come has its value there.  When
  an entry is reached its operands lie below its result, and all results still to come lie above it,
  so the entry reads values of the solution and writes one.

  The recorded values of a faithful tape are such a solution.  On the way every nonsmooth entry sees
  its recorded operand, and is on its recorded branch.
-/
import DiffTape.Proofs.Recording

namespace DiffTape

variable {F : Type} [Scalar F]

/-- An entry is no switch exactly if the branch it recorded, if it did, is that of the operand. -/
theorem Entry.switch?_eq_none_iff {e : Entry F} {a : F} :
    e.switch? a = none ↔ ∀ b, e.aux.branch? = some b → b = Branch.of a := by
  unfold switch?
  cases e.aux.branch? with
  | none => exact ⟨fun _ b hb => (nomatch hb), fun _ => rfl⟩
  | some c =>
    show (if Branch.of a = c then none else some _) = none ↔ _
    constructor
    · rintro h b ⟨⟩
      by_contra hne
      rw [if_neg (Ne.symm hne)] at h
      cases h
    · intro h
      exact if_pos (h c rfl).symm

namespace Tape

variable {t : Tape F}

/-- A recorded tape knows the value of each of its locations. -/
theorem recordedValue?_eq {loc : Location} (hloc : loc.toNat < t.values.size) :
    t.recordedValue? loc = some (t.recordedAt loc) := by
  have hv : t.recordedValue? loc = some t.values[loc.toNat] := Array.getElem?_eq_getElem hloc
  unfold recordedAt
  rw [hv, Option.getD_some]

theorem Recorded.recordedInputs?_eq (h : t.Recorded) :
    t.recordedInputs? = some (t.independents.map t.recordedAt) :=
  mapM_eq_some_map fun loc hloc => recordedValue?_eq (h.independents_lt loc hloc)

theorem Recorded.recordedOutputs?_eq (h : t.Recorded) :
    t.recordedOutputs? = some (t.dependents.map t.recordedAt) :=
  mapM_eq_some_map fun loc hloc => recordedValue?_eq (h.dependents_lt loc hloc)

end Tape

variable [Elementary F]

/-- The induction over the entries.  `g` is the solution. -/
theorem pass_reproduces {entries : List (Entry F)} {g : Location → F} {n : Nat}
    (hinc : entries.Pairwise fun e e' => e.result < e'.result)
    (hres : ∀ e ∈ entries, e.result.toNat < n) (hl : ∀ e ∈ entries, e.lhs.Below e.result)
    (hr : ∀ e ∈ entries, e.rhs.Below e.result) (hval : ∀ e ∈ entries, g e.result = e.value g)
    {env : Location → F}
    (henv : ∀ loc : Location, loc.toNat < n → (∀ e ∈ entries, e.result ≠ loc) →
      env loc = g loc) :
    (∀ loc : Location, loc.toNat < n → pass Entry.value entries env loc = g loc) ∧
      switchesFrom entries env = entries.filterMap fun e => e.switch? (e.lhs.read g) := by
  induction entries generalizing env with
  | nil => exact ⟨fun loc hloc => henv loc hloc fun e he => absurd he List.not_mem_nil, rfl⟩
  | cons e rest ih =>
    obtain ⟨hhead, htail⟩ := List.pairwise_cons.mp hinc
    rw [List.forall_mem_cons] at hres hl hr hval
    -- what `e` reads is below its result, hence no result that is still to come
    have hread : ∀ o : Operand F, o.Below e.result → o.read env = o.read g := by
      intro o ho
      refine Operand.denote_congr fun loc hloc => ?_
      have hlt : loc < e.result := ho loc hloc
      refine henv loc (Nat.lt_trans (UInt32.lt_iff_toNat_lt.mp hlt) hres.1) ?_
      intro e' he' heq
      rcases List.mem_cons.mp he' with rfl | he'
      · exact UInt32.ne_of_lt hlt heq.symm
      · exact UInt32.lt_asymm (hhead e' he') (heq ▸ hlt)
    have hle := hread e.lhs hl.1
    have hre := hread e.rhs hr.1
    have hvalue : e.value env = g e.result := by
      rw [hval.1]
      unfold Entry.value
      rw [hle, hre]
    -- so `e` writes the value of the solution, and its result agrees from now on
    have henv' : ∀ loc : Location, loc.toNat < n → (∀ e' ∈ rest, e'.result ≠ loc) →
        Function.update env e.result (e.value env) loc = g loc := by
      intro loc hloc hnot
      by_cases heq : loc = e.result
      · subst heq
        rw [Function.update_self, hvalue]
      · rw [Function.update_of_ne heq]
        refine henv loc hloc fun e' he' => ?_
        rcases List.mem_cons.mp he' with rfl | he'
        · exact fun h => heq h.symm
        · exact hnot e' he'
    obtain ⟨hpass, hsw⟩ := ih htail hres.2 hl.2 hr.2 hval.2 henv'
    refine ⟨hpass, ?_⟩
    rw [switchesFrom, hle, hsw, List.filterMap_cons]
    cases e.switch? (e.lhs.read g) <;> rfl

namespace Tape

variable {t : Tape F}

/-- Every result has the value that its entry computes. -/
def Solution (t : Tape F) (g : Location → F) : Prop := ∀ e ∈ t.entries, g e.result = e.value g

/-- Replayed at the inputs of a solution, a faithful tape takes the values of the solution, and an
    entry is a switch exactly if it is one there. -/
theorem Faithful.valuesAt_solution (h : t.Faithful) (hrec : t.Recorded) {g : Location → F}
    (hg : t.Solution g) :
    (∀ loc : Location, loc.toNat < t.values.size →
      t.valuesAt (t.independents.map g) loc = g loc) ∧
    t.switchesAt (t.independents.map g) =
      (t.entries.toList.filterMap fun e => e.switch? (e.lhs.read g)).toArray := by
  have hstart : ∀ loc : Location, loc.toNat < t.values.size →
      (∀ e ∈ t.entries.toList, e.result ≠ loc) →
      t.startValues (t.independents.map g) loc = g loc := by
    intro loc hloc hnot
    rcases h.covered loc hloc with hind | ⟨e, he, hres⟩
    · refine place_eq (fun i hi => ?_) hind
      rw [Array.getElem?_map, Array.getElem?_eq_getElem hi, Option.map_some, Option.getD_some]
    · exact absurd hres (hnot e (Array.mem_toList_iff.mpr he))
  obtain ⟨hvalues, hswitches⟩ := pass_reproduces h.results_increasing
    (fun e he => hrec.result_lt e (Array.mem_toList_iff.mp he))
    (fun e he => hrec.lhs_below e (Array.mem_toList_iff.mp he))
    (fun e he => hrec.rhs_below e (Array.mem_toList_iff.mp he))
    (fun e he => hg e (Array.mem_toList_iff.mp he)) hstart
  exact ⟨hvalues, congrArg List.toArray hswitches⟩

/-- Replayed at its recorded inputs, a faithful tape takes its recorded values and leaves no
    branch. -/
theorem Faithful.valuesAt_recorded (h : t.Faithful) (hrec : t.Recorded) :
    (∀ loc : Location, loc.toNat < t.values.size →
      t.valuesAt (t.independents.map t.recordedAt) loc = t.recordedAt loc) ∧
    t.switchesAt (t.independents.map t.recordedAt) = #[] := by
  obtain ⟨hvalues, hswitches⟩ := h.valuesAt_solution hrec h.computed
  refine ⟨hvalues, hswitches.trans (congrArg List.toArray ?_)⟩
  exact List.filterMap_eq_nil_iff.mpr fun e he =>
    Entry.switch?_eq_none_iff.mpr (h.branch e (Array.mem_toList_iff.mp he))

/-- A scratch shows the recorded values of a tape if the sweep computed them. -/
theorem value?_eq_recordedValue? {t' : Tape F} {policy : BranchPolicy} {x : Array F} {p : Nat}
    {seeds : Array (Array F)} {s : Scratch F}
    (hs : s.Holds t.values.size p (t.cells policy x p seeds))
    (hsize : t.values.size = t'.values.size)
    (h : ∀ loc : Location, loc.toNat < t.values.size → t.valuesAt x loc = t'.recordedAt loc)
    (loc : Location) : s.value? loc = t'.recordedValue? loc := by
  by_cases hloc : loc.toNat < t.values.size
  · rw [recordedValue?_eq (by rw [← hsize]; exact hloc), hs.value loc hloc, ← h loc hloc,
      ← value_cells t policy x p seeds]
    rfl
  · unfold Scratch.value? recordedValue?
    rw [Array.getElem?_eq_none (by rw [hs.size_values]; exact Nat.le_of_not_lt hloc),
      Array.getElem?_eq_none (by rw [← hsize]; exact Nat.le_of_not_lt hloc)]

end Tape

end DiffTape
