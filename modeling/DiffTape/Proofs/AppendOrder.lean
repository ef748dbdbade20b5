/-
  WHAT THE CHECK OF A TAPE DECIDES.

  The entries of a tape, read in the order in which they were appended, are meant to form a
  directed acyclic graph: what an entry reads is an independent, or has been computed by an entry
  before it (`Tape.IsDag`).  The check of a tape compares locations only.  It decides that the
  tape is in append order (`Tape.Ordered`): the results increase, and every operand lies below the
  result it feeds.

  1. `entriesFit_iff`                 — the loop over the entries, with the last result as an
                                        argument, is a statement about all pairs of entries;
  2. `Tape.isWellFormed_iff_ordered`  — so the check decides the append order.
  3. `Tape.Ordered.produced_of_lt`    — in append order, an entry that computes a lower location comes
                                        earlier;
  4. `Tape.check_decides_append_order` — so what is missing to a graph is that the locations that are
                                        read have been computed at all.

  A location that no entry computes and that is no independent is a gap.  A tape with a gap can pass
  the check and read the gap (`Tape.check_passes_gap`).  The recorder leaves no gaps.
-/
import DiffTape.Proofs.Recording
import DiffTape.Tape.WellFormed

namespace DiffTape

variable {F : Type}

/-! ## Slots -/

/-- A literal, or a location that has the property. -/
def Operand.ReadsFrom (P : Location → Prop) : Operand F → Prop
  | .location loc => P loc
  | .literal _ => True
  | .unused => False

/-- The operand in a slot. -/
def Entry.slot (e : Entry F) : Fin 2 → Operand F
  | 0 => e.lhs
  | 1 => e.rhs

/-- The slots that the operation reads have literals, or locations that have the property.  The
    others are empty. -/
def Entry.SlotsRead (e : Entry F) (P : Location → Prop) : Prop :=
  ∀ k : Fin 2, if k.val < e.op.arity then (e.slot k).ReadsFrom P else e.slot k = .unused

theorem Operand.readableBelow_iff {o : Operand F} {r : Location} :
    o.readableBelow r = true ↔ o.ReadsFrom (· < r) := by
  cases o with
  | location loc => exact decide_eq_true_iff
  | literal c => exact ⟨fun _ => trivial, fun _ => rfl⟩
  | unused => exact ⟨fun h => (nomatch h), fun h => h.elim⟩

theorem Operand.isUnused_iff {o : Operand F} : o.isUnused = true ↔ o = .unused := by
  cases o with
  | location loc => exact ⟨fun h => (nomatch h), fun h => (nomatch h)⟩
  | literal c => exact ⟨fun h => (nomatch h), fun h => (nomatch h)⟩
  | unused => exact ⟨fun _ => rfl, fun _ => rfl⟩

/-- Every operation reads its first slot. -/
theorem Opcode.arity_pos (op : Opcode) : 0 < op.arity := by
  cases op <;> decide

theorem Entry.slotsFit_iff {e : Entry F} :
    e.slotsFit = true ↔ e.SlotsRead (· < e.result) := by
  unfold Entry.slotsFit Entry.SlotsRead
  rw [Bool.and_eq_true, Fin.forall_fin_two]
  refine and_congr ?_ ?_
  · show _ ↔ if 0 < e.op.arity then e.lhs.ReadsFrom (· < e.result) else e.lhs = .unused
    rw [if_pos e.op.arity_pos]
    exact Operand.readableBelow_iff
  · show _ ↔ if 1 < e.op.arity then e.rhs.ReadsFrom (· < e.result) else e.rhs = .unused
    by_cases harity : 1 < e.op.arity
    · rw [if_pos harity, if_pos harity]
      exact Operand.readableBelow_iff
    · rw [if_neg harity, if_neg harity]
      exact Operand.isUnused_iff

/-- What is read by a slot with the property, whether the operation uses the slot or not. -/
theorem Entry.SlotsRead.location {e : Entry F} {P : Location → Prop} (h : e.SlotsRead P)
    {k : Fin 2} {loc : Location} (hk : e.slot k = .location loc) : P loc := by
  have hslot := h k
  rw [hk] at hslot
  split at hslot
  · exact hslot
  · cases hslot

/-- Where the locations that are read have another property, the slots read that property. -/
theorem Entry.SlotsRead.imp {e : Entry F} {P Q : Location → Prop} (h : e.SlotsRead P)
    (hPQ : ∀ k loc, e.slot k = .location loc → P loc → Q loc) : e.SlotsRead Q := by
  intro k
  have hslot := h k
  by_cases hk : k.val < e.op.arity
  · rw [if_pos hk] at hslot ⊢
    cases ho : e.slot k with
    | location loc =>
      rw [ho] at hslot
      exact hPQ k loc ho hslot
    | literal c => trivial
    | unused =>
      rw [ho] at hslot
      exact hslot
  · rw [if_neg hk] at hslot ⊢
    exact hslot

theorem Entry.SlotsRead.below {e : Entry F} {r : Location} (h : e.SlotsRead (· < r)) :
    e.lhs.Below r ∧ e.rhs.Below r := by
  have hbelow : ∀ k, (e.slot k).Below r := by
    intro k loc hloc
    cases hk : e.slot k with
    | location l =>
      rw [hk] at hloc
      cases hloc
      exact h.location hk
    | literal c =>
      rw [hk] at hloc
      cases hloc
    | unused =>
      rw [hk] at hloc
      cases hloc
  exact ⟨hbelow 0, hbelow 1⟩

/-! ## The loop over the entries -/

theorem Entry.resultFits_iff {e : Entry F} {n : Location} {independents : Array Location}
    {last : Option Location} :
    e.resultFits n independents last = true ↔
      e.result < n ∧ (∀ l ∈ last, l < e.result) ∧ e.result ∉ independents := by
  unfold Entry.resultFits
  rw [Bool.and_eq_true, Bool.and_eq_true, and_assoc]
  refine and_congr decide_eq_true_iff (and_congr ?_ ?_)
  · cases last with
    | none => simp
    | some l => simp
  · simp

/-- The loop compares each result with the one before it.  The order is transitive, so all results
    increase, from `last` on. -/
theorem entriesFit_iff {n : Location} {independents : Array Location} {last : Option Location}
    {entries : List (Entry F)} :
    entriesFit n independents last entries = true ↔
      (∀ e ∈ entries, e.result < n ∧ e.result ∉ independents ∧ e.SlotsRead (· < e.result)) ∧
        entries.Pairwise (fun e e' => e.result < e'.result) ∧
        ∀ l ∈ last, ∀ e ∈ entries, l < e.result := by
  induction entries generalizing last with
  | nil => simp [entriesFit]
  | cons e rest ih =>
    rw [entriesFit, Bool.and_eq_true, Bool.and_eq_true, ih, Entry.resultFits_iff,
      Entry.slotsFit_iff, List.forall_mem_cons, List.pairwise_cons]
    constructor
    · rintro ⟨⟨⟨hlt, hlast, hfresh⟩, hslots⟩, hrest, hpairs, habove⟩
      have habove : ∀ e' ∈ rest, e.result < e'.result := habove e.result rfl
      refine ⟨⟨⟨hlt, hfresh, hslots⟩, hrest⟩, ⟨habove, hpairs⟩, fun l hl => ?_⟩
      exact List.forall_mem_cons.mpr
        ⟨hlast l hl, fun e' he' => UInt32.lt_trans (hlast l hl) (habove e' he')⟩
    · rintro ⟨⟨⟨hlt, hfresh, hslots⟩, hrest⟩, ⟨habove, hpairs⟩, hlast⟩
      refine ⟨⟨⟨hlt, fun l hl => hlast l hl e List.mem_cons_self, hfresh⟩, hslots⟩, hrest, hpairs,
        fun l hl => ?_⟩
      cases hl
      exact habove

/-! ## Append order -/

namespace Tape

/-- The tape is in append order. -/
structure Ordered (t : Tape F) : Prop where
  results_lt : ∀ e ∈ t.entries, e.result.toNat < t.values.size
  results_increasing : t.entries.toList.Pairwise fun e e' => e.result < e'.result
  results_fresh : ∀ e ∈ t.entries, e.result ∉ t.independents
  reads_below : ∀ e ∈ t.entries, e.SlotsRead (· < e.result)
  independents_lt : ∀ loc ∈ t.independents, loc.toNat < t.values.size
  dependents_lt : ∀ loc ∈ t.dependents, loc.toNat < t.values.size

/-- The location is an independent, or one of the entries computes it. -/
def Produced (t : Tape F) (entries : List (Entry F)) (loc : Location) : Prop :=
  loc ∈ t.independents ∨ ∃ e ∈ entries, e.result = loc

/-- The tape is in append order, and every location that an operation reads is an independent or
    the result of an earlier entry. -/
structure IsDag (t : Tape F) : Prop extends t.Ordered where
  reads_produced : ∀ before e after, t.entries.toList = before ++ e :: after →
    e.SlotsRead (t.Produced before)

/-- Every location that is read is an independent or the result of some entry, whichever. -/
def ReadsNoGap (t : Tape F) : Prop :=
  ∀ e ∈ t.entries, ∀ (k : Fin 2) (loc : Location), e.slot k = .location loc →
    t.Produced t.entries.toList loc

variable {t : Tape F}

/-- The check accepts only tapes in append order, with locations below the count of values as a
    word. -/
theorem isWellFormed_iff :
    t.isWellFormed = true ↔
      ((∀ e ∈ t.entries, e.result < t.nextLocation ∧ e.result ∉ t.independents ∧
          e.SlotsRead (· < e.result)) ∧
        t.entries.toList.Pairwise (fun e e' => e.result < e'.result)) ∧
      (∀ loc ∈ t.independents, loc < t.nextLocation) ∧
        ∀ loc ∈ t.dependents, loc < t.nextLocation := by
  show (entriesFit t.nextLocation t.independents none t.entries.toList &&
    t.independents.all (· < t.nextLocation) && t.dependents.all (· < t.nextLocation)) = true ↔ _
  rw [Bool.and_eq_true, Bool.and_eq_true, and_assoc, entriesFit_iff,
    Array.all_eq_true_iff_forall_mem, Array.all_eq_true_iff_forall_mem]
  simp only [Array.mem_toList_iff, decide_eq_true_eq, Option.not_mem_none, false_implies,
    implies_true, and_true]

/-- The count as a word is the count, or less. -/
theorem ordered_of_isWellFormed (h : t.isWellFormed = true) : t.Ordered := by
  obtain ⟨⟨hentry, hpairs⟩, hin, hout⟩ := isWellFormed_iff.mp h
  have hlt : ∀ {loc : Location}, loc < t.nextLocation → loc.toNat < t.values.size :=
    fun hloc => Nat.lt_of_lt_of_le (UInt32.lt_iff_toNat_lt.mp hloc) t.nextLocation_le
  exact ⟨fun e he => hlt (hentry e he).1, hpairs, fun e he => (hentry e he).2.1,
    fun e he => (hentry e he).2.2, fun loc hloc => hlt (hin loc hloc),
    fun loc hloc => hlt (hout loc hloc)⟩

/-- The check decides the append order. -/
theorem isWellFormed_iff_ordered (hsize : t.values.size < UInt32.size) :
    t.isWellFormed = true ↔ t.Ordered := by
  refine ⟨ordered_of_isWellFormed, fun h => isWellFormed_iff.mpr ?_⟩
  exact ⟨⟨fun e he => ⟨lt_nextLocation hsize (h.results_lt e he), h.results_fresh e he,
      h.reads_below e he⟩, h.results_increasing⟩,
    fun loc hloc => lt_nextLocation hsize (h.independents_lt loc hloc),
    fun loc hloc => lt_nextLocation hsize (h.dependents_lt loc hloc)⟩

/-- In append order, an entry that computes a lower location comes earlier. -/
theorem Ordered.produced_of_lt (h : t.Ordered) {before after : List (Entry F)} {e : Entry F}
    (hsplit : t.entries.toList = before ++ e :: after) {loc : Location}
    (hloc : t.Produced t.entries.toList loc) (hlt : loc < e.result) : t.Produced before loc := by
  refine hloc.imp_right ?_
  rintro ⟨e', he', rfl⟩
  have hpairs := h.results_increasing
  rw [hsplit] at he' hpairs
  rcases List.mem_append.mp he' with hbefore | hafter
  · exact ⟨e', hbefore, rfl⟩
  · -- the entry itself and those after it have results that are not lower
    rcases List.mem_cons.mp hafter with rfl | hafter
    · exact absurd hlt (UInt32.lt_irrefl _)
    · have habove := (List.pairwise_cons.mp (List.pairwise_append.mp hpairs).2.1).1 e' hafter
      exact absurd (UInt32.lt_trans hlt habove) (UInt32.lt_irrefl _)

/-- A graph is a tape in append order that reads no gap. -/
theorem isDag_iff : t.IsDag ↔ t.Ordered ∧ t.ReadsNoGap := by
  constructor
  · intro h
    refine ⟨h.toOrdered, fun e he k loc hk => ?_⟩
    obtain ⟨before, after, hsplit⟩ := List.append_of_mem (Array.mem_toList_iff.mpr he)
    refine ((h.reads_produced before e after hsplit).location hk).imp_right ?_
    rintro ⟨e', he', hres⟩
    refine ⟨e', ?_, hres⟩
    rw [hsplit]
    exact List.mem_append_left _ he'
  · rintro ⟨hordered, hgap⟩
    refine ⟨hordered, fun before e after hsplit => ?_⟩
    have he : e ∈ t.entries := by
      rw [← Array.mem_toList_iff, hsplit]
      exact List.mem_append_right _ List.mem_cons_self
    -- a location that is read lies below the result, so its entry comes earlier
    exact (hordered.reads_below e he).imp fun k loc hk hlt =>
      hordered.produced_of_lt hsplit (hgap e he k loc hk) hlt

/-! ## What the check decides -/

/-- The check decides the append order: the results are on the tape, increase and are no
    independents; each slot that an operation reads has a literal or a location below the result,
    and the others are empty; the independents and the dependents are on the tape.  The tape is a
    graph exactly if, beyond that, no location that is read is a gap.  On a tape without gaps the
    check decides whether it is a graph. -/
theorem check_decides_append_order (hsize : t.values.size < UInt32.size) :
    (t.isWellFormed = true ↔ t.Ordered) ∧
      (t.IsDag ↔ t.isWellFormed = true ∧ t.ReadsNoGap) ∧
      ((∀ loc : Location, loc.toNat < t.values.size → t.Produced t.entries.toList loc) →
        (t.isWellFormed = true ↔ t.IsDag)) := by
  have hcheck := isWellFormed_iff_ordered hsize
  have hdag : t.IsDag ↔ t.isWellFormed = true ∧ t.ReadsNoGap := by
    rw [hcheck]
    exact isDag_iff
  refine ⟨hcheck, hdag, fun hcovered => ?_⟩
  rw [hdag]
  refine ⟨fun h => ⟨h, fun e he k loc hk => hcovered loc ?_⟩, And.left⟩
  have hordered := hcheck.mp h
  have hlt : loc < e.result := (hordered.reads_below e he).location hk
  exact Nat.lt_trans (UInt32.lt_iff_toNat_lt.mp hlt) (hordered.results_lt e he)

/-- A tape with an independent between its two entries, the second of which reads the result of the
    first, a location, and a literal. -/
theorem check_decides_append_order_between_independents :
    ∃ t : Tape Float, t.values.size = 4 ∧ t.independents = #[0, 2] ∧ t.isWellFormed = true ∧
      t.Ordered ∧ t.IsDag := by
  let t : Tape Float := ⟨7, 1, #[⟨.neg, 1, .location 0, .unused, .none⟩,
    ⟨.mul, 3, .location 1, .literal 5, .none⟩], #[1, -1, 4, -5], #[0, 2], #[3]⟩
  have ht : t.isWellFormed = true := by
    simp [t, isWellFormed, entriesFit, Entry.resultFits, Entry.slotsFit, nextLocation,
      Operand.readableBelow, Operand.isUnused, Opcode.arity]
  have hcovered : ∀ loc : Location, loc.toNat < t.values.size →
      t.Produced t.entries.toList loc := by
    intro loc hloc
    have hfour : loc = 0 ∨ loc = 1 ∨ loc = 2 ∨ loc = 3 := by
      have hlt : loc.toNat < 4 := hloc
      simp only [← UInt32.toNat_inj, UInt32.toNat_ofNat]
      omega
    rcases hfour with rfl | rfl | rfl | rfl
    · exact Or.inl (by simp [t])
    · exact Or.inr ⟨_, List.mem_cons_self, rfl⟩
    · exact Or.inl (by simp [t])
    · exact Or.inr ⟨_, List.mem_cons_of_mem _ List.mem_cons_self, rfl⟩
  obtain ⟨hcheck, -, hdag⟩ := check_decides_append_order (t := t) (by decide)
  exact ⟨t, rfl, rfl, ht, hcheck.mp ht, (hdag hcovered).mp ht⟩

/-- The check does not decide whether a tape is a graph: it passes a tape whose only entry reads a
    location that nothing computes. -/
theorem check_passes_gap :
    ¬ ∀ t : Tape Float, t.values.size < UInt32.size → (t.isWellFormed = true ↔ t.IsDag) := by
  intro h
  let t : Tape Float := ⟨7, 1, #[⟨.neg, 1, .location 0, .unused, .none⟩], #[1, -1], #[], #[1]⟩
  have ht : t.isWellFormed = true := by
    simp [t, isWellFormed, entriesFit, Entry.resultFits, Entry.slotsFit, nextLocation,
      Operand.readableBelow, Operand.isUnused, Opcode.arity]
  have hdag : t.IsDag := (h t (by decide)).mp ht
  have hread : t.Produced [] 0 := (hdag.reads_produced [] _ [] rfl).location (k := 0) rfl
  rcases hread with hind | ⟨e, he, -⟩
  · exact absurd hind (Array.not_mem_empty _)
  · exact absurd he List.not_mem_nil

end Tape

end DiffTape
