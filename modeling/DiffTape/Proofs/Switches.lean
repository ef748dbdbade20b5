/-
  THE REPORT IS THE DIFFERENCE OF TWO RECORDINGS.

  Record one straight-line program at `x₀` and at `x₁`, and evaluate the first tape at `x₁`.  The
  values that the second tape has recorded solve the equations of the first one, so the evaluation
  runs into them, and a nonsmooth entry sees the operand that was recorded at `x₁`.  It is listed if
  the branch of that operand is not the one recorded at `x₀`.  But that branch is what the second
  tape has recorded.

  1. `Tape.Replayable.reports` — every evaluation at a point gives one report.
  2. `Entry.Twin`              — what one statement records in two runs.
  3. `Tape.Alike.switchesAt`   — the switches of the replay are the `differences` of the tapes,
                                 position by position.
  4. `differences_eq_nil_iff`  — so there is none exactly if the entries are the same.
  5. `Report.mem_kinks_iff`    — and a kink is a switch whose operand is a zero.
-/
import DiffTape.Proofs.Formats
import DiffTape.Proofs.Representation
import DiffTape.Proofs.Retrace

namespace DiffTape

variable {F : Type}

/-! ## One report for every evaluation -/

/-- Where a list is mapped by a function that can fail, and nothing fails, every element has its
    image. -/
theorem forall₂_of_mapM {ε α β : Type} {f : α → Except ε β} {l : List α} {m : List β}
    (h : l.mapM f = .ok m) : List.Forall₂ (fun a b => f a = .ok b) l m := by
  induction l generalizing m with
  | nil =>
    cases h
    exact .nil
  | cons a rest ih =>
    rw [List.mapM_cons] at h
    cases ha : f a with
    | error e =>
      rw [ha] at h
      cases h
    | ok b =>
      cases hrest : rest.mapM f with
      | error e =>
        rw [ha, hrest] at h
        cases h
      | ok bs =>
        rw [ha, hrest] at h
        cases h
        exact .cons ha (ih hrest)

/-- Calls that all succeed answer one by one. -/
theorem Outcome.answer_of_all {α : Type} {outcomes : Array (Outcome α Unit)} {answers : Array α}
    (h : (Outcome.all outcomes).answer = .ok answers) {i : Nat} {o : Outcome α Unit}
    (ho : outcomes[i]? = some o) : ∃ a, answers[i]? = some a ∧ o.answer = .ok a := by
  have hmap : outcomes.mapM (fun o => o.answer) = .ok answers := h
  rw [Array.mapM_eq_mapM_toList] at hmap
  cases hlist : outcomes.toList.mapM (fun o => o.answer) with
  | error e =>
    rw [hlist] at hmap
    cases hmap
  | ok m =>
    rw [hlist] at hmap
    cases hmap
    have hall := forall₂_of_mapM hlist
    obtain ⟨hi, rfl⟩ := Array.getElem?_eq_some_iff.mp ho
    have hi' : i < m.length := by
      rw [← hall.length_eq]
      exact hi
    refine ⟨m[i], ?_, hall.get hi hi'⟩
    rw [List.getElem?_toArray]
    exact List.getElem?_eq_getElem hi'

section Reports

variable [Scalar F] [Elementary F]

/-- Whichever way the tape is evaluated at `x`, if the shapes are accepted the report is this
    one. -/
structure Tape.Reports (t : Tape F) (x : Array F) (report : Report F) : Prop where
  values : ∀ y, t.checkPoint x y = .ok () → (t.forwardValues x y).answer = .ok report
  along : ∀ policy d out, t.checkDirection x d out = .ok () →
    (t.forwardAlong policy x d out).answer = .ok report
  into : ∀ policy p xd out, t.checkDirections p x xd out = .ok () →
    (t.forwardInto policy p x xd out).answer = .ok report
  withScratch : ∀ policy p xd out s, t.checkDirections p x xd out = .ok () →
    (t.forwardWithScratch policy p x xd out s).answer = .ok report
  /-- Without independents the seeds have no rows to tell `p`, and it counts as zero. -/
  fresh : ∀ policy p xd, IsMatrix xd t.independents.size p → (t.independents.size = 0 → p = 0) →
    ∃ y yd, (t.forward policy x xd).answer = .ok { values := y, directions := yd, report }
  /-- Among many points, those that are `x`. -/
  parallel : ∀ policy points evaluations, (t.forwardAll policy points).answer = .ok evaluations →
    ∀ (i : Nat) xd, points[i]? = some (x, xd) →
      ∃ y yd, evaluations[i]? = some { values := y, directions := yd, report }
  byId : ∀ (shelf : Store F) name, shelf.tape name = .ok t →
    (∀ y, t.checkPoint x y = .ok () →
      (shelf.forwardValues name t.dependents.size t.independents.size x y).answer = .ok report) ∧
    (∀ d out, t.checkDirection x d out = .ok () →
      (shelf.forwardAlong name t.dependents.size t.independents.size x d out).answer =
        .ok report) ∧
    ∀ policy p xd out, t.checkDirections p x xd out = .ok () →
      (shelf.forward policy name t.dependents.size t.independents.size p x xd out).answer =
        .ok report

namespace Tape

variable {t : Tape F} {x : Array F}

/-- An evaluation that succeeds was accepted. -/
theorem fits_of_evaluate {α β : Type} {policy : BranchPolicy} {p : Nat} {seeds : Array (Array F)}
    {s : Scratch F} {fits : Except Error Unit} {buffers : β} {finish : Replayed F → α × β} {a : α}
    (h : (t.evaluate policy x p seeds s fits buffers finish).answer = .ok a) : fits = .ok () := by
  unfold evaluate at h
  cases fits with
  | error e => cases h
  | ok u => rfl

theorem report_of_forwardInto (ht : t.Replayable) {policy : BranchPolicy} {p : Nat}
    {xd : Array (Array F)} {out : Outputs F} {report : Report F}
    (h : (t.forwardInto policy p x xd out).answer = .ok report) : report = ⟨t.switchesAt x⟩ := by
  have hrun : (t.forwardWithScratch policy p x xd out {}).answer = .ok report := h
  unfold forwardWithScratch at hrun
  obtain ⟨hx, hy, hxd, hyd⟩ := checkDirections_eq_ok_iff.mp (fits_of_evaluate hrun)
  rw [(t.forwardInto_gives ht policy hx hxd hy hyd).1] at h
  exact (Except.ok.inj h).symm

theorem report_of_forward (ht : t.Replayable) {policy : BranchPolicy} {xd : Array (Array F)}
    {evaluation : Evaluation F} (h : (t.forward policy x xd).answer = .ok evaluation) :
    evaluation.report = ⟨t.switchesAt x⟩ := by
  unfold forward at h
  dsimp only at h
  generalize hinto : t.forwardInto policy _ x xd _ = o at h
  cases hanswer : o.answer with
  | error e =>
    rw [hanswer] at h
    cases h
  | ok report =>
    rw [hanswer] at h
    cases h
    rw [← hinto] at hanswer
    exact report_of_forwardInto ht hanswer

theorem Replayable.reports (ht : t.Replayable) (hx : x.size = t.independents.size) :
    t.Reports x ⟨t.switchesAt x⟩ := by
  have hvalues : ∀ y, t.checkPoint x y = .ok () →
      (t.forwardValues x y).answer = .ok ⟨t.switchesAt x⟩ := by
    intro y hfits
    obtain ⟨-, hy⟩ := check_bind_eq_ok_iff.mp hfits
    exact (t.forwardValues_gives ht hx (checkSize_eq_ok_iff.mp hy).symm).1
  have halong : ∀ policy d out, t.checkDirection x d out = .ok () →
      (t.forwardAlong policy x d out).answer = .ok ⟨t.switchesAt x⟩ := by
    intro policy d out hfits
    obtain ⟨-, hy, hd, hyd⟩ := checkDirection_eq_ok_iff.mp hfits
    exact (t.forwardAlong_gives ht policy hx hd hy hyd).1
  have hinto : ∀ policy p xd out, t.checkDirections p x xd out = .ok () →
      (t.forwardInto policy p x xd out).answer = .ok ⟨t.switchesAt x⟩ := by
    intro policy p xd out hfits
    obtain ⟨-, hy, hxd, hyd⟩ := checkDirections_eq_ok_iff.mp hfits
    exact (t.forwardInto_gives ht policy hx hxd hy hyd).1
  refine ⟨hvalues, halong, hinto, fun policy p xd out s hfits => ?_, fun policy p xd hxd hp => ?_,
    fun policy points evaluations h i xd hi => ?_, fun shelf name hname => ?_⟩
  · obtain ⟨-, hy, hxd, hyd⟩ := checkDirections_eq_ok_iff.mp hfits
    obtain ⟨s', hgives⟩ := t.forwardWithScratch_gives ht policy hx hxd hy hyd s
    exact hgives.1
  · exact ⟨_, _, (t.forward_gives ht policy hx hxd hp).1⟩
  · have hcall : (points.map fun q => t.forward policy q.1 q.2)[i]? =
        some (t.forward policy x xd) := by
      rw [Array.getElem?_map, hi]
      rfl
    obtain ⟨evaluation, hget, hanswer⟩ := Outcome.answer_of_all h hcall
    refine ⟨evaluation.values, evaluation.directions, ?_⟩
    rw [hget, ← report_of_forward ht hanswer]
  · unfold Store.forwardValues Store.forwardAlong Store.forward
    rw [Store.tapeOfSize_of_tape hname]
    exact ⟨hvalues, halong default, hinto⟩

end Tape

end Reports

/-! ## What one statement records in two runs -/

/-- The same entry, or, of an operation that has a kink, the same but for the branch. -/
inductive Entry.Twin : Entry F → Entry F → Prop
  | same {e : Entry F} (hop : ¬ (e.op = .abs ∨ e.op = .signum)) : Twin e e
  | branches {op : Opcode} {result loc : Location} (hop : op = .abs ∨ op = .signum)
      (b b' : Branch) :
      Twin ⟨op, result, .location loc, .unused, .branch b⟩
        ⟨op, result, .location loc, .unused, .branch b'⟩

theorem Entry.Alike.twin {e e' : Entry F} (h : e.Alike e') (hshape : e.Shaped) : e.Twin e' := by
  obtain ⟨op', result', lhs', rhs', aux'⟩ := e'
  obtain ⟨rfl, rfl, rfl, rfl, haux⟩ := h
  have hkink := hshape.fits.kind.1
  by_cases hop : e.op = .abs ∨ e.op = .signum
  · obtain ⟨b, hb⟩ := hkink.mpr hop
    -- only an entry of one operand, a location, has a branch
    cases hshape with
    | unary =>
      cases hb
      rcases haux with rfl | ⟨-, b', -, rfl⟩
      · exact .branches hop b b
      · exact .branches hop b b'
    | const | locations | literalRight | literalLeft => cases hb
  · rcases haux with rfl | ⟨b, -, hb, -⟩
    · exact .same hop
    · exact absurd (hkink.mp ⟨b, hb⟩) hop

theorem Entry.Twin.lhs {e e' : Entry F} (h : e.Twin e') : e.lhs = e'.lhs := by
  cases h with
  | same => rfl
  | branches => rfl

/-- Alike tapes that were recorded are twins, entry by entry. -/
theorem Tape.Alike.twins {t t' : Tape F} (h : t.Alike t') (hrec : t.Recorded) :
    List.Forall₂ Entry.Twin t.entries.toList t'.entries.toList := by
  have hshaped : ∀ e ∈ t.entries.toList, e.Shaped :=
    fun e he => hrec.shaped e (Array.mem_toList_iff.mp he)
  have hboth := (List.forall₂_and_left _ _).mpr ⟨hshaped, h.entries⟩
  exact hboth.imp fun e e' he => he.2.twin he.1

/-! ## The differences of two recordings -/

/-- The switch between two entries of one statement, where the second has the operand `a`. -/
def Entry.difference? (e e' : Entry F) (a : F) : Option (BranchSwitch F) :=
  match e.aux.branch?, e'.aux.branch? with
  | some b, some b' =>
    if b' = b then none
    else some { location := e.result, op := e.op, recorded := b, replayed := b', switchingValue := a }
  | _, _ => none

/-- The positions in which two recordings of one program differ, in tape order, with the operands
    that the second has recorded there. -/
def Tape.differences [Scalar F] (t t' : Tape F) : List (BranchSwitch F) :=
  (t.entries.toList.zip t'.entries.toList).filterMap fun (e, e') =>
    e.difference? e' (e'.lhs.read t'.recordedAt)

/-- Twins differ in the branch, or not at all. -/
theorem Entry.Twin.difference?_eq_none_iff {e e' : Entry F} (h : e.Twin e') (a : F) :
    e.difference? e' a = none ↔ e = e' := by
  cases h with
  | same hop =>
    unfold difference?
    cases e.aux.branch? with
    | none => exact ⟨fun _ => rfl, fun _ => rfl⟩
    | some b => exact ⟨fun _ => rfl, fun _ => if_pos rfl⟩
  | branches hop b b' =>
    show (if b' = b then none else some _) = none ↔ _
    by_cases hb : b' = b
    · subst hb
      exact ⟨fun _ => rfl, fun _ => if_pos rfl⟩
    · rw [if_neg hb]
      refine ⟨fun h => (nomatch h), fun h => ?_⟩
      cases h
      exact absurd rfl hb

/-- Without a difference the entries are the same. -/
theorem differences_eq_nil_iff {l l' : List (Entry F)} (h : List.Forall₂ Entry.Twin l l')
    (operand : Entry F → F) :
    (l.zip l').filterMap (fun (e, e') => e.difference? e' (operand e')) = [] ↔ l = l' := by
  induction h with
  | nil => exact ⟨fun _ => rfl, fun _ => rfl⟩
  | @cons e e' l l' h _ ih =>
    rw [List.zip_cons_cons, List.cons_eq_cons, ← ih, ← h.difference?_eq_none_iff (operand e'),
      List.filterMap_cons]
    dsimp only
    cases e.difference? e' (operand e') with
    | none => exact ⟨fun h => ⟨rfl, h⟩, fun h => h.2⟩
    | some b => exact ⟨fun h => (nomatch h), fun h => (nomatch h.1)⟩

variable [Scalar F]

/-- Where the second of two twins is on its branch, the first is a switch if they differ. -/
theorem Entry.Twin.switch?_eq {e e' : Entry F} (h : e.Twin e') {a : F}
    (ha : ∀ b, e'.aux.branch? = some b → b = Branch.of a) :
    e.switch? a = e.difference? e' a := by
  cases h with
  | same hop =>
    unfold switch? difference?
    cases hb : e.aux.branch? with
    | none => rfl
    | some b => rw [ha b hb]
  | branches hop b b' =>
    rw [ha b' rfl]
    rfl

/-- If all entries of the second list are on their branches, those of the first are switches where
    the two lists differ. -/
theorem switches_eq_differences {l l' : List (Entry F)} (h : List.Forall₂ Entry.Twin l l')
    {g : Location → F}
    (hl : ∀ e ∈ l', ∀ b, e.aux.branch? = some b → b = Branch.of (e.lhs.read g)) :
    l.filterMap (fun e => e.switch? (e.lhs.read g)) =
      (l.zip l').filterMap fun (e, e') => e.difference? e' (e'.lhs.read g) := by
  induction h with
  | nil => rfl
  | @cons e e' l l' h _ ih =>
    rw [List.forall_mem_cons] at hl
    have hhead : e.switch? (e.lhs.read g) = e.difference? e' (e'.lhs.read g) := by
      rw [h.lhs]
      exact h.switch?_eq hl.1
    rw [List.zip_cons_cons, List.filterMap_cons, List.filterMap_cons, hhead, ih hl.2]

variable [Elementary F]

/-- Alike entries are the same equations. -/
theorem solution_of_alike {l l' : List (Entry F)} (h : List.Forall₂ Entry.Alike l l')
    {g : Location → F} (hg : ∀ e ∈ l', g e.result = e.value g) :
    ∀ e ∈ l, g e.result = e.value g := by
  induction h with
  | nil => exact hg
  | cons h _ ih =>
    rw [List.forall_mem_cons] at hg ⊢
    refine ⟨?_, ih hg.2⟩
    rw [h.result, h.value]
    exact hg.1

namespace Tape.Alike

variable {t t' : Tape F}

/-- Evaluated at the recorded inputs of an alike tape, a tape reports what is different there. -/
theorem switchesAt (h : t.Alike t') (hrec : t.Recorded) (hfaithful : t.Faithful)
    (hfaithful' : t'.Faithful) :
    t.switchesAt (t'.independents.map t'.recordedAt) = (t.differences t').toArray := by
  have hsolution : t.Solution t'.recordedAt := fun e he =>
    solution_of_alike h.entries (fun e' he' => hfaithful'.computed e' (Array.mem_toList_iff.mp he'))
      e (Array.mem_toList_iff.mpr he)
  rw [← h.independents, (hfaithful.valuesAt_solution hrec hsolution).2]
  refine congrArg List.toArray (switches_eq_differences (h.twins hrec) fun e he => ?_)
  exact hfaithful'.branch e (Array.mem_toList_iff.mp he)

end Tape.Alike

/-! ## What a replay lists -/

/-- A replay lists its switches by increasing location. -/
theorem switchesFrom_increasing {entries : List (Entry F)} {v : Location → F}
    (h : entries.Pairwise fun e e' => e.result < e'.result) :
    (switchesFrom entries v).Pairwise fun b b' => b.location < b'.location := by
  induction entries generalizing v with
  | nil => exact .nil
  | cons e rest ih =>
    obtain ⟨hhead, htail⟩ := List.pairwise_cons.mp h
    rw [switchesFrom]
    refine List.pairwise_append.mpr ⟨?_, ih htail, fun b hb b' hb' => ?_⟩
    · cases e.switch? (e.lhs.read v) with
      | none => exact .nil
      | some b => exact List.pairwise_singleton _ b
    · rw [Entry.location_switch? (Option.mem_toList.mp hb)]
      obtain ⟨e', he', hloc⟩ := location_of_mem_switchesFrom hb'
      rw [hloc]
      exact hhead e' he'

/-- A switch is on the branch of its operand. -/
theorem replayed_of_mem_switchesFrom {entries : List (Entry F)} {v : Location → F}
    {b : BranchSwitch F} (hb : b ∈ switchesFrom entries v) :
    b.replayed = Branch.of b.switchingValue := by
  induction entries generalizing v with
  | nil => cases hb
  | cons e rest ih =>
    rw [switchesFrom, List.mem_append, Option.mem_toList] at hb
    rcases hb with hb | hb
    · obtain ⟨c, -, -, rfl⟩ := Entry.switch?_eq_some_iff.mp hb
      rfl
    · exact ih hb

/-! ## Kinks -/

section Kinks

variable {w : Width}

/-- A zero of either sign is on no side. -/
theorem Branch.of_zero {x : w.Number} (h : x = 0 ∨ x = -0) : Branch.of x = .zero := by
  obtain ⟨s, hs⟩ : ∃ s, w.unpack x = .zero s := by
    rcases h with rfl | rfl
    · exact ⟨_, w.unpack_zero⟩
    · exact ⟨_, w.unpack_neg_zero⟩
  have habove : ¬ 0 < x := by
    rw [Width.lt_iff, w.unpack_zero, hs]
    cases s <;> decide
  have hbelow : ¬ x < 0 := by
    rw [Width.lt_iff, w.unpack_zero, hs]
    cases s <;> decide
  exact (if_neg habove).trans (if_neg hbelow)

/-- A zero is a number. -/
theorem Width.isNaN_of_zero {x : w.Number} (h : x = 0 ∨ x = -0) : Scalar.isNaN x = false := by
  rw [Width.isNaN_eq]
  rcases h with rfl | rfl
  · rw [w.unpack_zero]
    rfl
  · rw [w.unpack_neg_zero]
    rfl

/-- The kinks are the switches whose operand is a zero.  So none of them is a NaN. -/
theorem Report.mem_kinks_iff {r : Report w.Number}
    (hr : ∀ b ∈ r.switches, b.replayed = Branch.of b.switchingValue) {b : BranchSwitch w.Number} :
    b ∈ r.kinks ↔ b ∈ r.switches ∧ (b.switchingValue = 0 ∨ b.switchingValue = -0) := by
  unfold kinks isKink
  rw [Array.mem_filter, Bool.and_eq_true, decide_eq_true_iff, Width.beq_zero_iff]
  constructor
  · rintro ⟨hb, -, hzero⟩
    exact ⟨hb, hzero⟩
  · rintro ⟨hb, hzero⟩
    exact ⟨hb, (hr b hb).trans (Branch.of_zero hzero), hzero⟩

end Kinks

/-! ## Two recordings -/

/-- Recorded at `x₀` and at `x₁`, a straight-line program has the same entries but for the branches
    of nonsmooth operations.  Evaluated at `x₁`, in whatever way, the tape of `x₀` reports exactly
    these differences: one switch for each, by increasing location, with both branches and the
    operand that was recorded at `x₁`.  So the report is consistent exactly if the entries are the
    same, and its kinks are the switches whose operand is a zero. -/
theorem switches_are_differences [∀ w : Width, Elementary w.Number] {w : Width}
    (P : Program w.Number 0) (hfit : P.locations Fin.elim0 ≤ Handle.reservedLocation.toNat)
    (x₀ x₁ : Fin P.inputs → w.Number) {r₀ r₁ : Recorder Width.Number} {i₀ i₁ : ThreadId}
    (h₀ : r₀.Idle w i₀) (h₁ : r₁.Idle w i₁) (store₀ store₁ : StoreName) (id₀ id₁ : TapeId) :
    ∃ stats₀ r₀' t₀ stats₁ r₁' t₁,
      (P.record store₀ id₀ x₀).exec i₀ r₀ = (.ok stats₀, r₀') ∧
      r₀'.sealed? w store₀ id₀ = some t₀ ∧
      (P.record store₁ id₁ x₁).exec i₁ r₁ = (.ok stats₁, r₁') ∧
      r₁'.sealed? w store₁ id₁ = some t₁ ∧
      t₀.independents.size = P.inputs ∧
      List.Forall₂ Entry.Twin t₀.entries.toList t₁.entries.toList ∧
      (∀ e ∈ t₁.entries, ∀ loc, e.lhs.location? = some loc →
        t₁.recordedValue? loc = some (t₁.recordedAt loc)) ∧
      ∃ report : Report w.Number,
        t₀.Reports (Array.ofFn x₁) report ∧
        report.switches.toList = t₀.differences t₁ ∧
        (report.switches.toList.Pairwise fun b b' => b.location < b'.location) ∧
        (report.isConsistent = true ↔ t₀.entries = t₁.entries) ∧
        ∀ b, (b ∈ report.kinks ↔
            b ∈ report.switches ∧ (b.switchingValue = 0 ∨ b.switchingValue = -0)) ∧
          (b ∈ report.kinks → Scalar.isNaN b.switchingValue = false) := by
  obtain ⟨r₀', hexec₀, hsealed₀⟩ := record_seals hfit h₀ store₀ id₀ x₀
  obtain ⟨r₁', hexec₁, hsealed₁⟩ := record_seals hfit h₁ store₁ id₁ x₁
  obtain ⟨hrec₀, hfaithful₀, -, hinputs₀⟩ := Program.tape_sound hfit id₀ r₀.nextSerial x₀
  obtain ⟨hrec₁, hfaithful₁, -, hinputs₁⟩ := Program.tape_sound hfit id₁ r₁.nextSerial x₁
  have halike := Program.tape_alike hfit id₀ id₁ r₀.nextSerial r₁.nextSerial x₀ x₁
  refine ⟨_, r₀', P.tape id₀ r₀.nextSerial x₀, _, r₁', P.tape id₁ r₁.nextSerial x₁, hexec₀,
    hsealed₀, hexec₁, hsealed₁, ?_⟩
  generalize P.tape id₀ r₀.nextSerial x₀ = t₀ at hrec₀ hfaithful₀ hinputs₀ halike ⊢
  generalize P.tape id₁ r₁.nextSerial x₁ = t₁ at hrec₁ hfaithful₁ hinputs₁ halike ⊢
  have hsize : t₀.independents.size = P.inputs := by
    rw [← Array.size_map (f := t₀.recordedAt), hinputs₀, Array.size_ofFn]
  have hx : (Array.ofFn x₁).size = t₀.independents.size := by rw [hsize, Array.size_ofFn]
  have htwins := halike.twins hrec₀
  have hdifferences : t₀.switchesAt (Array.ofFn x₁) = (t₀.differences t₁).toArray := by
    rw [← hinputs₁]
    exact halike.switchesAt hrec₀ hfaithful₀ hfaithful₁
  refine ⟨hsize, htwins, fun e he loc hloc => ?_, ⟨t₀.switchesAt (Array.ofFn x₁)⟩,
    hrec₀.toReplayable.reports hx, ?_, ?_, ?_, fun b => ?_⟩
  · refine Tape.recordedValue?_eq (Nat.lt_trans ?_ (hrec₁.result_lt e he))
    exact UInt32.lt_iff_toNat_lt.mp (hrec₁.lhs_below e he loc hloc)
  · rw [hdifferences]
  · exact switchesFrom_increasing hfaithful₀.results_increasing
  · unfold Report.isConsistent
    rw [hdifferences, Array.isEmpty_iff, ← Array.toList_inj, ← Array.toList_inj]
    exact differences_eq_nil_iff htwins fun e' => e'.lhs.read t₁.recordedAt
  · have hkinks := Report.mem_kinks_iff (r := ⟨t₀.switchesAt (Array.ofFn x₁)⟩) (b := b)
      fun b hb => replayed_of_mem_switchesFrom (List.mem_toArray.mp hb)
    exact ⟨hkinks, fun hb => Width.isNaN_of_zero (hkinks.mp hb).2⟩

/-- The sign of a magnitude, recorded at one and evaluated at minus zero, where both operations have
    their kink. -/
theorem switches_are_differences_of_chained_kinks :
    let P : Program (Width.Number .double) 0 :=
      .independent (.apply .abs (.handle 0) (.apply .signum (.handle 0) (.dependent 0 .done)))
    let x₀ : Fin P.inputs → Width.Number .double := fun _ => (1 : Float)
    let x₁ : Fin P.inputs → Width.Number .double := fun _ => (-0 : Float)
    ∃ (t₀ : Tape (Width.Number .double)) (stats₀ : TapeStats) (r₀ : Recorder Width.Number),
      (P.record "kink" 7 x₀).exec 0 {} = (.ok stats₀, r₀) ∧
      r₀.sealed? .double "kink" 7 = some t₀ ∧
      t₀.Reports (Array.ofFn x₁) ⟨#[⟨1, .abs, .positive, .zero, -0⟩,
        ⟨2, .signum, .positive, .zero, Float.abs (-0)⟩]⟩ := by
  intro P x₀ x₁
  have hidle : ({} : Recorder Width.Number).Idle .double 0 := ⟨rfl, rfl⟩
  have hfit : P.locations Fin.elim0 ≤ Handle.reservedLocation.toNat := by decide
  obtain ⟨stats₀, r₀, t₀, stats₁, r₁, t₁, hexec₀, hsealed₀, hexec₁, hsealed₁, -, -, -, report,
    hreports, hswitches, -⟩ :=
    switches_are_differences P hfit x₀ x₁ hidle hidle "kink" "kink" 7 7
  obtain ⟨r, hexec, hsealed⟩ := record_seals hfit hidle "kink" 7 x₀
  obtain ⟨r', hexec', hsealed'⟩ := record_seals hfit hidle "kink" 7 x₁
  have htape₀ : t₀ = P.tape 7 1 x₀ := by
    cases hexec₀.symm.trans hexec
    exact Option.some.inj (hsealed₀.symm.trans hsealed)
  have htape₁ : t₁ = P.tape 7 1 x₁ := by
    cases hexec₁.symm.trans hexec'
    exact Option.some.inj (hsealed₁.symm.trans hsealed')
  -- the branches of the two tapes
  have hentries₀ : t₀.entries = #[⟨.abs, 1, .location 0, .unused, .branch (.of (1 : Float))⟩,
      ⟨.signum, 2, .location 1, .unused, .branch (.of (Float.abs 1))⟩] := by
    rw [htape₀]
    rfl
  have hentries₁ : t₁.entries = #[⟨.abs, 1, .location 0, .unused, .branch (.of (-0 : Float))⟩,
      ⟨.signum, 2, .location 1, .unused, .branch (.of (Float.abs (-0)))⟩] := by
    rw [htape₁]
    rfl
  have habs₀ : Branch.of (1 : Float) = .positive := by decide +kernel
  have hsign₀ : Branch.of (Float.abs 1) = .positive := by decide +kernel
  have habs₁ : Branch.of (-0 : Float) = .zero := by decide +kernel
  have hsign₁ : Branch.of (Float.abs (-0)) = .zero := by decide +kernel
  rw [habs₀, hsign₀] at hentries₀
  rw [habs₁, hsign₁] at hentries₁
  have hreport : report = ⟨#[⟨1, .abs, .positive, .zero, -0⟩,
      ⟨2, .signum, .positive, .zero, Float.abs (-0)⟩]⟩ := by
    obtain ⟨switches⟩ := report
    refine congrArg Report.mk (Array.toList_inj.mp (hswitches.trans ?_))
    unfold Tape.differences
    rw [hentries₀, hentries₁, htape₁]
    rfl
  rw [hreport] at hreports
  exact ⟨t₀, stats₀, r₀, hexec₀, hsealed₀, hreports⟩

end DiffTape
