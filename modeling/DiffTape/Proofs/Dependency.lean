/-
  A DEPENDENT SEES ONLY WHAT LEADS TO IT.

  All locations of a replay share one array of values and one matrix of rows.  Still nothing leaks
  from one part of the tape into another: two evaluations whose inputs agree on the independents
  that lead to a dependent give it the same value and the same row, and list the same branch
  switches on the way to it.  What the rest of the tape computes plays no part, be it infinite, not
  a number or on a kink, and neither does what the buffers held before.

  Nothing is assumed of the arithmetic, so equality is that of the very numbers.

  1. `Tape.Reaches`      — a location leads to another through the operands of the entries.
  2. `ReadsWithin`       — a set of locations that is closed backwards: what is written into it is
                           computed from it.  The locations that lead to a dependent are such a set.
  3. `pass_eqOn`         — two passes that start alike on such a set stay alike on it.  An entry
                           outside of it may differ in every respect.
  4. `filter_switchesFrom` — the same for the branch switches.
-/
import DiffTape.Proofs.Drivers
import DiffTape.Proofs.Representation
import Mathlib.Data.Set.Function
import Mathlib.Logic.Relation

namespace DiffTape

variable {F α : Type}

/-! ## Operand edges -/

/-- The entry has the location in one of its slots. -/
def Entry.Reads (e : Entry F) (loc : Location) : Prop :=
  e.lhs.location? = some loc ∨ e.rhs.location? = some loc

/-- Some entry reads `a` and writes `b`. -/
def Tape.Edge (t : Tape F) (a b : Location) : Prop := ∃ e ∈ t.entries, e.Reads a ∧ e.result = b

/-- `b` can be reached from `a` through operand edges. -/
def Tape.Reaches (t : Tape F) : Location → Location → Prop := Relation.ReflTransGen t.Edge

/-- The entries that write into the set read from nowhere else. -/
def ReadsWithin (S : Set Location) (entries : List (Entry F)) : Prop :=
  ∀ e ∈ entries, e.result ∈ S → ∀ loc, e.Reads loc → loc ∈ S

/-- The locations that lead to `target` are closed backwards. -/
theorem Tape.readsWithin_reaches (t : Tape F) (target : Location) :
    ReadsWithin {loc | t.Reaches loc target} t.entries.toList := by
  intro e he hres loc hloc
  have hedge : t.Edge loc e.result := ⟨e, Array.mem_toList_iff.mp he, hloc, rfl⟩
  exact .head hedge hres

/-- They are the least such set: what is closed backwards and has the target has them all. -/
theorem Tape.mem_of_reaches {t : Tape F} {S : Set Location} (hS : ReadsWithin S t.entries.toList)
    {loc target : Location} (hreach : t.Reaches loc target) (htarget : target ∈ S) : loc ∈ S := by
  induction hreach using Relation.ReflTransGen.head_induction_on with
  | refl => exact htarget
  | head hedge _ ih =>
    obtain ⟨e, he, hreads, rfl⟩ := hedge
    exact hS e (Array.mem_toList_iff.mpr he) ih _ hreads

/-! ## Two passes -/

section Passes

variable {S : Set Location} {env env' : Location → α}

/-- Two writes at one location keep the agreement on `S`.  Outside of `S` they may differ. -/
theorem update_eqOn (h : Set.EqOn env env' S) {r : Location} {a b : α} (hab : r ∈ S → a = b) :
    Set.EqOn (Function.update env r a) (Function.update env' r b) S := by
  intro loc hloc
  by_cases hr : loc = r
  · subst hr
    rw [Function.update_self, Function.update_self]
    exact hab hloc
  · rw [Function.update_of_ne hr, Function.update_of_ne hr]
    exact h hloc

theorem placeAll_eqOn {f g : Nat → α} {l : List (Location × Nat)}
    (hl : ∀ y ∈ l, y.1 ∈ S → f y.2 = g y.2) (h : Set.EqOn env env' S) :
    Set.EqOn (placeAll f l env) (placeAll g l env') S := by
  induction l generalizing env env' with
  | nil => exact h
  | cons y rest ih =>
    obtain ⟨hfirst, hrest⟩ := List.forall_mem_cons.mp hl
    exact ih hrest (update_eqOn h hfirst)

/-- Placings that agree at the independents in `S` agree on `S`. -/
theorem Tape.place_eqOn (t : Tape F) (blank : α) {f g : Nat → α}
    (h : ∀ j, (hj : j < t.independents.size) → t.independents[j] ∈ S → f j = g j) :
    Set.EqOn (t.place blank f) (t.place blank g) S := by
  refine placeAll_eqOn ?_ fun _ _ => rfl
  rintro ⟨loc, j⟩ hy hloc
  obtain ⟨-, hj, heq⟩ := List.mem_zipIdx hy
  have hj' : j < t.independents.size := by simpa using hj
  have hlisted : t.independents[j] = loc := by simpa using heq.symm
  exact h j hj' (hlisted ▸ hloc)

/-- What an entry computes depends on the locations that it reads only. -/
def Local (f : Entry F → (Location → α) → α) : Prop :=
  ∀ (e : Entry F) (env env' : Location → α), (∀ loc, e.Reads loc → env loc = env' loc) →
    f e env = f e env'

/-- The induction over the entries: passes that start alike on `S` end alike on `S`. -/
theorem pass_eqOn {f : Entry F → (Location → α) → α} (hf : Local f) {entries : List (Entry F)}
    (hS : ReadsWithin S entries) (h : Set.EqOn env env' S) :
    Set.EqOn (pass f entries env) (pass f entries env') S := by
  induction entries generalizing env env' with
  | nil => exact h
  | cons e rest ih =>
    obtain ⟨hfirst, hrest⟩ := List.forall_mem_cons.mp hS
    have hwrite : e.result ∈ S → f e env = f e env' :=
      fun hres => hf e env env' fun loc hloc => h (hfirst hres loc hloc)
    exact ih hrest (update_eqOn h hwrite)

end Passes

/-! ## The passes of a replay -/

section Scalar

variable [Scalar F] [Elementary F]

theorem local_value : Local (Entry.value (F := F)) := by
  intro e v v' h
  have hl : e.lhs.read v = e.lhs.read v' := Operand.denote_congr fun loc hloc => h loc (Or.inl hloc)
  have hr : e.rhs.read v = e.rhs.read v' := Operand.denote_congr fun loc hloc => h loc (Or.inr hloc)
  unfold Entry.value
  rw [hl, hr]

omit [Scalar F] [Elementary F] in
/-- The row of an operand is that of the location it refers to. -/
theorem Operand.rowOf_congr {env env' : Location → Cell F} {o : Operand F}
    (h : ∀ loc, o.location? = some loc → env loc = env' loc) : o.rowOf env = o.rowOf env' := by
  cases o with
  | location loc => exact congrArg (fun c => some (Cell.row c)) (h loc rfl)
  | literal c => rfl
  | unused => rfl

theorem local_cell (policy : BranchPolicy) (p : Nat) : Local (Entry.cell (F := F) policy p) := by
  intro e env env' h
  have hl : e.lhs.read (Cell.value ∘ env) = e.lhs.read (Cell.value ∘ env') :=
    Operand.denote_congr fun loc hloc => congrArg Cell.value (h loc (Or.inl hloc))
  have hr : e.rhs.read (Cell.value ∘ env) = e.rhs.read (Cell.value ∘ env') :=
    Operand.denote_congr fun loc hloc => congrArg Cell.value (h loc (Or.inr hloc))
  have hrowl : e.lhs.rowOf env = e.lhs.rowOf env' :=
    Operand.rowOf_congr fun loc hloc => h loc (Or.inl hloc)
  have hrowr : e.rhs.rowOf env = e.rhs.rowOf env' :=
    Operand.rowOf_congr fun loc hloc => h loc (Or.inr hloc)
  simp only [Entry.cell, Entry.value, hl, hr, hrowl, hrowr]

open Classical in
/-- The branches that were left at the locations of `S` are the same. -/
theorem filter_switchesFrom {S : Set Location} {entries : List (Entry F)} {v v' : Location → F}
    (hS : ReadsWithin S entries) (h : Set.EqOn v v' S) :
    (switchesFrom entries v).filter (·.location ∈ S) =
      (switchesFrom entries v').filter (·.location ∈ S) := by
  induction entries generalizing v v' with
  | nil => rfl
  | cons e rest ih =>
    obtain ⟨hfirst, hrest⟩ := List.forall_mem_cons.mp hS
    have hwrite : e.result ∈ S → e.value v = e.value v' :=
      fun hres => local_value e v v' fun loc hloc => h (hfirst hres loc hloc)
    have hswitch : (e.switch? (e.lhs.read v)).toList.filter (·.location ∈ S) =
        (e.switch? (e.lhs.read v')).toList.filter (·.location ∈ S) := by
      by_cases hres : e.result ∈ S
      · have hl : e.lhs.read v = e.lhs.read v' :=
          Operand.denote_congr fun loc hloc => h (hfirst hres loc (Or.inl hloc))
        rw [hl]
      · -- a switch of this entry is at its result, and that is left out in both
        have hout : ∀ a, (e.switch? a).toList.filter (·.location ∈ S) = [] := by
          intro a
          refine List.filter_eq_nil_iff.mpr fun b hb => ?_
          have hloc : b.location = e.result := Entry.location_switch? (Option.mem_toList.mp hb)
          rw [hloc, decide_eq_true_iff]
          exact hres
        rw [hout, hout]
    rw [switchesFrom, switchesFrom, List.filter_append, List.filter_append, hswitch,
      ih hrest (update_eqOn h hwrite)]

namespace Tape

variable {t : Tape F} {policy : BranchPolicy} {p : Nat} {x x' : Array F}
  {seeds seeds' : Array (Array F)} {target : Location}

/-- The arguments agree at the independents that lead to `target`. -/
def AgreeTowards (t : Tape F) (target : Location) (x x' : Array F)
    (seeds seeds' : Array (Array F)) : Prop :=
  ∀ j, (hj : j < t.independents.size) → t.Reaches t.independents[j] target →
    x[j]? = x'[j]? ∧ seeds[j]? = seeds'[j]?

omit [Elementary F] in
/-- The values before the first entry that lead to `target` are the same. -/
theorem startValues_eqOn (h : t.AgreeTowards target x x' seeds seeds') :
    Set.EqOn (t.startValues x) (t.startValues x') {loc | t.Reaches loc target} :=
  t.place_eqOn 0 fun j hj hreach => by rw [(h j hj hreach).1]

/-- So are those after the last entry. -/
theorem valuesAt_eqOn (h : t.AgreeTowards target x x' seeds seeds') :
    Set.EqOn (t.valuesAt x) (t.valuesAt x') {loc | t.Reaches loc target} :=
  pass_eqOn local_value (t.readsWithin_reaches target) (startValues_eqOn h)

/-- So are the cells, with their rows. -/
theorem cells_eqOn (policy : BranchPolicy) (p : Nat)
    (h : t.AgreeTowards target x x' seeds seeds') :
    Set.EqOn (t.cells policy x p seeds) (t.cells policy x' p seeds')
      {loc | t.Reaches loc target} := by
  refine pass_eqOn (local_cell policy p) (t.readsWithin_reaches target) ?_
  refine t.place_eqOn _ fun j hj hreach => ?_
  rw [(h j hj hreach).1, (h j hj hreach).2]

open Classical in
/-- And so are the branches that were left on the way. -/
theorem filter_switchesAt (h : t.AgreeTowards target x x' seeds seeds') :
    (t.switchesAt x).filter (fun b => t.Reaches b.location target) =
      (t.switchesAt x').filter (fun b => t.Reaches b.location target) := by
  unfold switchesAt
  rw [List.filter_toArray, List.filter_toArray]
  exact congrArg List.toArray
    (filter_switchesFrom (t.readsWithin_reaches target) (startValues_eqOn h))

/-- A well made tape can be swept. -/
theorem WellMade.replayable (h : t.WellMade) : t.Replayable := by
  have hlt : ∀ loc ∈ t.independents.toList ++ t.entries.toList.map (·.result),
      loc.toNat < t.values.size := by
    intro loc hloc
    obtain ⟨k, hk, rfl⟩ := List.mem_map.mp (h.locations.mem_iff.mp hloc)
    rw [Nat.toUInt32_eq, UInt32.toNat_ofNat']
    exact Nat.lt_of_le_of_lt (Nat.mod_le _ _) (List.mem_range.mp hk)
  refine ⟨fun loc hloc => hlt loc ?_, h.dependents, fun e he => hlt e.result ?_,
    fun e he => (h.entries e he).lhs_below, fun e he => (h.entries e he).rhs_below⟩
  · exact List.mem_append_left _ (Array.mem_toList_iff.mpr hloc)
  · exact List.mem_append_right _ (List.mem_map_of_mem (Array.mem_toList_iff.mpr he))

end Tape

/-! ## The evaluator -/

open Classical in
/-- Two evaluations of a well made tape, in any number of directions and with any buffers.  If the
    arguments agree at the independents that lead to the `i`-th dependent, its value and its row
    are the same, and so are the branch switches on the way to it. -/
theorem evaluation_without_leakage {t : Tape F} (ht : t.WellMade) (policy : BranchPolicy) {p : Nat}
    {x x' : Array F} {xd xd' : Array (Array F)} {out out' : Outputs F}
    (hfits : t.checkDirections p x xd out = .ok ())
    (hfits' : t.checkDirections p x' xd' out' = .ok ()) (s s' : Scratch F) {i : Nat}
    (hi : i < t.dependents.size) (hagree : t.AgreeTowards t.dependents[i] x x' xd xd') :
    ∃ report report' : Report F, ∃ result result' : Outputs F, ∃ left left' : Scratch F,
      (t.forwardWithScratch policy p x xd out s).Gives report (result, left) ∧
      (t.forwardWithScratch policy p x' xd' out' s').Gives report' (result', left') ∧
      (∃ v, result.y[i]? = some v ∧ result'.y[i]? = some v) ∧
      (∃ row, row.size = p ∧ result.yd[i]? = some row ∧ result'.yd[i]? = some row) ∧
      report.switches.filter (fun b => t.Reaches b.location t.dependents[i]) =
        report'.switches.filter (fun b => t.Reaches b.location t.dependents[i]) := by
  have hrep := ht.replayable
  obtain ⟨hx, hy, hxd, hyd⟩ := Tape.checkDirections_eq_ok_iff.mp hfits
  obtain ⟨hx', hy', hxd', hyd'⟩ := Tape.checkDirections_eq_ok_iff.mp hfits'
  obtain ⟨left, hgives⟩ := t.forwardWithScratch_gives hrep policy hx hxd hy hyd s
  obtain ⟨left', hgives'⟩ := t.forwardWithScratch_gives hrep policy hx' hxd' hy' hyd' s'
  have hself : t.dependents[i] ∈ {loc | t.Reaches loc t.dependents[i]} := Relation.ReflTransGen.refl
  have hsize : ∀ row ∈ t.rowsAt policy x p xd, row.size = p :=
    (t.isMatrix_rowsAt hrep policy hx hxd).2
  refine ⟨_, _, _, _, left, left', hgives, hgives', ⟨t.valuesAt x t.dependents[i], ?_, ?_⟩,
    ⟨(t.cells policy x p xd t.dependents[i]).row, ?_, ?_, ?_⟩, Tape.filter_switchesAt hagree⟩
  · show (t.dependents.map _)[i]? = _
    rw [Array.getElem?_map, Array.getElem?_eq_getElem hi, Option.map_some]
  · show (t.dependents.map _)[i]? = _
    rw [Array.getElem?_map, Array.getElem?_eq_getElem hi, Option.map_some,
      Tape.valuesAt_eqOn hagree hself]
  · exact hsize _ (Array.mem_map.mpr ⟨_, Array.getElem_mem hi, rfl⟩)
  · show (t.dependents.map _)[i]? = _
    rw [Array.getElem?_map, Array.getElem?_eq_getElem hi, Option.map_some]
  · show (t.dependents.map _)[i]? = _
    rw [Array.getElem?_map, Array.getElem?_eq_getElem hi, Option.map_some,
      Tape.cells_eqOn policy p hagree hself]

end Scalar

/-- The product of an independent with itself, beside the magnitude of one that is on its kink in
    one evaluation and not a number in the other. -/
theorem evaluation_without_leakage_beside_nan :
    ∃ (t : Tape Float) (report report' : Report Float) (result result' : Outputs Float)
      (left left' : Scratch Float),
      t.WellMade ∧ t.dependents = #[2, 3] ∧ ¬ t.Reaches 1 3 ∧
      (t.forwardWithScratch .replay 1 #[3, 0] #[#[1], #[-1]] ⟨#[0, 0], #[#[0], #[0]]⟩ {}).Gives
        report (result, left) ∧
      (t.forwardWithScratch .replay 1 #[3, 0 / 0] #[#[1], #[1 / 0]] ⟨#[1, 2], #[#[3], #[4]]⟩
        ⟨7, #[5], #[6]⟩).Gives report' (result', left') ∧
      (∃ v, result.y[1]? = some v ∧ result'.y[1]? = some v) ∧
      ∃ row, row.size = 1 ∧ result.yd[1]? = some row ∧ result'.yd[1]? = some row := by
  let magnitude : Entry Float := ⟨.abs, 2, .location 1, .unused, .branch (.of (-1 : Float))⟩
  let square : Entry Float := ⟨.mul, 3, .location 0, .location 0, .none⟩
  let t : Tape Float := ⟨3, 1, #[magnitude, square], #[3, -1, Float.abs (-1), 3 * 3], #[0, 1],
    #[2, 3]⟩
  have hentry : ∀ e ∈ t.entries, e = magnitude ∨ e = square := fun e he =>
    List.mem_pair.mp (Array.mem_toList_iff.mpr he)
  have hbelow : ∀ {a r : Location}, a < r → (Operand.location a : Operand Float).Below r :=
    fun hlt loc hloc => Option.some_inj.mp hloc ▸ hlt
  have ht : t.WellMade := by
    refine ⟨.refl _, by decide, by decide, fun e he => ?_, fun loc hloc => ?_, fun e he => ?_⟩
    · rcases hentry e he with rfl | rfl
      · have haux : Aux.Fits .abs (.branch (.of (-1 : Float))) := ⟨_, rfl⟩
        exact (Entry.Shaped.unary rfl (by decide) haux).wellMade (hbelow (by decide))
          (Operand.below_unused 2)
      · exact (Entry.Shaped.locations rfl).wellMade (hbelow (by decide)) (hbelow (by decide))
    · rcases List.mem_pair.mp (Array.mem_toList_iff.mpr hloc) with rfl | rfl
      · decide
      · decide
    · rcases hentry e he with rfl | rfl
      · rfl
      · rfl
  -- the square and its operand are closed backwards, and the other independent is not among them
  have hclosed : ReadsWithin {0, 3} t.entries.toList := by
    rintro e he hres loc hloc
    rcases hentry e (Array.mem_toList_iff.mp he) with rfl | rfl
    · simp [magnitude] at hres
    · rcases hloc with hloc | hloc
      · exact Or.inl (Option.some_inj.mp hloc).symm
      · exact Or.inl (Option.some_inj.mp hloc).symm
  have hapart : ¬ t.Reaches 1 3 := by
    intro hreach
    have hmem : (1 : Location) ∈ ({0, 3} : Set Location) :=
      Tape.mem_of_reaches hclosed hreach (Or.inr rfl)
    simp at hmem
  have hfits : t.checkDirections 1 #[3, 0] #[#[1], #[-1]] ⟨#[0, 0], #[#[0], #[0]]⟩ = .ok () := rfl
  have hfits' : t.checkDirections 1 #[3, 0 / 0] #[#[1], #[1 / 0]] ⟨#[1, 2], #[#[3], #[4]]⟩ =
    .ok () := rfl
  have hagree : t.AgreeTowards 3 #[3, 0] #[3, 0 / 0] #[#[1], #[-1]] #[#[1], #[1 / 0]] := by
    intro j hj hreach
    match j, hj with
    | 0, _ => exact ⟨rfl, rfl⟩
    | 1, _ => exact absurd hreach hapart
  have hi : 1 < t.dependents.size := by decide
  obtain ⟨report, report', result, result', left, left', hleft, hright, hy, hyd, -⟩ :=
    evaluation_without_leakage ht .replay hfits hfits' {} ⟨7, #[5], #[6]⟩ hi hagree
  exact ⟨t, report, report', result, result', left, left', ht, rfl, hapart, hleft, hright, hy, hyd⟩

end DiffTape
