/-
  MOVING A RECORDING TO OTHER LOCATIONS.

  Run a routine on a fresh tape, and run it where something is recorded already, on handles of the
  same values.  The entries are the same, at other locations.  A `Relocation` says which: the
  locations that the run hands out move as one block, and whatever its first handles referred to
  may be anywhere, and even coincide.

  There are two inductions in this file.

  * `Trace.Moved.trace` is over the routine: each call keeps one recording the moved image of the
    other.  The handles of the two runs have the same values and moved operands, so the runs fold
    the same constants and find the same exponents and branches.
  * `pass_rename` is over the entries: a pass over renamed entries, seen through the renaming, is
    the pass over the entries.  All that this needs is that no location but the result of an entry
    is called what this result is called (`ResultsApart`).
-/
import DiffTape.Proofs.Routine

namespace DiffTape

variable {F α : Type} {k n m : Nat}

/-! ## Other names for the locations

  An entry is read and evaluated through what its operands refer to.  Nothing that it computes
  depends on how a location is called, so with other names it does the same where these are looked
  up. -/

/-- The operand, where `ρ` says what the locations are called. -/
def Operand.rename (ρ : Location → Location) : Operand F → Operand F
  | .location loc => .location (ρ loc)
  | .literal c => .literal c
  | .unused => .unused

/-- The entry with its result and its operands renamed. -/
def Entry.rename (ρ : Location → Location) (e : Entry F) : Entry F :=
  { e with result := ρ e.result, lhs := e.lhs.rename ρ, rhs := e.rhs.rename ρ }

/-- The branch switch with its location renamed. -/
def BranchSwitch.rename (ρ : Location → Location) (s : BranchSwitch F) : BranchSwitch F :=
  { s with location := ρ s.location }

section Rename

variable {ρ : Location → Location}

@[simp] theorem Operand.rename_id (o : Operand F) : o.rename id = o := by
  cases o <;> rfl

@[simp] theorem Entry.rename_id (e : Entry F) : e.rename id = e := by
  simp [Entry.rename]

/-- A renamed operand reads the cells under their other names. -/
theorem Operand.denote_rename (literal : F → α) (blank : α) (env : Location → α) (o : Operand F) :
    (o.rename ρ).denote literal blank env = o.denote literal blank (env ∘ ρ) := by
  cases o <;> rfl

/-- The same of the row of an operand: literals and empty slots have none under any names. -/
theorem Operand.rowOf_rename (env : Location → Cell F) (o : Operand F) :
    (o.rename ρ).rowOf env = o.rowOf (env ∘ ρ) := by
  cases o <;> rfl

variable [Scalar F] [Elementary F]

/-- The value of an entry depends on what its operands read, and not on their names. -/
theorem Entry.value_rename (e : Entry F) (v : Location → F) :
    (e.rename ρ).value v = e.value (v ∘ ρ) := by
  simp only [Entry.value, Entry.rename, Operand.denote_rename]

theorem Entry.cell_rename (policy : BranchPolicy) (p : Nat) (e : Entry F)
    (env : Location → Cell F) : (e.rename ρ).cell policy p env = e.cell policy p (env ∘ ρ) := by
  have hrow : ∀ a b rowA rowB, (e.rename ρ).rowFrom policy p a b rowA rowB =
      e.rowFrom policy p a b rowA rowB := fun _ _ _ _ => rfl
  simp only [Entry.cell, Entry.value_rename, hrow]
  simp only [Entry.rename, Operand.denote_rename, Operand.rowOf_rename]
  rfl

omit [Elementary F] in
/-- A branch that is left is reported under the new name of the result. -/
theorem Entry.switch?_rename (e : Entry F) (a : F) :
    (e.rename ρ).switch? a = (e.switch? a).map (BranchSwitch.rename ρ) := by
  have haux : (e.rename ρ).aux = e.aux := rfl
  unfold Entry.switch?
  rw [haux]
  cases e.aux.branch? with
  | none => rfl
  | some b =>
    by_cases h : Branch.of a = b
    · simp [h]
    · simp [h, BranchSwitch.rename, Entry.rename]

end Rename

/-! ## A pass over renamed entries

  Here names matter, since a pass writes.  What is written for a result must not be read by an
  operand that meant something else, and it must be read by those that meant it: `ResultsApart`.
  That two locations that are only read have one name does no harm. -/

section Pass

variable {ρ : Location → Location} {entries : List (Entry F)}

/-- No location but the result of an entry is called what this result is called. -/
def ResultsApart (ρ : Location → Location) (entries : List (Entry F)) : Prop :=
  ∀ e ∈ entries, ∀ loc, ρ loc = ρ e.result → loc = e.result

/-- The step of a pass through the renaming: what is written under the new name of `r` is read as
    `r`, and as nothing else. -/
theorem update_comp_of_apart {r : Location} (h : ∀ loc, ρ loc = ρ r → loc = r)
    (env : Location → α) (a : α) :
    Function.update env (ρ r) a ∘ ρ = Function.update (env ∘ ρ) r a := by
  funext loc
  by_cases hloc : loc = r
  · subst hloc
    rw [Function.comp_apply, Function.update_self, Function.update_self]
  · have hne : ρ loc ≠ ρ r := fun heq => hloc (h loc heq)
    rw [Function.comp_apply, Function.update_of_ne hne, Function.update_of_ne hloc]
    rfl

/-- A pass over renamed entries, seen through the renaming, is the pass over the entries. -/
theorem pass_rename {f : Entry F → (Location → α) → α}
    (hf : ∀ e env, f (e.rename ρ) env = f e (env ∘ ρ)) (h : ResultsApart ρ entries)
    (env : Location → α) :
    pass f (entries.map (Entry.rename ρ)) env ∘ ρ = pass f entries (env ∘ ρ) := by
  induction entries generalizing env with
  | nil => rfl
  | cons e rest ih =>
    obtain ⟨hfirst, hrest⟩ := List.forall_mem_cons.mp h
    -- the environment after the first entry, seen through the renaming
    have hupdate := update_comp_of_apart hfirst env (f (e.rename ρ) env)
    rw [List.map_cons, pass, ih hrest, pass]
    show pass f rest (Function.update env (ρ e.result) _ ∘ ρ) = _
    rw [hupdate, hf]

variable [Scalar F] [Elementary F]

/-- So the same branches are left, at the renamed locations. -/
theorem switchesFrom_rename (h : ResultsApart ρ entries) (v : Location → F) :
    switchesFrom (entries.map (Entry.rename ρ)) v =
      (switchesFrom entries (v ∘ ρ)).map (BranchSwitch.rename ρ) := by
  induction entries generalizing v with
  | nil => rfl
  | cons e rest ih =>
    obtain ⟨hfirst, hrest⟩ := List.forall_mem_cons.mp h
    have hupdate := update_comp_of_apart hfirst v ((e.rename ρ).value v)
    have hread : (e.rename ρ).lhs.read v = e.lhs.read (v ∘ ρ) := e.lhs.denote_rename id 0 v
    rw [List.map_cons, switchesFrom, ih hrest, switchesFrom, hread, e.switch?_rename,
      List.map_append]
    show _ ++ (switchesFrom rest (Function.update v (ρ e.result) _ ∘ ρ)).map _ = _
    rw [hupdate, e.value_rename, Option.toList_map]

end Pass

/-! ## Moved recordings

  The renaming of a composition is not injective.  The inputs of the second routine are what the
  first one answered, in whatever order, and one answer may be used twice.  But what the second
  routine records itself moves as a block, and this is all that the induction over it needs. -/

/-- A renaming under which the locations from `start` up to `stop` go, in their order, to those from
    `target` on.  None of them is the reserved one, before or after. -/
structure Relocation where
  map : Location → Location
  start : Nat
  stop : Nat
  target : Nat
  shift : ∀ i, start ≤ i → i < stop → map i.toUInt32 = (i - start + target).toUInt32
  stop_le : stop ≤ Handle.reservedLocation.toNat
  target_le : stop - start + target ≤ Handle.reservedLocation.toNat

/-- All stays where it is. -/
def Relocation.stay (stop : Nat) (h : stop ≤ Handle.reservedLocation.toNat) : Relocation where
  map := id
  start := 0
  stop := stop
  target := 0
  shift := fun _ _ _ => rfl
  stop_le := h
  target_le := h

/-- The first `k` locations go to `outs`, the others up to `stop` go to those from `target` on, and
    those that no tape has are out of the way. -/
def Relocation.onto (outs : Fin k → Location) (stop target : Nat)
    (hstop : stop ≤ Handle.reservedLocation.toNat)
    (htarget : stop - k + target ≤ Handle.reservedLocation.toNat) : Relocation where
  map loc :=
    if h : loc.toNat < k then outs ⟨loc.toNat, h⟩
    else if loc.toNat < stop then (loc.toNat - k + target).toUInt32
    else Handle.reservedLocation
  start := k
  stop := stop
  target := target
  shift := by
    intro i hi hi'
    have hlt : i < UInt32.size := Nat.lt_trans (Nat.lt_of_lt_of_le hi' hstop) Tape.reserved_lt
    have hnat : i.toUInt32.toNat = i := UInt32.toNat_ofNat_of_lt' hlt
    rw [hnat, dif_neg (Nat.not_lt_of_le hi), if_pos hi']
  stop_le := hstop
  target_le := htarget

section Onto

variable {outs : Fin k → Location} {stop target : Nat}
  {hstop : stop ≤ Handle.reservedLocation.toNat}
  {htarget : stop - k + target ≤ Handle.reservedLocation.toNat} {loc : Location}

/-- An input of the second routine is called what the first one answered for it. -/
theorem Relocation.onto_outs (hk : k < UInt32.size) (j : Fin k) :
    (onto outs stop target hstop htarget).map j.val.toUInt32 = outs j := by
  have hnat : j.val.toUInt32.toNat = j := UInt32.toNat_ofNat_of_lt' (Nat.lt_trans j.isLt hk)
  have hlt : j.val.toUInt32.toNat < k := by
    rw [hnat]
    exact j.isLt
  show dite _ _ _ = _
  rw [dif_pos hlt]
  exact congrArg outs (Fin.ext hnat)

/-- What the second routine records moves as a block. -/
theorem Relocation.onto_block (h : k ≤ loc.toNat) (h' : loc.toNat < stop) :
    (onto outs stop target hstop htarget).map loc = (loc.toNat - k + target).toUInt32 := by
  show dite _ _ _ = _
  rw [dif_neg (Nat.not_lt_of_le h), if_pos h']

/-- The block ends below the reserved location, so no place in it is cut to a word. -/
theorem Relocation.toNat_onto_block (h : k ≤ loc.toNat) (h' : loc.toNat < stop) :
    ((onto outs stop target hstop htarget).map loc).toNat = loc.toNat - k + target := by
  have hlt : loc.toNat - k + target < UInt32.size := by
    have hres := Tape.reserved_lt
    omega
  rw [onto_block h h']
  exact UInt32.toNat_ofNat_of_lt' hlt

/-- Locations beyond the tape have one name, which no entry has. -/
theorem Relocation.onto_rest (h : k ≤ loc.toNat) (h' : stop ≤ loc.toNat) :
    (onto outs stop target hstop htarget).map loc = Handle.reservedLocation := by
  show dite _ _ _ = _
  rw [dif_neg (Nat.not_lt_of_le h), if_neg (Nat.not_lt_of_le h')]

/-- What does not go to `outs` goes to `target` or above. -/
theorem Relocation.le_onto (h : k ≤ loc.toNat) :
    target ≤ ((onto outs stop target hstop htarget).map loc).toNat := by
  by_cases h' : loc.toNat < stop
  · rw [toNat_onto_block h h']
    omega
  · rw [onto_rest h (Nat.le_of_not_lt h')]
    omega

/-- While `outs` is below `target`, each location of the block has a name of its own. -/
theorem Relocation.onto_apart (houts : ∀ j, (outs j).toNat < target) {r : Location}
    (hr : k ≤ r.toNat) (hr' : r.toNat < stop)
    (h : (onto outs stop target hstop htarget).map loc =
      (onto outs stop target hstop htarget).map r) : loc = r := by
  have hnat := congrArg UInt32.toNat h
  rw [toNat_onto_block hr hr'] at hnat
  -- `r` is at `target` or above: the outs are below that, and the reserved location is beyond
  by_cases hloc : loc.toNat < k
  · have hout : (onto outs stop target hstop htarget).map loc = outs ⟨loc.toNat, hloc⟩ :=
      dif_pos hloc
    have hlt := houts ⟨loc.toNat, hloc⟩
    rw [hout] at hnat
    omega
  · have hle := Nat.le_of_not_lt hloc
    by_cases hlt : loc.toNat < stop
    · rw [toNat_onto_block hle hlt] at hnat
      rw [← UInt32.toNat_inj]
      omega
    · rw [onto_rest hle (Nat.le_of_not_lt hlt)] at hnat
      omega

end Onto

/-- `t'` goes on after `base` as `t` has done after its first `start` locations. -/
structure Tape.Moved (ρ : Relocation) (base : Array (Entry F)) (t t' : Tape F) : Prop where
  entries : t'.entries = base ++ t.entries.map (Entry.rename ρ.map)
  dependents : t'.dependents = t.dependents.map ρ.map
  start_le : ρ.start ≤ t.values.size
  size : t'.values.size = t.values.size - ρ.start + ρ.target

namespace Tape.Moved

variable {ρ : Relocation} {base : Array (Entry F)} {t t' : Tape F}

/-- The next location of one is that of the other, moved. -/
theorem nextLocation (h : t.Moved ρ base t') (hstop : t.values.size < ρ.stop) :
    t'.nextLocation = ρ.map t.nextLocation := by
  unfold Tape.nextLocation
  rw [h.size]
  exact (ρ.shift _ h.start_le hstop).symm

/-- While the block lasts no tape has come to the reserved location. -/
theorem size_lt (h : t.Moved ρ base t') (hstop : t.values.size < ρ.stop) :
    t.values.size < Handle.reservedLocation.toNat ∧
      t'.values.size < Handle.reservedLocation.toNat := by
  have hstart := h.start_le
  have hle := ρ.stop_le
  have htarget := ρ.target_le
  rw [h.size]
  omega

/-- One step: both tapes get the entry, each at its own next location, and the values may differ. -/
theorem appendEntry (h : t.Moved ρ base t') (hstop : t.values.size < ρ.stop) (op : Opcode)
    (lhs rhs : Operand F) (aux : Aux) (u v : F) :
    (t.appendEntry op lhs rhs aux u).Moved ρ base
      (t'.appendEntry op (lhs.rename ρ.map) (rhs.rename ρ.map) aux v) := by
  have hstart := h.start_le
  constructor
  · show t'.entries.push _ = base ++ (t.entries.push _).map _
    rw [h.entries, Array.map_push, Array.append_push, h.nextLocation hstop]
    rfl
  · exact h.dependents
  · show ρ.start ≤ (t.values.push u).size
    rw [Array.size_push]
    omega
  · show (t'.values.push v).size = (t.values.push u).size - _ + _
    rw [Array.size_push, Array.size_push, h.size]
    omega

/-- A location that is marked is marked under its other name. -/
theorem appendDependent (h : t.Moved ρ base t') (loc : Location) :
    (t.appendDependent loc).Moved ρ base (t'.appendDependent (ρ.map loc)) := by
  refine ⟨h.entries, ?_, h.start_le, h.size⟩
  show t'.dependents.push _ = (t.dependents.push loc).map _
  rw [h.dependents, Array.map_push]

end Tape.Moved

/-- Two runs that have come to the same call, on handles of the same values. -/
structure Trace.Moved (ρ : Relocation) (base : Array (Entry F)) (S S' : Trace F n) : Prop where
  tape : S.tape.Moved ρ base S'.tape
  values : ∀ k, (S'.handles k).value = (S.handles k).value
  operands : ∀ k, (S'.handles k).operand = (S.handles k).operand.rename ρ.map

/-- Whether a handle is a constant is told by its operand, wherever it was moved. -/
theorem Handle.isConstant_of_rename {ρ : Location → Location} {x x' : Handle F}
    (h : x'.operand = x.operand.rename ρ) : x'.isConstant = x.isConstant := by
  obtain ⟨v, mark⟩ := x
  obtain ⟨v', mark'⟩ := x'
  cases mark with
  | none =>
    cases mark' with
    | none => rfl
    | some m' => cases h
  | some m =>
    cases mark' with
    | none => cases h
    | some m' => rfl

namespace Trace.Moved

variable {ρ : Relocation} {base : Array (Entry F)} {S S' : Trace F n}

theorem get_value (h : S.Moved ρ base S') (a : Ref F n) :
    (a.get S'.handles).value = (a.get S.handles).value := by
  cases a with
  | literal c => rfl
  | handle k => exact h.values k

theorem get_operand (h : S.Moved ρ base S') (a : Ref F n) :
    (a.get S'.handles).operand = (a.get S.handles).operand.rename ρ.map := by
  cases a with
  | literal c => rfl
  | handle k => exact h.operands k

theorem constants (h : S.Moved ρ base S') : S'.constants = S.constants :=
  funext fun k => Handle.isConstant_of_rename (h.operands k)

theorem constant (h : S.Moved ρ base S') (c : F) : (S.constant c).Moved ρ base (S'.constant c) := by
  refine ⟨h.tape, fun k => ?_, fun k => ?_⟩
  · cases k using Fin.cases with
    | zero => rfl
    | succ k => exact h.values k
  · cases k using Fin.cases with
    | zero => rfl
    | succ k => exact h.operands k

/-- Both runs record `v`, and their handles of it are at the next locations. -/
theorem record (h : S.Moved ρ base S') (hstop : S.tape.values.size < ρ.stop) {t t' : Tape F}
    (ht : t.Moved ρ base t') (v : F) : (S.record t v).Moved ρ base (S'.record t' v) := by
  obtain ⟨hsize, hsize'⟩ := h.tape.size_lt hstop
  refine ⟨ht, fun k => ?_, fun k => ?_⟩
  · cases k using Fin.cases with
    | zero => exact (Handle.value_place ..).trans (Handle.value_place ..).symm
    | succ k => exact h.values k
  · cases k using Fin.cases with
    | zero =>
      -- neither of the next locations is reserved, so each handle has its place
      show (Handle.place _ _ _ _).operand = (Handle.place _ _ _ _).operand.rename _
      rw [Handle.place_eq (S.tape.nextLocation_ne_reserved hsize),
        Handle.place_eq (S'.tape.nextLocation_ne_reserved hsize')]
      exact congrArg Operand.location (h.tape.nextLocation hstop)
    | succ k => exact h.operands k

/-- Marking one answer in both runs.  This takes up a location if the answer is a constant, which
    has to be in the block. -/
theorem dependent (h : S.Moved ρ base S') (k : Fin n)
    (hfit : (S.dependent k).tape.values.size ≤ ρ.stop) :
    (S.dependent k).Moved ρ base (S'.dependent k) := by
  refine ⟨?_, h.values, h.operands⟩
  have hoperand := h.operands k
  have hvalue := h.values k
  show (Session.appendDependent (S.handles k) S.tape).Moved ρ base
    (Session.appendDependent (S'.handles k) S'.tape)
  have hsize := Session.size_appendDependent (S.handles k) S.tape
  change (Session.appendDependent (S.handles k) S.tape).values.size ≤ ρ.stop at hfit
  rw [hsize] at hfit
  -- a constant is recorded by both, and a location is marked by both
  generalize S.handles k = x at hoperand hvalue hfit ⊢
  generalize S'.handles k = x' at hoperand hvalue ⊢
  obtain ⟨v, mark⟩ := x
  obtain ⟨v', mark'⟩ := x'
  cases mark with
  | none =>
    cases mark' with
    | none =>
      cases hvalue
      have hstop : S.tape.values.size < ρ.stop := hfit
      have hconst := h.tape.appendEntry hstop .const (.literal v) .unused .none v v
      have hdep := hconst.appendDependent S.tape.nextLocation
      rw [← h.tape.nextLocation hstop] at hdep
      exact hdep
    | some m => cases hoperand
  | some m =>
    cases mark' with
    | none => cases hoperand
    | some m' =>
      have hloc : m'.loc = ρ.map m.loc := Operand.location.inj hoperand
      show (S.tape.appendDependent m.loc).Moved ρ base (S'.tape.appendDependent m'.loc)
      rw [hloc]
      exact h.tape.appendDependent m.loc

/-- And marking the answers one after the other. -/
theorem marked (h : S.Moved ρ base S') {k : Nat} (hk : k ≤ n)
    (hfit : (S.marked k).tape.values.size ≤ ρ.stop) :
    (S.marked k).Moved ρ base (S'.marked k) := by
  induction k with
  | zero => exact h
  | succ k ih =>
    have hle : (S.marked k).tape.values.size ≤ ρ.stop :=
      Nat.le_trans (S.size_marked_mono (Nat.le_succ k)) hfit
    rw [S.marked_succ ⟨k, hk⟩] at hfit ⊢
    rw [S'.marked_succ ⟨k, hk⟩]
    exact (ih (Nat.le_of_succ_le hk) hle).dependent _ hfit

variable [Scalar F] [Elementary F]

/-- An operation of one operand: both runs fold, to the same number, or both record. -/
theorem unary (h : S.Moved ρ base S') (op : Opcode) (aux : F → Aux) (a : Ref F n)
    (hfit : (S.unary op aux a).tape.values.size ≤ ρ.stop) :
    (S.unary op aux a).Moved ρ base (S'.unary op aux a) := by
  have hroom := Trace.room_of_unary hfit
  unfold Trace.unary
  simp only [h.constants, h.get_value, h.get_operand]
  -- both runs take the same of the two ways, to the same value
  by_cases hc : a.isConstant S.constants = true
  · rw [if_pos hc, if_pos hc]
    exact h.constant _
  · rw [if_neg hc, if_neg hc]
    exact h.record (hroom hc) (h.tape.appendEntry (hroom hc) _ _ .unused _ _ _) _

theorem combine (h : S.Moved ρ base S') (op : BinaryOp) (a b : Ref F n)
    (hfit : (S.combine op a b).tape.values.size ≤ ρ.stop) :
    (S.combine op a b).Moved ρ base (S'.combine op a b) := by
  have hroom := Trace.room_of_combine hfit
  unfold Trace.combine
  simp only [h.constants, h.get_value, h.get_operand]
  by_cases hc : (a.isConstant S.constants && b.isConstant S.constants) = true
  · rw [if_pos hc, if_pos hc]
    exact h.constant _
  · rw [if_neg hc, if_neg hc]
    exact h.record (hroom hc) (h.tape.appendEntry (hroom hc) _ _ _ _ _ _) _

/-- Both runs through the whole routine, by induction on it.  The bound on the whole trace is one on
    every part of it. -/
theorem trace {S S' : Trace F n} (h : S.Moved ρ base S') (f : Routine F m n)
    (hfit : (f.trace S).tape.values.size ≤ ρ.stop) :
    (f.trace S).Moved ρ base (f.trace S') := by
  induction f with
  | answer out => exact ⟨h.tape, fun j => h.values (out j), fun j => h.operands (out j)⟩
  | constant c rest ih => exact ih (h.constant c) hfit
  | apply op a rest ih =>
    exact ih (h.unary _ _ a (Nat.le_trans (rest.size_le_trace _) hfit)) hfit
  | frexp a rest ih =>
    -- the operand has one value in both runs, so the exponent that is found is the same
    have hrest := ih _ (h.unary _ _ a (Nat.le_trans ((rest _).size_le_trace _) hfit)) hfit
    unfold Routine.trace
    rw [h.get_value a]
    exact hrest
  | combine op a b rest ih =>
    exact ih (h.combine op a b (Nat.le_trans (rest.size_le_trace _) hfit)) hfit

end Trace.Moved

/-! ## The id and the serial of a recording

  Two recordings of one routine at one input differ in nothing else: each is the other, where all
  stays where it is. -/

/-- At the start there is nothing to move: the inputs are bound at the same locations. -/
theorem Trace.moved_start (id id' : TapeId) (serial serial' : Nat) (x : Fin n → F) {stop : Nat}
    (h : stop ≤ Handle.reservedLocation.toNat) :
    (start id serial x).Moved (.stay stop h) #[] (start id' serial' x) := by
  refine ⟨⟨?_, ?_, Nat.zero_le _, rfl⟩, fun k => ?_, fun k => ?_⟩
  · show #[] = #[] ++ Array.map _ #[]
    rw [Array.map_empty, Array.empty_append]
  · exact Array.map_empty.symm
  · exact (Handle.value_place ..).trans (Handle.value_place ..).symm
  · exact (Handle.operand_place ..).trans (Operand.rename_id _).symm

namespace Routine

variable [Scalar F] [Elementary F] {f : Routine F m n} {x : Fin n → F}

/-- What a routine records under one id and serial, it records under every other. -/
theorem trace_moved (hfit : f.locations x ≤ Handle.reservedLocation.toNat) (id : TapeId)
    (serial : Nat) :
    (f.trace (.start 0 0 x)).Moved (.stay _ (Nat.le_refl _)) #[] (f.trace (.start id serial x)) :=
  (Trace.moved_start 0 id 0 serial x (Nat.le_refl _)).trace f
    (Nat.le_trans (f.size_trace_le_tape 0 0 x) hfit)

variable (hfit : f.locations x ≤ Handle.reservedLocation.toNat) (id : TapeId) (serial : Nat)
include hfit

/-- How many locations a recording takes up depends on the routine and its input alone. -/
theorem size_tape : (f.tape id serial x).values.size = f.locations x :=
  ((trace_moved hfit id serial).marked (Nat.le_refl m) hfit).tape.size

/-- So do the values of its answers. -/
theorem value_trace (j : Fin m) :
    ((f.trace (.start id serial x)).handles j).value = f.outputs x j :=
  (trace_moved hfit id serial).values j

/-- And so does which of them are constants. -/
theorem constants_trace : (f.trace (.start id serial x)).constants = f.constants x :=
  (trace_moved hfit id serial).constants

end Routine

end DiffTape
