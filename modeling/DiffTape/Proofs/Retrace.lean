/-
  TRACED ONCE, REPLAYED ANYWHERE.

  Record one straight-line program twice, at different inputs.  The two tapes are ALIKE: they have
  the same entries at the same locations, and differ in their values and in the branches of `abs`
  and `signum`.  This is an induction over the program (`trace_alike`); what carries it is that the
  handles of the two runs are the same operands, a constant being the same number in both.

  A replay that follows the operands does not look at a recorded branch.  So alike tapes replay
  alike at every input, and the tape recorded at `x₀`, replayed at `x₁`, does what the one recorded
  at `x₁` does there, which is to reproduce its recording.

  At its own recording point a tape is on all of its branches, where the two policies agree
  (`Tape.cells_policy`).  This is how `replay_anywhere` gets by with any policy on one side.
-/
import DiffTape.Proofs.Policies
import DiffTape.Proofs.StraightLine
import DiffTape.Scalar.Binary
import Mathlib.Data.List.Forall2

namespace DiffTape

variable {F : Type}

/-! ## Alike tapes

  Appending to tapes that are alike keeps them alike, as long as the same is appended to both.  The
  values are free. -/

/-- The same, but for a recorded branch. -/
def Aux.Alike (aux aux' : Aux) : Prop :=
  aux = aux' ∨ ∃ b b', aux = .branch b ∧ aux' = .branch b'

/-- The same entry, but for a recorded branch. -/
structure Entry.Alike (e e' : Entry F) : Prop where
  op : e.op = e'.op
  result : e.result = e'.result
  lhs : e.lhs = e'.lhs
  rhs : e.rhs = e'.rhs
  aux : e.aux.Alike e'.aux

/-- The same tape, but for the values and the recorded branches. -/
structure Tape.Alike (t t' : Tape F) : Prop where
  size : t.values.size = t'.values.size
  independents : t.independents = t'.independents
  dependents : t.dependents = t'.dependents
  entries : List.Forall₂ Entry.Alike t.entries.toList t'.entries.toList

namespace Tape.Alike

variable {t t' : Tape F}

/-- Where a recording is, is a matter of how many values there are, and not of which. -/
theorem nextLocation (h : t.Alike t') : t.nextLocation = t'.nextLocation := by
  unfold Tape.nextLocation
  rw [h.size]

/-- The two runs bind different inputs, at one location. -/
theorem appendIndependent (h : t.Alike t') (u v : F) :
    (t.appendIndependent u).Alike (t'.appendIndependent v) := by
  refine ⟨?_, ?_, h.dependents, h.entries⟩
  · show (t.values.push u).size = (t'.values.push v).size
    rw [Array.size_push, Array.size_push, h.size]
  · show t.independents.push _ = t'.independents.push _
    rw [h.independents, h.nextLocation]

/-- The step of the two runs.  They record the same operation on the same operands; the values, and
    a branch, may differ. -/
theorem appendEntry (h : t.Alike t') (op : Opcode) (lhs rhs : Operand F) {aux aux' : Aux}
    (haux : aux.Alike aux') (u v : F) :
    (t.appendEntry op lhs rhs aux u).Alike (t'.appendEntry op lhs rhs aux' v) := by
  refine ⟨?_, h.independents, h.dependents, ?_⟩
  -- one value and one entry more, which stands at one location as there were as many values
  · show (t.values.push u).size = (t'.values.push v).size
    rw [Array.size_push, Array.size_push, h.size]
  · show List.Forall₂ Entry.Alike (t.entries.push _).toList (t'.entries.push _).toList
    rw [Array.toList_push, Array.toList_push]
    exact List.rel_append h.entries (.cons ⟨rfl, h.nextLocation, rfl, rfl, haux⟩ .nil)

/-- What is marked is a location of both. -/
theorem appendDependent (h : t.Alike t') (loc : Location) :
    (t.appendDependent loc).Alike (t'.appendDependent loc) := by
  refine ⟨h.size, h.independents, ?_, h.entries⟩
  show t.dependents.push loc = t'.dependents.push loc
  rw [h.dependents]

end Tape.Alike

/-! ## Alike tapes replay alike

  The only use of a recorded branch is in `abs`, and only by a replay that keeps to the recorded
  branches; `signum` has derivative zero on either side. -/

/-- Passes over entries that do the same are the same. -/
theorem pass_congr {α : Type} {f : Entry F → (Location → α) → α} {l l' : List (Entry F)}
    {R : Entry F → Entry F → Prop} (h : List.Forall₂ R l l')
    (hresult : ∀ e e', R e e' → e.result = e'.result) (hf : ∀ e e', R e e' → f e = f e') :
    pass f l = pass f l' := by
  -- along the two lists at once: the passes write the same at the same location
  induction h with
  | nil => rfl
  | cons hR _ ih =>
    funext env
    rw [pass, pass, ih, hresult _ _ hR, hf _ _ hR]

section Replay

variable [Scalar F] [Elementary F]

/-- The value of an operation is computed from the operands and the exponent: no branch is read. -/
theorem evalValue_alike {aux aux' : Aux} (h : aux.Alike aux') (op : Opcode) (a b : F) :
    evalValue op a b aux = evalValue op a b aux' := by
  -- aux data that differ are branches, and no operation computes with one
  rcases h with rfl | ⟨c, c', rfl, rfl⟩
  · rfl
  · cases op <;> rfl

/-- Nor is one for the partial derivatives.  `abs` is the exception, and has a row of its own. -/
theorem partials_alike {aux aux' : Aux} (h : aux.Alike aux') (op : Opcode) (a b r : F) :
    partials op a b r aux = partials op a b r aux' := by
  rcases h with rfl | ⟨c, c', rfl, rfl⟩
  · rfl
  · cases op <;> rfl

omit [Elementary F] in
/-- Following the operands, `abs` does not look at the recorded branch. -/
theorem absRow_replay (p : Nat) (aux aux' : Aux) (a : F) (rowA : Option (Array F)) :
    absRow .replay p aux a rowA = absRow .replay p aux' a rowA := by
  cases rowA <;> rfl

/-- An entry has one value on both tapes, as its operands have. -/
theorem Entry.Alike.value {e e' : Entry F} (h : e.Alike e') (v : Location → F) :
    e.value v = e'.value v := by
  unfold Entry.value
  rw [h.op, h.lhs, h.rhs, evalValue_alike h.aux]

/-- And one row from the rows of its operands, if the replay follows the operands. -/
theorem Entry.Alike.rowFrom {e e' : Entry F} (h : e.Alike e') (p : Nat) (a b : F)
    (rowA rowB : Option (Array F)) :
    e.rowFrom .replay p a b rowA rowB = e'.rowFrom .replay p a b rowA rowB := by
  unfold Entry.rowFrom
  rw [h.op, absRow_replay p e.aux e'.aux, evalValue_alike h.aux, partials_alike h.aux]

/-- So its whole cell is the same. -/
theorem Entry.Alike.cell {e e' : Entry F} (h : e.Alike e') (p : Nat) (env : Location → Cell F) :
    e.cell .replay p env = e'.cell .replay p env := by
  simp only [Entry.cell, h.value, h.rowFrom, h.lhs, h.rhs]

namespace Tape.Alike

variable {t t' : Tape F}

/-- At one input the tapes take the same values everywhere, under either policy. -/
theorem valuesAt (h : t.Alike t') (x : Array F) : t.valuesAt x = t'.valuesAt x := by
  have hpass := pass_congr (f := Entry.value) h.entries (fun _ _ he => he.result)
    fun _ _ he => funext he.value
  unfold Tape.valuesAt Tape.startValues Tape.place
  rw [hpass, h.independents]

/-- And following the operands they have the same derivatives. -/
theorem cells (h : t.Alike t') (x : Array F) (p : Nat) (seeds : Array (Array F)) :
    t.cells .replay x p seeds = t'.cells .replay x p seeds := by
  have hpass := pass_congr (f := Entry.cell .replay p) h.entries (fun _ _ he => he.result)
    fun _ _ he => funext (he.cell p)
  unfold Tape.cells Tape.startCells Tape.place
  rw [hpass, h.independents]

end Tape.Alike

end Replay

/-! ## Two runs of one program

  The two runs are compared statement by statement.  Which operations are folded depends on which
  handles are constants, and that is the same in both, since no input is a constant. -/

/-- What an operation records beside its operands depends on the value only in the branch. -/
theorem UnaryOp.aux_alike [Scalar F] (op : UnaryOp) (u v : F) : (op.aux u).Alike (op.aux v) := by
  cases op with
  | abs | signum => exact Or.inr ⟨_, _, rfl, rfl⟩
  | _ => exact Or.inl rfl

/-- Handles that are the same operand are constants together, and then they are the same number. -/
theorem Handle.eq_of_operand {x x' : Handle F} (h : x.operand = x'.operand) :
    x.isConstant = x'.isConstant ∧ (x.mark = none → x.value = x'.value) := by
  obtain ⟨v, mark⟩ := x
  obtain ⟨v', mark'⟩ := x'
  cases mark with
  | none =>
    cases mark' with
    | none =>
      cases h
      exact ⟨rfl, fun _ => rfl⟩
    | some m => cases h
  | some m =>
    cases mark' with
    | none => cases h
    | some m' => exact ⟨rfl, fun hm => nomatch hm⟩

variable {n : Nat}

/-- Two runs of one program that have come to the same statement. -/
structure Trace.Alike (S S' : Trace F n) : Prop where
  tape : S.tape.Alike S'.tape
  handles : ∀ k, (S.handles k).operand = (S'.handles k).operand

namespace Trace.Alike

variable {S S' : Trace F n}

/-- A name in the program stands for the same operand in both runs. -/
theorem get (h : S.Alike S') (a : Ref F n) :
    (a.get S.handles).operand = (a.get S'.handles).operand := by
  cases a with
  | literal c => rfl
  | handle k => exact h.handles k

/-- What is a constant in one run is one in the other. -/
theorem constants (h : S.Alike S') : S.constants = S'.constants :=
  funext fun k => (Handle.eq_of_operand (h.handles k)).1

/-- A constant of the program is the same number in both. -/
theorem constant (h : S.Alike S') (c : F) : (S.constant c).Alike (S'.constant c) := by
  refine ⟨h.tape, fun k => ?_⟩
  cases k using Fin.cases with
  | zero => rfl
  | succ k => exact h.handles k

/-- What is recorded now is at one location in both runs, and so are the handles of it. -/
theorem record (h : S.Alike S') (hsize : S.tape.values.size < Handle.reservedLocation.toNat)
    {t t' : Tape F} (ht : t.Alike t') (u v : F) : (S.record t u).Alike (S'.record t' v) := by
  -- the new location is not the reserved one, so neither run takes the handle for a constant
  have hnext := S.tape.nextLocation_ne_reserved hsize
  have hnext' : S'.tape.nextLocation ≠ Handle.reservedLocation := by
    rw [← h.tape.nextLocation]
    exact hnext
  refine ⟨ht, fun k => ?_⟩
  cases k using Fin.cases with
  | zero =>
    show (Handle.place _ _ _ _).operand = (Handle.place _ _ _ _).operand
    rw [Handle.place_eq hnext, Handle.place_eq hnext']
    exact congrArg Operand.location h.tape.nextLocation
  | succ k => exact h.handles k

/-- Marking keeps the runs alike, also where it records a constant. -/
theorem dependent (h : S.Alike S') (k : Fin n) : (S.dependent k).Alike (S'.dependent k) := by
  refine ⟨?_, h.handles⟩
  have hoperand := h.handles k
  show (Session.appendDependent (S.handles k) S.tape).Alike
    (Session.appendDependent (S'.handles k) S'.tape)
  -- a constant is recorded by both, as the same number, and a location is marked by both
  generalize S.handles k = x at hoperand
  generalize S'.handles k = x' at hoperand
  obtain ⟨v, mark⟩ := x
  obtain ⟨v', mark'⟩ := x'
  cases mark with
  | none =>
    cases mark' with
    | none =>
      cases hoperand
      have hconst := h.tape.appendEntry .const (.literal v) .unused (Or.inl rfl : Aux.Alike .none _)
        v v
      have hdep := hconst.appendDependent S.tape.nextLocation
      show ((S.tape.appendConst v).appendDependent S.tape.nextLocation).Alike
        ((S'.tape.appendConst v).appendDependent S'.tape.nextLocation)
      rw [← h.tape.nextLocation]
      exact hdep
    | some m => cases hoperand
  | some m =>
    cases mark' with
    | none => cases hoperand
    | some m' =>
      have hloc : m.loc = m'.loc := Operand.location.inj hoperand
      show (S.tape.appendDependent m.loc).Alike (S'.tape.appendDependent m'.loc)
      rw [← hloc]
      exact h.tape.appendDependent m.loc

variable [Scalar F] [Elementary F]

/-- A unary operation: on a constant both runs fold, to the same number; on anything else both
    record, and alike. -/
theorem apply (h : S.Alike S') (op : UnaryOp) (a : Ref F n)
    (hsize : ¬ a.isConstant S.constants = true →
      S.tape.values.size < Handle.reservedLocation.toNat) :
    (S.apply op a).Alike (S'.apply op a) := by
  have hoperand := h.get a
  obtain ⟨-, hvalue⟩ := Handle.eq_of_operand hoperand
  unfold Trace.apply Trace.unary
  rw [← h.constants]
  by_cases hc : a.isConstant S.constants = true
  · -- a constant is the same number in both runs, though a location has two values
    rw [if_pos hc, if_pos hc]
    rw [a.isConstant_eq, Handle.isConstant_eq_true_iff] at hc
    rw [hvalue hc]
    exact h.constant _
  · rw [if_neg hc, if_neg hc, hoperand]
    exact h.record (hsize hc)
      (h.tape.appendEntry _ _ _ (op.aux_alike _ _) _ _) _ _

/-- A binary operation, in the same way: folding takes two constants. -/
theorem combine (h : S.Alike S') (op : BinaryOp) (a b : Ref F n)
    (hsize : ¬ (a.isConstant S.constants && b.isConstant S.constants) = true →
      S.tape.values.size < Handle.reservedLocation.toNat) :
    (S.combine op a b).Alike (S'.combine op a b) := by
  have haop := h.get a
  have hbop := h.get b
  obtain ⟨-, havalue⟩ := Handle.eq_of_operand haop
  obtain ⟨-, hbvalue⟩ := Handle.eq_of_operand hbop
  unfold Trace.combine
  rw [← h.constants]
  by_cases hc : (a.isConstant S.constants && b.isConstant S.constants) = true
  · -- both runs fold, and what they fold are the same two numbers
    rw [if_pos hc, if_pos hc]
    rw [Bool.and_eq_true, a.isConstant_eq, b.isConstant_eq, Handle.isConstant_eq_true_iff,
      Handle.isConstant_eq_true_iff] at hc
    rw [havalue hc.1, hbvalue hc.2]
    exact h.constant _
  · rw [if_neg hc, if_neg hc, haop, hbop]
    exact h.record (hsize hc)
      (h.tape.appendEntry _ _ _ (Or.inl rfl) _ _) _ _

end Trace.Alike

/-- Two runs of one program stay alike, by induction on the program.  The inputs are arbitrary, for
    an input is never an operand.  That there are locations left is known of the first run, and the
    other one uses as many. -/
theorem Program.trace_alike [Scalar F] [Elementary F] (P : Program F n)
    (x x' : Fin P.inputs → F) {S S' : Trace F n}
    (hS : S.Sound) (hfit : S.total P ≤ Handle.reservedLocation.toNat) (h : S.Alike S') :
    (P.trace x S).Alike (P.trace x' S') := by
  -- at each statement: there is room for it, both runs take the step, and the rest is the induction
  induction P with
  | done => exact h.tape
  | independent rest ih =>
    obtain ⟨hs, htotal⟩ := hS.independent hfit (x (0 : Fin (rest.inputs + 1)))
    have hsize := Trace.room_independent hfit
    rw [← htotal] at hfit
    exact ih _ _ hs hfit (h.record hsize (h.tape.appendIndependent _ _) _ _)
  | constant c rest ih =>
    have htotal : (S.constant c).total rest = S.total (.constant c rest) := S.total_constant c rest
    rw [← htotal] at hfit
    exact ih x x' (hS.constant c) hfit (h.constant c)
  | apply op a rest ih =>
    obtain ⟨hs, htotal⟩ := hS.apply hfit
    have hsize := Trace.room_apply hfit
    rw [← htotal] at hfit
    exact ih x x' hs hfit (h.apply op a hsize)
  | combine op a b rest ih =>
    obtain ⟨hs, htotal⟩ := hS.combine hfit
    have hsize := Trace.room_combine hfit
    rw [← htotal] at hfit
    exact ih x x' hs hfit (h.combine op a b hsize)
  | dependent k rest ih =>
    obtain ⟨hs, htotal⟩ := hS.dependent hfit
    rw [← htotal] at hfit
    exact ih x x' hs hfit (h.dependent k)

/-! ## The evaluations

  The first tape is replayed at the inputs of the second.  It takes the values of the second tape,
  because they are alike; these are the recorded ones, because the second tape reproduces its
  recording. -/

section Record

variable {C : Width → Type} [∀ w, Scalar (C w)] [∀ w, Elementary (C w)] {w : Width}

/-- What a whole program records is faithful, uses the locations that are counted, and has the
    inputs as its recorded inputs. -/
theorem Program.tape_sound {P : Program (C w) 0}
    (hfit : P.locations Fin.elim0 ≤ Handle.reservedLocation.toNat) (id : TapeId) (serial : Nat)
    (x : Fin P.inputs → C w) :
    (P.tape id serial x).Recorded ∧ (P.tape id serial x).Faithful ∧
      (P.tape id serial x).values.size = P.locations Fin.elim0 ∧
      (P.tape id serial x).independents.map (P.tape id serial x).recordedAt = Array.ofFn x := by
  have hempty := Trace.sound_empty (F := C w) id serial
  rw [← total_start P id serial] at hfit ⊢
  obtain ⟨hrec, hfaithful, hsize⟩ := P.trace_sound x hempty hfit
  refine ⟨hrec, hfaithful, hsize, ?_⟩
  -- the values at the independents are what was bound there, in order
  have hinputs := P.inputValues_trace x hempty hfit
  rw [← Array.toList_inj, Array.toList_map, Array.toList_ofFn]
  exact hinputs

/-- Two recordings of one program are alike. -/
theorem Program.tape_alike {P : Program (C w) 0}
    (hfit : P.locations Fin.elim0 ≤ Handle.reservedLocation.toNat) (id id' : TapeId)
    (serial serial' : Nat) (x x' : Fin P.inputs → C w) :
    (P.tape id serial x).Alike (P.tape id' serial' x') := by
  refine P.trace_alike x x' (Trace.sound_empty id serial) ?_
    ⟨⟨rfl, rfl, rfl, .nil⟩, fun k => k.elim0⟩
  rw [total_start]
  exact hfit

/-- Recorded at `x₀` and evaluated at `x₁`, a straight-line program takes at every location, and at
    every dependent, the value that it has recorded at `x₁`; and following the operands it has all
    the derivatives that the recording at `x₁` has there, under whatever policy. -/
theorem replay_anywhere (P : Program (C w) 0) (hfit : P.locations Fin.elim0 < UInt32.size - 1)
    (x₀ x₁ : Fin P.inputs → C w) {r₀ r₁ : Recorder C} {i₀ i₁ : ThreadId} (h₀ : r₀.Idle w i₀)
    (h₁ : r₁.Idle w i₁) (store₀ store₁ : StoreName) (id₀ id₁ : TapeId) :
    ∃ stats₀ r₀' t₀ stats₁ r₁' t₁,
      (P.record store₀ id₀ x₀).exec i₀ r₀ = (.ok stats₀, r₀') ∧
      r₀'.sealed? w store₀ id₀ = some t₀ ∧
      (P.record store₁ id₁ x₁).exec i₁ r₁ = (.ok stats₁, r₁') ∧
      r₁'.sealed? w store₁ id₁ = some t₁ ∧
      t₀.dependents.size = t₁.dependents.size ∧
      ∀ (p : Nat) (xd : Array (Array (C w))), IsMatrix xd P.inputs p →
      ∀ (out : Outputs (C w)), out.y.size = t₀.dependents.size →
        IsMatrix out.yd t₀.dependents.size p →
      ∀ (s s' : Scratch (C w)) (policy : BranchPolicy),
        (∃ report, (t₀.forwardWithScratch policy p (Array.ofFn x₁) xd out s).answer = .ok report) ∧
        (∀ loc, (t₀.forwardWithScratch policy p (Array.ofFn x₁) xd out s).buffers.2.value? loc =
          t₁.recordedValue? loc) ∧
        some (t₀.forwardWithScratch policy p (Array.ofFn x₁) xd out s).buffers.1.y =
          t₁.recordedOutputs? ∧
        (t₁.forwardWithScratch policy p (Array.ofFn x₁) xd out s').answer =
          .ok { switches := #[] } ∧
        (t₀.forwardWithScratch .replay p (Array.ofFn x₁) xd out s).buffers =
          (t₁.forwardWithScratch policy p (Array.ofFn x₁) xd out s').buffers := by
  have hle : P.locations Fin.elim0 ≤ Handle.reservedLocation.toNat := Nat.le_of_lt hfit
  obtain ⟨r₀', hexec₀, hsealed₀⟩ := record_seals hle h₀ store₀ id₀ x₀
  obtain ⟨r₁', hexec₁, hsealed₁⟩ := record_seals hle h₁ store₁ id₁ x₁
  -- both recordings succeed, and seal tapes that are alike
  obtain ⟨hrec₀, -, hsize₀, -⟩ := Program.tape_sound hle id₀ r₀.nextSerial x₀
  obtain ⟨hrec₁, hfaithful₁, hsize₁, hinputs₁⟩ := Program.tape_sound hle id₁ r₁.nextSerial x₁
  have halike := Program.tape_alike hle id₀ id₁ r₀.nextSerial r₁.nextSerial x₀ x₁
  refine ⟨_, r₀', P.tape id₀ r₀.nextSerial x₀, _, r₁', P.tape id₁ r₁.nextSerial x₁, hexec₀,
    hsealed₀, hexec₁, hsealed₁, by rw [halike.dependents], ?_⟩
  generalize P.tape id₀ r₀.nextSerial x₀ = t₀ at hrec₀ hsize₀ halike ⊢
  generalize P.tape id₁ r₁.nextSerial x₁ = t₁ at hrec₁ hfaithful₁ hsize₁ hinputs₁ halike ⊢
  intro p xd hxd out hy hyd s s' policy
  -- the arguments have the shapes of both tapes
  have hx₁ : (Array.ofFn x₁).size = t₁.independents.size := by
    rw [← hinputs₁, Array.size_map]
  have hx₀ : (Array.ofFn x₁).size = t₀.independents.size := by
    rw [hx₁, halike.independents]
  have hxd₀ : IsMatrix xd t₀.independents.size p := by
    rw [← hx₀, Array.size_ofFn]
    exact hxd
  have hxd₁ : IsMatrix xd t₁.independents.size p := by
    rw [← halike.independents]
    exact hxd₀
  rw [halike.dependents] at hy hyd
  -- at `x₁` the second tape is at its recording point
  obtain ⟨hvalues₁, hswitches₁⟩ := hfaithful₁.valuesAt_recorded hrec₁
  rw [hinputs₁] at hvalues₁ hswitches₁
  -- the first tape takes the same values there, being alike; the derivatives agree if it follows
  -- the operands, and the policy of the second tape does not matter at its recording point
  have hvalues : t₀.valuesAt (Array.ofFn x₁) = t₁.valuesAt (Array.ofFn x₁) := halike.valuesAt _
  have hcells : t₀.cells .replay (Array.ofFn x₁) p xd = t₁.cells policy (Array.ofFn x₁) p xd :=
    (halike.cells _ p xd).trans (Tape.cells_policy hswitches₁ .replay policy p xd)
  -- three calls: the first tape under the policy and following the operands, and the second tape
  obtain ⟨s₀, hs₀, hanswer₀, hbuffers₀⟩ := Tape.forwardWithScratch_eq hrec₀.toReplayable policy
    hx₀ hxd₀ (halike.dependents ▸ hy) (halike.dependents ▸ hyd) s
  obtain ⟨s₁, hs₁, hanswer₁, hbuffers₁⟩ := Tape.forwardWithScratch_eq hrec₁.toReplayable policy
    hx₁ hxd₁ hy hyd s'
  obtain ⟨s₂, hs₂, -, hbuffers₂⟩ := Tape.forwardWithScratch_eq hrec₀.toReplayable .replay
    hx₀ hxd₀ (halike.dependents ▸ hy) (halike.dependents ▸ hyd) s
  refine ⟨⟨_, hanswer₀⟩, fun loc => ?_, ?_, ?_, ?_⟩
  · -- the values at all locations
    rw [hbuffers₀]
    refine Tape.value?_eq_recordedValue? hs₀ halike.size (fun l hl => ?_) loc
    rw [hvalues, hvalues₁ l (halike.size ▸ hl)]
  · -- those of the dependents, which are locations of the tape
    rw [hbuffers₀, hrec₁.recordedOutputs?_eq, hvalues, halike.dependents]
    refine congrArg some (Array.map_congr_left fun loc hloc => ?_)
    exact hvalues₁ loc (hrec₁.dependents_lt loc hloc)
  · -- the report of the second tape
    rw [hanswer₁, hswitches₁]
  · -- all buffers, whose contents are the cells
    have hscratch : s₂ = s₁ := by
      rw [halike.size] at hs₂
      refine hs₂.ext hs₁ ?_ fun loc _ => by rw [hcells]
      rw [hsize₁]
      exact Nat.le_of_lt (Nat.lt_trans hfit (by decide))
    rw [hbuffers₂, hbuffers₁, hvalues, hcells, halike.dependents, hscratch]

/-- The magnitude, recorded on one side of its kink and replayed on the other. -/
theorem replay_anywhere_across_kink :
    let P : Program (Width.Number .double) 0 :=
      .independent (.apply .abs (.handle 0) (.dependent 0 .done))
    let x₀ : Fin P.inputs → Width.Number .double := fun _ => (1 : Float)
    let x₁ : Fin P.inputs → Width.Number .double := fun _ => (-2 : Float)
    ∃ (t₀ t₁ : Tape (Width.Number .double)) (stats₀ stats₁ : TapeStats)
      (r₀ r₁ : Recorder Width.Number) (out : Outputs (Width.Number .double)),
      (P.record "kink" 7 x₀).exec 0 {} = (.ok stats₀, r₀) ∧
      r₀.sealed? .double "kink" 7 = some t₀ ∧
      (P.record "kink" 7 x₁).exec 0 {} = (.ok stats₁, r₁) ∧
      r₁.sealed? .double "kink" 7 = some t₁ ∧
      some (t₀.forwardWithScratch .recorded 1 (Array.ofFn x₁) #[#[(1 : Float)]] out {}).buffers.1.y =
        t₁.recordedOutputs? ∧
      (t₀.forwardWithScratch .replay 1 (Array.ofFn x₁) #[#[(1 : Float)]] out {}).buffers =
        (t₁.forwardWithScratch .recorded 1 (Array.ofFn x₁) #[#[(1 : Float)]] out {}).buffers := by
  intro P x₀ x₁
  have hidle : ({} : Recorder Width.Number).Idle .double 0 := ⟨rfl, rfl⟩
  have hxd : IsMatrix #[#[(1 : Float)]] P.inputs 1 := ⟨rfl, by simp⟩
  obtain ⟨stats₀, r₀, t₀, stats₁, r₁, t₁, hexec₀, hsealed₀, hexec₁, hsealed₁, -, h⟩ :=
    replay_anywhere P (by decide) x₀ x₁ hidle hidle "kink" "kink" 7 7
  have hrows : IsMatrix (Array.replicate t₀.dependents.size #[(0 : Float)])
      t₀.dependents.size 1 := ⟨Array.size_replicate, by simp⟩
  obtain ⟨-, -, hy, -, hbuffers⟩ := h 1 _ hxd
    ⟨Array.replicate t₀.dependents.size (0 : Float), _⟩ Array.size_replicate hrows {} {} .recorded
  exact ⟨t₀, t₁, stats₀, stats₁, r₀, r₁, _, hexec₀, hsealed₀, hexec₁, hsealed₁, hy, hbuffers⟩

end Record

end DiffTape
