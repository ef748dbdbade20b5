/-
  ROUTINES.

  A `Routine` is straight-line traced code with handles going in and handles coming out, so that
  one can be applied to what another answers.  Unlike a `Program` it says nothing of independents
  and dependents: these are made by the recording that it is the body of.  And it may split a
  handle, and go on by the exponent that was found.

    `Routine.run`   — the routine, as calls on any tape
    `Routine.body`  — the same on arrays of handles, which is what `record` takes
    `Routine.trace` — what it records, and the handles it answers
    `Routine.tape`  — the whole tape when it is recorded at numbers `x`

  As long as locations last, no call of a routine fails, and what it records is the trace
  (`Routine.run_yields`).  What happens around it does not depend on the code: the independents are
  bound at the first locations (`independents_yields`), and the answers are marked one after the
  other (`dependents_yields`).  `record_of_idle` is the whole recording.
-/
import DiffTape.Proofs.StraightLine
import DiffTape.Proofs.WholeSession
import Mathlib.Order.Monotone.Basic

namespace DiffTape

/-- Straight-line code that can use `n` handles and answers `m` of them. -/
inductive Routine (F : Type) (m : Nat) : Nat → Type where
  | answer {n : Nat} (out : Fin m → Fin n) : Routine F m n
  | constant {n : Nat} (c : F) (rest : Routine F m (n + 1)) : Routine F m n
  | apply {n : Nat} (op : UnaryOp) (a : Ref F n) (rest : Routine F m (n + 1)) : Routine F m n
  /-- The code after a split may depend on the exponent. -/
  | frexp {n : Nat} (a : Ref F n) (rest : Int32 → Routine F m (n + 1)) : Routine F m n
  | combine {n : Nat} (op : BinaryOp) (a b : Ref F n) (rest : Routine F m (n + 1)) : Routine F m n

variable {F : Type} {n m : Nat}

/-! ## Running a routine -/

namespace Routine

section Run

variable {C : Width → Type} {w : Width} [Scalar (C w)] [Elementary (C w)]

/-- The calls of a routine. -/
def run : {n : Nat} → Routine (C w) m n → (Fin n → Handle (C w)) →
    RecorderT C Id (Fin m → Handle (C w))
  | _, .answer out, h => pure fun j => h (out j)
  | _, .constant c rest, h => rest.run (extend (.constant c) h)
  | _, .apply op a rest, h => do
    let y ← (a.get h).apply op
    rest.run (extend y h)
  | _, .frexp a rest, h => do
    let (y, e) ← (a.get h).frexp
    (rest e).run (extend y h)
  | _, .combine op a b rest, h => do
    let y ← (a.get h).combine op (b.get h)
    rest.run (extend y h)

/-- The routine on an array of `n` handles. -/
def body (f : Routine (C w) m n) (xs : Array (Handle (C w))) :
    RecorderT C Id (Array (Handle (C w))) := do
  let ys ← f.run fun k => xs[k]?.getD (.constant 0)
  return Array.ofFn ys

end Run

end Routine

/-! ## What a routine records

  A routine is traced like a program.  The number of locations it takes is not counted beforehand,
  for after a split it depends on the exponent; what has to fit is the trace itself. -/

section Trace

variable [Scalar F] [Elementary F]

/-- What was recorded, and the handles that are answered, after what was recorded before. -/
def Routine.trace : {n : Nat} → Routine F m n → Trace F n → Trace F m
  | _, .answer out, S => ⟨S.tape, fun j => S.handles (out j)⟩
  | _, .constant c rest, S => rest.trace (S.constant c)
  | _, .apply op a rest, S => rest.trace (S.apply op a)
  | _, .frexp a rest, S =>
    (rest (.ofInt (frexpExponent (a.get S.handles).value))).trace (S.frexp a)
  | _, .combine op a b rest, S => rest.trace (S.combine op a b)

namespace Trace

/-- Only an operation on a location takes up a new one; on a constant it is folded. -/
theorem size_unary (S : Trace F n) (op : Opcode) (aux : F → Aux) (a : Ref F n) :
    (S.unary op aux a).tape.values.size =
      if a.isConstant S.constants then S.tape.values.size else S.tape.values.size + 1 := by
  unfold unary
  split
  · rfl
  · exact Array.size_push ..

/-- One operand that is no constant is enough for an entry. -/
theorem size_combine (S : Trace F n) (op : BinaryOp) (a b : Ref F n) :
    (S.combine op a b).tape.values.size =
      if a.isConstant S.constants && b.isConstant S.constants then S.tape.values.size
      else S.tape.values.size + 1 := by
  unfold combine
  split
  · rfl
  · exact Array.size_push ..

/-- The tape never shrinks, whether the operation is recorded or folded. -/
theorem size_le_unary (S : Trace F n) (op : Opcode) (aux : F → Aux) (a : Ref F n) :
    S.tape.values.size ≤ (S.unary op aux a).tape.values.size := by
  rw [size_unary]
  split <;> omega

theorem size_le_combine (S : Trace F n) (op : BinaryOp) (a b : Ref F n) :
    S.tape.values.size ≤ (S.combine op a b).tape.values.size := by
  rw [size_combine]
  split <;> omega

/-- An operation that fits afterwards had a location for its result, if it records one. -/
theorem room_of_unary {S : Trace F n} {op : Opcode} {aux : F → Aux} {a : Ref F n} {limit : Nat}
    (h : (S.unary op aux a).tape.values.size ≤ limit) (hc : ¬ a.isConstant S.constants = true) :
    S.tape.values.size < limit := by
  rw [size_unary, if_neg hc] at h
  omega

/-- The same of a binary operation, which is recorded unless both operands are constants. -/
theorem room_of_combine {S : Trace F n} {op : BinaryOp} {a b : Ref F n} {limit : Nat}
    (h : (S.combine op a b).tape.values.size ≤ limit)
    (hc : ¬ (a.isConstant S.constants && b.isConstant S.constants) = true) :
    S.tape.values.size < limit := by
  rw [size_combine, if_neg hc] at h
  omega

end Trace

namespace Routine

/-- What every entry leaves alone, a routine leaves alone. -/
theorem trace_keeps {β : Type} {π : Tape F → β}
    (h : ∀ t op lhs rhs aux v, π (t.appendEntry op lhs rhs aux v) = π t) (f : Routine F m n)
    (S : Trace F n) : π (f.trace S).tape = π S.tape := by
  induction f with
  | answer out => rfl
  | constant c rest ih => exact ih (S.constant c)
  | apply op a rest ih => exact (ih (S.apply op a)).trans (Trace.unary_keeps h S _ _ a)
  | frexp a rest ih => exact (ih _ (S.frexp a)).trans (Trace.unary_keeps h S _ _ a)
  | combine op a b rest ih => exact (ih (S.combine op a b)).trans (Trace.combine_keeps h S op a b)

/-- The tape stays the same tape to its handles, which know it by its id and its serial. -/
theorem id_trace (f : Routine F m n) (S : Trace F n) : (f.trace S).tape.id = S.tape.id :=
  trace_keeps (π := Tape.id) (fun _ _ _ _ _ _ => rfl) f S

theorem session_trace (f : Routine F m n) (S : Trace F n) :
    (f.trace S).tape.session = S.tape.session :=
  trace_keeps (π := Tape.session) (fun _ _ _ _ _ _ => rfl) f S

/-- Only the recording around a routine binds independents. -/
theorem independents_trace (f : Routine F m n) (S : Trace F n) :
    (f.trace S).tape.independents = S.tape.independents :=
  trace_keeps (π := Tape.independents) (fun _ _ _ _ _ _ => rfl) f S

/-- Locations are only used up. -/
theorem size_le_trace (f : Routine F m n) (S : Trace F n) :
    S.tape.values.size ≤ (f.trace S).tape.values.size := by
  induction f with
  | answer out => exact Nat.le_refl _
  | constant c rest ih => exact ih (S.constant c)
  | apply op a rest ih => exact Nat.le_trans (S.size_le_unary _ _ a) (ih (S.apply op a))
  | frexp a rest ih => exact Nat.le_trans (S.size_le_unary _ _ a) (ih _ (S.frexp a))
  | combine op a b rest ih => exact Nat.le_trans (S.size_le_combine op a b) (ih (S.combine op a b))

end Routine

namespace Trace.Sound

variable {S : Trace F n}

theorem apply_of_fit (h : S.Sound) {op : UnaryOp} {a : Ref F n}
    (hfit : (S.apply op a).tape.values.size ≤ Handle.reservedLocation.toNat) :
    (S.apply op a).Sound :=
  h.unary op.arity_opcode op.opcode_ne_const (op.aux_fits ·) (fun _ _ => UnaryOp.aux_branch)
    (room_of_unary hfit)

/-- Splitting a handle records its exponent, and no branch. -/
theorem frexp_of_fit (h : S.Sound) {a : Ref F n}
    (hfit : (S.frexp a).tape.values.size ≤ Handle.reservedLocation.toNat) : (S.frexp a).Sound :=
  h.unary rfl Opcode.noConfusion (fun _ => ⟨_, rfl⟩) (fun _ _ hb => nomatch hb)
    (room_of_unary hfit)

theorem combine_of_fit (h : S.Sound) {op : BinaryOp} {a b : Ref F n}
    (hfit : (S.combine op a b).tape.values.size ≤ Handle.reservedLocation.toNat) :
    (S.combine op a b).Sound :=
  h.combine_of_room op a b (room_of_combine hfit)

end Trace.Sound

/-- What a routine records is sound, by induction on the routine.  The bound is on the whole trace,
    and so on every part of it, since locations are only used up. -/
theorem Routine.trace_sound (f : Routine F m n) {S : Trace F n} (h : S.Sound)
    (hfit : (f.trace S).tape.values.size ≤ Handle.reservedLocation.toNat) : (f.trace S).Sound := by
  induction f with
  | answer out => exact ⟨h.recorded, h.faithful, fun j => h.on (out j), fun j => h.shows (out j)⟩
  | constant c rest ih => exact ih (h.constant c) hfit
  | apply op a rest ih => exact ih (h.apply_of_fit (Nat.le_trans (rest.size_le_trace _) hfit)) hfit
  | frexp a rest ih =>
    exact ih _ (h.frexp_of_fit (Nat.le_trans ((rest _).size_le_trace _) hfit)) hfit
  | combine op a b rest ih =>
    exact ih (h.combine_of_fit (Nat.le_trans (rest.size_le_trace _) hfit)) hfit

end Trace

/-! ## The independents of a recording -/

/-- The tape on which the numbers `x` were bound, and nothing else was done. -/
def Tape.ofInputs (id : TapeId) (serial : Nat) (x : Array F) : Tape F :=
  { id, session := serial, values := x, independents := (Array.range x.size).map Nat.toUInt32 }

/-- The tape of the inputs grows as the session binds them: one call, one more input. -/
theorem Tape.appendIndependent_ofInputs (id : TapeId) (serial : Nat) (x : Array F) (v : F) :
    (ofInputs id serial x).appendIndependent v = ofInputs id serial (x.push v) := by
  simp [appendIndependent, ofInputs, nextLocation, Array.range_succ]

/-- The start of a recording at `x`: the `k`-th handle is that of the `k`-th independent. -/
def Trace.start (id : TapeId) (serial : Nat) (x : Fin n → F) : Trace F n :=
  ⟨.ofInputs id serial (Array.ofFn x), fun k => .place (x k) k.val.toUInt32 id serial⟩

section Start

variable (id : TapeId) (serial : Nat) (x : Fin n → F)

/-- Binding one more of the inputs. -/
theorem Tape.ofInputs_extract_succ (k : Fin n) :
    ofInputs id serial ((Array.ofFn x).extract 0 (k + 1)) =
      (ofInputs id serial ((Array.ofFn x).extract 0 k)).appendIndependent (x k) := by
  have hk : k.val < (Array.ofFn x).size := by
    rw [Array.size_ofFn]
    exact k.isLt
  rw [Tape.appendIndependent_ofInputs, Array.extract_succ_right (Nat.succ_pos _) hk,
    Array.getElem_ofFn]

theorem Tape.size_ofInputs_extract {k : Nat} (hk : k ≤ n) :
    (ofInputs id serial ((Array.ofFn x).extract 0 k)).values.size = k := by
  show ((Array.ofFn x).extract 0 k).size = k
  rw [Array.size_extract, Array.size_ofFn]
  omega

/-- Before the first input the tape is the one that a session opens with. -/
theorem Tape.ofInputs_extract_zero :
    ofInputs id serial ((Array.ofFn x).extract 0 0) = { id, session := serial } := by
  simp [ofInputs]

/-- After the last one it is the tape that a routine starts from. -/
theorem Tape.ofInputs_extract_all :
    ofInputs id serial ((Array.ofFn x).extract 0 n) = (Trace.start id serial x).tape := by
  have hall : (Array.ofFn x).extract 0 n = Array.ofFn x := by
    rw [Array.extract_eq_self_of_le (Nat.le_of_eq Array.size_ofFn)]
  rw [hall]
  rfl

/-- Binding the inputs keeps the invariants of a tape. -/
theorem Tape.sound_ofInputs [Scalar F] [Elementary F] (hn : n ≤ UInt32.size) {k : Nat}
    (hk : k ≤ n) :
    (ofInputs id serial ((Array.ofFn x).extract 0 k)).Recorded ∧
      (ofInputs id serial ((Array.ofFn x).extract 0 k)).Faithful := by
  induction k with
  | zero =>
    rw [ofInputs_extract_zero]
    exact ⟨recorded_empty id serial, faithful_empty id serial⟩
  | succ k ih =>
    obtain ⟨hrec, hfaithful⟩ := ih (Nat.le_of_succ_le hk)
    have hsize := size_ofInputs_extract id serial x (Nat.le_of_succ_le hk)
    rw [ofInputs_extract_succ id serial x ⟨k, hk⟩]
    refine ⟨hrec.appendIndependent _, hfaithful.appendIndependent hrec ?_ _⟩
    rw [hsize]
    exact Nat.lt_of_lt_of_le hk hn

end Start

/-! ## The dependents of a recording

  A recording marks the answers of its code one after the other.  This can append to the tape, but
  only constants, and it makes no handles.  The stages of it are `marked`, so that each of the facts
  is an induction on how many are marked. -/

namespace Trace

/-- The first `k` of the handles are marked. -/
def marked (S : Trace F m) : Nat → Trace F m
  | 0 => S
  | k + 1 => if h : k < m then (S.marked k).dependent ⟨k, h⟩ else S.marked k

/-- The tape when all the handles are marked. -/
def finish (S : Trace F m) : Tape F := (S.marked m).tape

/-- The recursion, at a handle that there is. -/
theorem marked_succ (S : Trace F m) (k : Fin m) : S.marked (k + 1) = (S.marked k).dependent k :=
  dif_pos k.isLt

/-- What marking one handle keeps, marking them all keeps. -/
theorem marked_induction {P : Trace F m → Prop} {S : Trace F m} (h : P S)
    (hstep : ∀ k, P (S.marked k) → ∀ j, P ((S.marked k).dependent j)) (k : Nat) :
    P (S.marked k) := by
  induction k with
  | zero => exact h
  | succ k ih =>
    unfold marked
    split
    · exact hstep k ih _
    · exact ih

/-- Marking answers values, and makes no handle. -/
theorem handles_marked (S : Trace F m) (k : Nat) : (S.marked k).handles = S.handles :=
  marked_induction (P := fun S' => S'.handles = S.handles) rfl (fun _ ih _ => ih) k

/-- A constant that is marked gets an entry, so this is not a case of `trace_keeps`; the entry keeps
    the id too. -/
theorem id_marked (S : Trace F m) (k : Nat) : (S.marked k).tape.id = S.tape.id :=
  marked_induction (P := fun S' => S'.tape.id = S.tape.id) rfl
    (fun _ ih _ => (Session.id_appendDependent _ _).trans ih) k

theorem session_marked (S : Trace F m) (k : Nat) : (S.marked k).tape.session = S.tape.session :=
  marked_induction (P := fun S' => S'.tape.session = S.tape.session) rfl
    (fun _ ih _ => (Session.session_appendDependent _ _).trans ih) k

theorem independents_marked (S : Trace F m) (k : Nat) :
    (S.marked k).tape.independents = S.tape.independents :=
  marked_induction (P := fun S' => S'.tape.independents = S.tape.independents) rfl
    (fun _ ih _ => (Session.independents_appendDependent _ _).trans ih) k

/-- Marking a constant takes up a location for it. -/
theorem size_le_dependent (S : Trace F m) (k : Fin m) :
    S.tape.values.size ≤ (S.dependent k).tape.values.size := by
  show _ ≤ (Session.appendDependent (S.handles k) S.tape).values.size
  rw [Session.size_appendDependent]
  split <;> omega

/-- So if the whole recording fits, it fits at every stage of the marking. -/
theorem size_marked_mono (S : Trace F m) : Monotone fun k => (S.marked k).tape.values.size := by
  refine monotone_nat_of_le_succ fun k => ?_
  show (S.marked k).tape.values.size ≤ (S.marked (k + 1)).tape.values.size
  by_cases hk : k < m
  · rw [S.marked_succ ⟨k, hk⟩]
    exact size_le_dependent _ _
  · have hrest : S.marked (k + 1) = S.marked k := dif_neg hk
    rw [hrest]

theorem size_le_finish (S : Trace F m) : S.tape.values.size ≤ S.finish.values.size :=
  S.size_marked_mono (Nat.zero_le m)

/-- Every handle that is marked is a dependent of its own. -/
theorem size_dependents_marked (S : Trace F m) {k : Nat} (hk : k ≤ m) :
    (S.marked k).tape.dependents.size = S.tape.dependents.size + k := by
  induction k with
  | zero => rfl
  | succ k ih =>
    rw [S.marked_succ ⟨k, hk⟩]
    show (Session.appendDependent _ (S.marked k).tape).dependents.size = _
    rw [Session.size_dependents_appendDependent, ih (Nat.le_of_succ_le hk)]
    rfl

/-- The location of a handle; that of a constant is of no meaning. -/
def location (S : Trace F n) (j : Fin n) : Location := (S.handles j).location?.getD 0

/-- A handle that is no constant has a mark, with its location. -/
theorem mark_location {S : Trace F n} {j : Fin n} (h : S.constants j = false) :
    ∃ mark, (S.handles j).mark = some mark ∧ mark.loc = S.location j ∧
      (S.handles j).operand = .location (S.location j) := by
  unfold constants Handle.isConstant at h
  unfold location Handle.location? Handle.operand
  cases hmark : (S.handles j).mark with
  | none =>
    rw [hmark] at h
    cases h
  | some mark => exact ⟨mark, rfl, rfl, rfl⟩

/-- Marking handles that are no constants appends their locations, and nothing else. -/
theorem tape_marked {S : Trace F m} (h : ∀ j, S.constants j = false) {k : Nat}
    (hk : k ≤ m) : (S.marked k).tape =
      { S.tape with dependents := S.tape.dependents ++ (Array.ofFn S.location).extract 0 k } := by
  induction k with
  | zero =>
    rw [Array.extract_zero, Array.append_empty]
    rfl
  | succ k ih =>
    -- a handle with a mark appends its location, and no value
    have hsize : k < (Array.ofFn S.location).size := by
      rw [Array.size_ofFn]
      exact hk
    obtain ⟨mark, hmark, hloc, -⟩ := mark_location (h ⟨k, hk⟩)
    rw [S.marked_succ ⟨k, hk⟩]
    show Session.appendDependent ((S.marked k).handles ⟨k, hk⟩) (S.marked k).tape = _
    rw [S.handles_marked, Session.appendDependent_of_mark hmark, ih (Nat.le_of_succ_le hk), hloc,
      Array.extract_succ_right (Nat.succ_pos _) hsize, Array.getElem_ofFn, Array.append_push]
    rfl

/-- A recording whose answers are all at locations of their own appends nothing at the end.  This is
    the tape to which compositions are compared. -/
theorem finish_eq {S : Trace F m} (h : ∀ j, S.constants j = false) :
    S.finish = { S.tape with dependents := S.tape.dependents ++ Array.ofFn S.location } := by
  have hall : (Array.ofFn S.location).extract 0 m = Array.ofFn S.location :=
    Array.extract_eq_self_of_le (Nat.le_of_eq Array.size_ofFn)
  have htape := tape_marked h (Nat.le_refl m)
  rw [hall] at htape
  exact htape

variable [Scalar F] [Elementary F]

/-- The invariant of a trace at every stage of the marking, by induction on the handles that are
    marked. -/
theorem Sound.marked {S : Trace F m} (h : S.Sound) (hfit : S.finish.values.size < UInt32.size)
    {k : Nat} (hk : k ≤ m) : (S.marked k).Sound := by
  induction k with
  | zero => exact h
  | succ k ih =>
    have hlt : (S.marked (k + 1)).tape.values.size < UInt32.size :=
      Nat.lt_of_le_of_lt (S.size_marked_mono hk) hfit
    rw [S.marked_succ ⟨k, hk⟩] at hlt ⊢
    exact (ih (Nat.le_of_succ_le hk)).dependent_of_room _ hlt

/-- What is left of the invariant when the handles are gone: it is a matter of the tape alone. -/
theorem Sound.finish {S : Trace F m} (h : S.Sound) (hfit : S.finish.values.size < UInt32.size) :
    S.finish.Recorded ∧ S.finish.Faithful := by
  have hmarked := h.marked hfit (Nat.le_refl m)
  exact ⟨hmarked.recorded, hmarked.faithful⟩

/-- A recording that has locations for its independents is sound when they are bound. -/
theorem sound_start (id : TapeId) (serial : Nat) {x : Fin n → F}
    (hn : n ≤ Handle.reservedLocation.toNat) : (start id serial x).Sound := by
  have hlt : n < UInt32.size := Nat.lt_of_le_of_lt hn Tape.reserved_lt
  obtain ⟨hrec, hfaithful⟩ := Tape.sound_ofInputs id serial x (Nat.le_of_lt hlt) (Nat.le_refl n)
  rw [Tape.ofInputs_extract_all] at hrec hfaithful
  -- the number of a handle survives as a 32-bit location
  have hsize : (start id serial x).tape.values.size = n := Array.size_ofFn
  have hloc : ∀ k : Fin n, k.val.toUInt32.toNat = k := fun k =>
    UInt32.toNat_ofNat_of_lt' (Nat.lt_trans k.isLt hlt)
  refine ⟨hrec, hfaithful, fun k m hm => ?_, fun k m hm => ?_⟩
  -- a handle is on the tape
  · obtain ⟨rfl, -⟩ := Handle.mark_place hm
    refine ⟨rfl, rfl, Tape.lt_nextLocation ?_ ?_⟩
    · rw [hsize]
      exact hlt
    · rw [hsize, hloc]
      exact k.isLt
  -- and shows the input that was bound there
  · obtain ⟨rfl, hvalue⟩ := Handle.mark_place hm
    show (Array.ofFn x)[k.val.toUInt32.toNat]? = some (Handle.place _ _ _ _).value
    rw [hvalue, hloc, Array.getElem?_ofFn, dif_pos k.isLt]

end Trace

/-! ## Whole recordings

  A recording is determined by the routine, the input, and the id and serial of its session.  The
  last two do not matter to what is computed, so `outputs`, `constants` and `locations` take any. -/

namespace Routine

variable [Scalar F] [Elementary F]

/-- The tape of a recording at `x`. -/
def tape (f : Routine F m n) (id : TapeId) (serial : Nat) (x : Fin n → F) : Tape F :=
  (f.trace (.start id serial x)).finish

/-- The values of the handles that are answered.  Under which id and serial is recorded does not
    matter to this and the next two. -/
def outputs (f : Routine F m n) (x : Fin n → F) (j : Fin m) : F :=
  ((f.trace (.start 0 0 x)).handles j).value

/-- Which of the handles that are answered are constants. -/
def constants (f : Routine F m n) (x : Fin n → F) : Fin m → Bool :=
  (f.trace (.start 0 0 x)).constants

/-- How many locations a recording uses. -/
def locations (f : Routine F m n) (x : Fin n → F) : Nat := (f.tape 0 0 x).values.size

theorem size_trace_le_tape (f : Routine F m n) (id : TapeId) (serial : Nat) (x : Fin n → F) :
    (f.trace (.start id serial x)).tape.values.size ≤ (f.tape id serial x).values.size :=
  (f.trace (.start id serial x)).size_le_finish

/-- A recording has a location for each of its inputs. -/
theorem inputs_le_size_tape (f : Routine F m n) (id : TapeId) (serial : Nat) (x : Fin n → F) :
    n ≤ (f.tape id serial x).values.size := by
  have hsize : (Trace.start id serial x).tape.values.size = n := Array.size_ofFn
  have hle := Nat.le_trans (f.size_le_trace (.start id serial x))
    (f.size_trace_le_tape id serial x)
  rw [hsize] at hle
  exact hle

/-- The independents are at the first locations, in their order, whatever the routine is. -/
theorem independents_tape (f : Routine F m n) (id : TapeId) (serial : Nat) (x : Fin n → F) :
    (f.tape id serial x).independents = (Array.range n).map Nat.toUInt32 := by
  have hstart : (Trace.start id serial x).tape.independents =
      (Array.range (Array.ofFn x).size).map Nat.toUInt32 := rfl
  rw [Array.size_ofFn] at hstart
  exact (Trace.independents_marked _ m).trans ((f.independents_trace _).trans hstart)

theorem size_independents_tape (f : Routine F m n) (id : TapeId) (serial : Nat) (x : Fin n → F) :
    (f.tape id serial x).independents.size = n := by
  rw [independents_tape, Array.size_map, Array.size_range]

theorem dependents_trace (f : Routine F m n) (S : Trace F n) :
    (f.trace S).tape.dependents = S.tape.dependents :=
  trace_keeps (π := Tape.dependents) (fun _ _ _ _ _ _ => rfl) f S

/-- Every answer is a dependent, also if it is a constant or is answered twice. -/
theorem size_dependents_tape (f : Routine F m n) (id : TapeId) (serial : Nat) (x : Fin n → F) :
    (f.tape id serial x).dependents.size = m := by
  have hstart : (Trace.start id serial x).tape.dependents = #[] := rfl
  have hsize := (f.trace (.start id serial x)).size_dependents_marked (Nat.le_refl m)
  rw [dependents_trace, hstart, Array.size_empty, Nat.zero_add] at hsize
  exact hsize

variable {f : Routine F m n} {id : TapeId} {serial : Nat} {x : Fin n → F}

/-- The invariant at the end of the code, before the answers are marked. -/
theorem sound (hfit : (f.tape id serial x).values.size ≤ Handle.reservedLocation.toNat) :
    (f.trace (.start id serial x)).Sound :=
  f.trace_sound (Trace.sound_start id serial (Nat.le_trans (f.inputs_le_size_tape ..) hfit))
    (Nat.le_trans (f.size_trace_le_tape ..) hfit)

/-- A recording that fits gives a tape with both invariants: what is needed to replay it. -/
theorem tape_sound (hfit : (f.tape id serial x).values.size ≤ Handle.reservedLocation.toNat) :
    (f.tape id serial x).Recorded ∧ (f.tape id serial x).Faithful :=
  (sound hfit).finish (Nat.lt_of_le_of_lt hfit Tape.reserved_lt)

end Routine

/-! ## Running is tracing

  Three runs in a row, each of which does what the trace says: binding the inputs, the code itself,
  and marking its answers. -/

section Run

variable {C : Width → Type} {w : Width} [Scalar (C w)] [Elementary (C w)] {i : ThreadId}

omit [Scalar (C w)] [Elementary (C w)] in
/-- Binding the inputs answers their handles and leaves the tape of the inputs. -/
theorem independents_yields (s : Session w) (x : Fin n → C w) :
    (s.independents (Array.ofFn x) : RecorderT C Id (Array (Handle (C w)))).Yields i
      { id := s.id, session := s.serial } (Array.ofFn (Trace.start s.id s.serial x).handles)
      (Trace.start s.id s.serial x).tape := by
  unfold Session.independents
  rw [← Tape.ofInputs_extract_zero s.id s.serial x, ← Tape.ofInputs_extract_all s.id s.serial x]
  -- after `k` calls the tape is that of the first `k` inputs
  refine yields_mapM_ofFn
    (T := fun k => Tape.ofInputs s.id s.serial ((Array.ofFn x).extract 0 k)) fun k => ?_
  have hsize := Tape.size_ofInputs_extract s.id s.serial x (Nat.le_of_lt k.isLt)
  have hnext : (Tape.ofInputs s.id s.serial ((Array.ofFn x).extract 0 k)).nextLocation =
      k.val.toUInt32 := by
    unfold Tape.nextLocation
    rw [hsize]
  have hy := Session.independent_yields (C := C) (i := i) (s := s)
    (t := Tape.ofInputs s.id s.serial ((Array.ofFn x).extract 0 k)) rfl rfl (x k)
  rw [hnext] at hy
  rw [Tape.ofInputs_extract_succ]
  exact hy

/-- Splitting a handle answers a handle and the exponent, which the trace knows as well. -/
theorem frexp_yields {S : Trace (C w) n} (h : S.Sound) (a : Ref (C w) n) :
    ∃ y, (S.frexp a).handles = extend y S.handles ∧
      ((a.get S.handles).frexp : RecorderT C Id (Handle (C w) × Int32)).Yields i S.tape
        (y, .ofInt (frexpExponent (a.get S.handles).value)) (S.frexp a).tape := by
  obtain ⟨y, hhandles, hy⟩ :=
    unary_yields h .frexp (fun v => .exponent (.ofInt (frexpExponent v))) a i
  exact ⟨y, hhandles, hy.bind (yields_pure _)⟩

/-- No call of the routine fails, and it answers and records what its trace says. -/
theorem Routine.run_yields (f : Routine (C w) m n) {S : Trace (C w) n} (h : S.Sound)
    (hfit : (f.trace S).tape.values.size ≤ Handle.reservedLocation.toNat) :
    (f.run S.handles : RecorderT C Id _).Yields i S.tape (f.trace S).handles (f.trace S).tape := by
  induction f with
  | answer out => exact yields_pure _
  | constant c rest ih => exact ih (h.constant c) hfit
  | apply op a rest ih =>
    -- the call answers the handle that the trace goes on with
    obtain ⟨y, hhandles, hy⟩ := unary_yields h op.opcode (fun v => op.aux v) a i
    refine hy.bind ?_
    rw [← hhandles]
    exact ih (h.apply_of_fit (Nat.le_trans (rest.size_le_trace _) hfit)) hfit
  | frexp a rest ih =>
    -- and the exponent, by which both go on with the same code
    obtain ⟨y, hhandles, hy⟩ := frexp_yields (i := i) h a
    refine hy.bind ?_
    show RecorderT.Yields ((rest _).run (extend y S.handles)) _ _ _ _
    rw [← hhandles]
    exact ih _ (h.frexp_of_fit (Nat.le_trans ((rest _).size_le_trace _) hfit)) hfit
  | combine op a b rest ih =>
    obtain ⟨y, hhandles, hy⟩ := combine_yields h op a b i
    refine hy.bind ?_
    rw [← hhandles]
    exact ih (h.combine_of_fit (Nat.le_trans (rest.size_le_trace _) hfit)) hfit

/-- The same of the routine on arrays: each handle is found where the array has it. -/
theorem Routine.body_yields (f : Routine (C w) m n) {S : Trace (C w) n} (h : S.Sound)
    (hfit : (f.trace S).tape.values.size ≤ Handle.reservedLocation.toNat) :
    (f.body (Array.ofFn S.handles) : RecorderT C Id _).Yields i S.tape
      (Array.ofFn (f.trace S).handles) (f.trace S).tape := by
  have hget : (fun k : Fin n => (Array.ofFn S.handles)[k]?.getD (.constant 0)) = S.handles := by
    funext k
    simp
  unfold body
  rw [hget]
  exact (f.run_yields h hfit).bind (yields_pure _)

/-- Marking the answers one after the other answers their values and leaves the finished tape. -/
theorem dependents_yields {s : Session w} {S : Trace (C w) m} (h : S.Sound)
    (hfit : S.finish.values.size < UInt32.size) (hid : S.tape.id = s.id)
    (hsession : S.tape.session = s.serial) :
    ((Array.ofFn S.handles).mapM s.dependent : RecorderT C Id (Array (C w))).Yields i S.tape
      (Array.ofFn fun j => (S.handles j).value) S.finish := by
  -- after `k` calls the first `k` handles are marked
  refine yields_mapM_ofFn (T := fun k => (S.marked k).tape) fun k => ?_
  have hon := (h.marked hfit (Nat.le_of_lt k.isLt)).on k
  have hy := Session.dependent_yields (i := i) ((S.id_marked k).trans hid)
    ((S.session_marked k).trans hsession) hon
  rw [S.handles_marked] at hy
  rw [S.marked_succ]
  show RecorderT.Yields _ _ _ _ (Session.appendDependent ((S.marked k).handles k) _)
  rw [S.handles_marked]
  exact hy

/-- On an idle recorder a whole recording succeeds, if its code does what the trace `S` says. -/
theorem record_of_idle {r : Recorder C} (hidle : r.Idle w i) (store : StoreName) (id : TapeId)
    {x : Fin n → C w} {body : Array (Handle (C w)) → RecorderT C Id (Array (Handle (C w)))}
    {S : Trace (C w) m} (h : S.Sound) (hid : S.tape.id = id)
    (hsession : S.tape.session = r.nextSerial) (hcapacity : n * 10 ≤ Tape.maxCapacity)
    (hfit : S.finish.values.size < UInt32.size)
    (hbody : (body (Array.ofFn (Trace.start id r.nextSerial x).handles)).Yields i
      (Trace.start id r.nextSerial x).tape (Array.ofFn S.handles) S.tape) :
    ∃ r', (record store id (Array.ofFn x) body).exec i r =
        (.ok (Array.ofFn fun j => (S.handles j).value), r') ∧
      r'.sealed? w store id = some S.finish := by
  obtain ⟨hprocess, hslot⟩ := hidle
  have hroom : (Array.ofFn x).size * 10 ≤ Tape.maxCapacity := by
    rw [Array.size_ofFn]
    exact hcapacity
  have hbegin := Session.beginTraceWithCapacity_of_idle hprocess hslot hroom store id
  have hopened : (Session.opened r w i store id).slot? w i =
      some { id, session := r.nextSerial } := Recorder.slot?_putSlot_self _ i _
  -- what happens in the session takes the empty tape in the slot to the whole tape
  have hyields : RecorderT.Yields
      (Session.tracing { store, id, serial := r.nextSerial } (Array.ofFn x) body)
      i { id, session := r.nextSerial } (Array.ofFn fun j => (S.handles j).value) S.finish :=
    (independents_yields { store, id, serial := r.nextSerial } x).bind
      (hbody.bind (dependents_yields h hfit hid hsession))
  -- so that there is a tape to seal at the end
  obtain ⟨r₁, hrun, hslot₁⟩ := hyields _ hopened
  obtain ⟨r₂, hend, hsealed⟩ := Recorder.endTrace_of_slot
    (s := { store, id, serial := r.nextSerial }) hslot₁ ((S.id_marked m).trans hid)
  exact ⟨r₂, record_of_traced hbegin hrun hend, hsealed⟩

end Run

end DiffTape
