/-
  STRAIGHT-LINE PROGRAMS.

  A `Program` is traced code that does not branch: a sequence of statements, each of which binds
  an independent, makes a constant, applies an operation to numbers and earlier handles, or marks
  a handle as a dependent.  A statement that answers a handle binds it for the statements after
  it; the index of a handle counts back from the newest.  So a program cannot refer to a handle
  that is not there, and all that a run of it depends on is the inputs.

    `Program.run`    — the program, as calls in an open session
    `Program.record` — a whole session around it
    `Program.trace`  — what it records, as a function of tapes

  `run_yields`: as long as locations last, no call fails, and what is recorded is the trace.
-/
import DiffTape.Proofs.Reproduction
import DiffTape.Proofs.Runs

namespace DiffTape

/-! ## Programs -/

/-- What an operation is applied to. -/
inductive Ref (F : Type) (n : Nat) where
  /-- A number, as a constant. -/
  | literal (c : F)
  /-- One of the `n` handles so far. -/
  | handle (k : Fin n)

/-- A straight-line program that can use `n` handles. -/
inductive Program (F : Type) : Nat → Type where
  | done {n : Nat} : Program F n
  | independent {n : Nat} (rest : Program F (n + 1)) : Program F n
  | constant {n : Nat} (c : F) (rest : Program F (n + 1)) : Program F n
  | apply {n : Nat} (op : UnaryOp) (x : Ref F n) (rest : Program F (n + 1)) : Program F n
  | combine {n : Nat} (op : BinaryOp) (x y : Ref F n) (rest : Program F (n + 1)) : Program F n
  | dependent {n : Nat} (k : Fin n) (rest : Program F n) : Program F n

variable {F α : Type} {n : Nat}

/-- The bindings with one more, the newest. -/
def extend (a : α) (h : Fin n → α) : Fin (n + 1) → α := fun k => k.cases a h

/-- What holds of the newest binding and of all before it holds of all: how every invariant of the
    handles goes on. -/
theorem forall_extend {P : α → Prop} {a : α} {h : Fin n → α} (ha : P a) (hh : ∀ k, P (h k)) :
    ∀ k, P (extend a h k) := by
  intro k
  cases k using Fin.cases with
  | zero => exact ha
  | succ k => exact hh k

/-- Looking at the bindings one by one commutes with binding one more. -/
theorem comp_extend {β : Type} (f : α → β) (a : α) (h : Fin n → α) :
    (fun k => f (extend a h k)) = extend (f a) fun k => f (h k) := by
  funext k
  cases k using Fin.cases with
  | zero => rfl
  | succ k => rfl

namespace Ref

/-- The handle that is referred to. -/
def get (h : Fin n → Handle F) : Ref F n → Handle F
  | .literal c => .constant c
  | .handle k => h k

/-- It is a constant, where `b` tells which handles are. -/
def isConstant (b : Fin n → Bool) : Ref F n → Bool
  | .literal _ => true
  | .handle k => b k

end Ref

namespace Program

/-- How many independents are bound. -/
def inputs : {n : Nat} → Program F n → Nat
  | _, .done => 0
  | _, .independent rest => rest.inputs + 1
  | _, .constant _ rest => rest.inputs
  | _, .apply _ _ rest => rest.inputs
  | _, .combine _ _ _ rest => rest.inputs
  | _, .dependent _ rest => rest.inputs

/-- How many locations are used, where `b` tells which handles are constants.  Operations on
    constants alone use none, and a constant that is marked as a dependent uses one. -/
def locations : {n : Nat} → Program F n → (Fin n → Bool) → Nat
  | _, .done, _ => 0
  | _, .independent rest, b => rest.locations (extend false b) + 1
  | _, .constant _ rest, b => rest.locations (extend true b)
  | _, .apply _ x rest, b =>
    if x.isConstant b then rest.locations (extend true b) else rest.locations (extend false b) + 1
  | _, .combine _ x y rest, b =>
    if x.isConstant b && y.isConstant b then rest.locations (extend true b)
    else rest.locations (extend false b) + 1
  | _, .dependent k rest, b => if b k then rest.locations b + 1 else rest.locations b

end Program

/-! ## Running a program -/

section Run

variable {C : Width → Type} {w : Width} [Scalar (C w)] [Elementary (C w)]

/-- The calls of a program in an open session. -/
def Program.run (s : Session w) : {n : Nat} → (P : Program (C w) n) → (Fin P.inputs → C w) →
    (Fin n → Handle (C w)) → RecorderT C Id Unit
  | _, .done, _, _ => pure ()
  | _, .independent rest, x, h => do
    let y ← s.independent (x (0 : Fin (rest.inputs + 1)))
    rest.run s (fun k => x k.succ) (extend y h)
  | _, .constant c rest, x, h => rest.run s x (extend (.constant c) h)
  | _, .apply op a rest, x, h => do
    let y ← (a.get h).apply op
    rest.run s x (extend y h)
  | _, .combine op a b rest, x, h => do
    let y ← (a.get h).combine op (b.get h)
    rest.run s x (extend y h)
  | _, .dependent k rest, x, h => do
    let _ ← s.dependent (h k)
    rest.run s x h

/-- A whole session around a program. -/
def Program.record (P : Program (C w) 0) (store : StoreName) (id : TapeId)
    (x : Fin P.inputs → C w) : RecorderT C Id TapeStats := do
  let s ← beginTrace w store id
  P.run s x Fin.elim0
  s.endTrace

end Run

/-! ## What a program records

  The trace is what a run would do, told without a recorder: the tape and the handles after each
  statement.  Its operations are those of the run with the checks left out, for of a trace it is
  proved that no check would fail. -/

/-- A recording under way: the tape so far, and the handles so far. -/
structure Trace (F : Type) (n : Nat) where
  tape : Tape F
  handles : Fin n → Handle F

namespace Trace

/-- A value was recorded on `t`, the tape with one more value. -/
def record (S : Trace F n) (t : Tape F) (v : F) : Trace F (n + 1) :=
  ⟨t, extend (.place v S.tape.nextLocation S.tape.id S.tape.session) S.handles⟩

/-- A constant is made: the tape knows nothing of it. -/
def constant (S : Trace F n) (c : F) : Trace F (n + 1) := ⟨S.tape, extend (.constant c) S.handles⟩

/-- An input is bound at the next location. -/
def independent (S : Trace F n) (v : F) : Trace F (n + 1) :=
  S.record (S.tape.appendIndependent v) v

/-- A handle is marked; a constant is recorded first. -/
def dependent (S : Trace F n) (k : Fin n) : Trace F n :=
  ⟨Session.appendDependent (S.handles k) S.tape, S.handles⟩

/-- Which handles are constants. -/
def constants (S : Trace F n) : Fin n → Bool := fun k => (S.handles k).isConstant

variable [Scalar F] [Elementary F]

/-- An operation of one operand, with aux data that depend on the value. -/
def unary (S : Trace F n) (op : Opcode) (aux : F → Aux) (a : Ref F n) : Trace F (n + 1) :=
  let x := a.get S.handles
  let v := evalValue op x.value 0 (aux x.value)
  if a.isConstant S.constants then S.constant v
  else S.record (S.tape.appendEntry op x.operand .unused (aux x.value) v) v

def apply (S : Trace F n) (op : UnaryOp) (a : Ref F n) : Trace F (n + 1) :=
  S.unary op.opcode (fun v => op.aux v) a

/-- The exponent is found at the value. -/
def frexp (S : Trace F n) (a : Ref F n) : Trace F (n + 1) :=
  S.unary .frexp (fun v => .exponent (.ofInt (frexpExponent v))) a

def combine (S : Trace F n) (op : BinaryOp) (a b : Ref F n) : Trace F (n + 1) :=
  let x := a.get S.handles
  let y := b.get S.handles
  let v := evalValue op.opcode x.value y.value .none
  if a.isConstant S.constants && b.isConstant S.constants then S.constant v
  else S.record (S.tape.appendEntry op.opcode x.operand y.operand .none v) v

/-- What an entry leaves alone, an operation leaves alone. -/
theorem unary_keeps {β : Type} {π : Tape F → β}
    (h : ∀ t op lhs rhs aux v, π (t.appendEntry op lhs rhs aux v) = π t) (S : Trace F n)
    (op : Opcode) (aux : F → Aux) (a : Ref F n) : π (S.unary op aux a).tape = π S.tape := by
  unfold unary
  split
  · rfl
  · exact h ..

/-- The same of a binary operation. -/
theorem combine_keeps {β : Type} {π : Tape F → β}
    (h : ∀ t op lhs rhs aux v, π (t.appendEntry op lhs rhs aux v) = π t) (S : Trace F n)
    (op : BinaryOp) (a b : Ref F n) : π (S.combine op a b).tape = π S.tape := by
  unfold combine
  split
  · rfl
  · exact h ..

/-- The tape keeps its name while code is traced on it. -/
theorem id_unary (S : Trace F n) (op : Opcode) (aux : F → Aux) (a : Ref F n) :
    (S.unary op aux a).tape.id = S.tape.id :=
  unary_keeps (π := Tape.id) (fun _ _ _ _ _ _ => rfl) S op aux a

/-- And it stays the tape of its session. -/
theorem session_unary (S : Trace F n) (op : Opcode) (aux : F → Aux) (a : Ref F n) :
    (S.unary op aux a).tape.session = S.tape.session :=
  unary_keeps (π := Tape.session) (fun _ _ _ _ _ _ => rfl) S op aux a

theorem id_combine (S : Trace F n) (op : BinaryOp) (a b : Ref F n) :
    (S.combine op a b).tape.id = S.tape.id :=
  combine_keeps (π := Tape.id) (fun _ _ _ _ _ _ => rfl) S op a b

/-- Both are kept by a binary operation too. -/
theorem session_combine (S : Trace F n) (op : BinaryOp) (a b : Ref F n) :
    (S.combine op a b).tape.session = S.tape.session :=
  combine_keeps (π := Tape.session) (fun _ _ _ _ _ _ => rfl) S op a b

end Trace

/-- The tape that a program records, after what was recorded before. -/
def Program.trace [Scalar F] [Elementary F] :
    {n : Nat} → (P : Program F n) → (Fin P.inputs → F) → Trace F n → Tape F
  | _, .done, _, S => S.tape
  | _, .independent rest, x, S =>
    rest.trace (fun k => x k.succ) (S.independent (x (0 : Fin (rest.inputs + 1))))
  | _, .constant c rest, x, S => rest.trace x (S.constant c)
  | _, .apply op a rest, x, S => rest.trace x (S.apply op a)
  | _, .combine op a b rest, x, S => rest.trace x (S.combine op a b)
  | _, .dependent k rest, x, S => rest.trace x (S.dependent k)

/-- A whole program records on one tape, of the id it started with. -/
theorem Program.id_trace [Scalar F] [Elementary F] (P : Program F n) (x : Fin P.inputs → F)
    (S : Trace F n) : (P.trace x S).id = S.tape.id := by
  induction P with
  | done => rfl
  | independent rest ih => exact ih _ _
  | constant c rest ih => exact ih _ _
  | apply op a rest ih => exact (ih x _).trans (S.id_unary _ _ a)
  | combine op a b rest ih => exact (ih x _).trans (S.id_combine op a b)
  | dependent k rest ih => exact (ih x _).trans (Session.id_appendDependent _ _)

/-! ## What a trace keeps

  The invariant `Sound` says that the tape is as recorders make it, and that every handle is on it
  and shows the value recorded there.  Each statement keeps it as long as there is a location to
  record at: the reserved location marks constants, and a value recorded there would be lost to its
  handle. -/

namespace Ref

/-- The static side, which counts locations, and the run agree on what is a constant. -/
theorem isConstant_eq (a : Ref F n) (S : Trace F n) :
    a.isConstant S.constants = (a.get S.handles).isConstant := by
  cases a with
  | literal c => rfl
  | handle k => rfl

/-- What holds of all constants and of all handles so far holds of everything that is referred
    to. -/
theorem forall_get {P : Handle F → Prop} {h : Fin n → Handle F} (hc : ∀ c, P (.constant c))
    (hh : ∀ k, P (h k)) (a : Ref F n) : P (a.get h) := by
  cases a with
  | literal c => exact hc c
  | handle k => exact hh k

end Ref

/-- What the handle says of itself is that it has no mark. -/
theorem Handle.isConstant_eq_true_iff {x : Handle F} : x.isConstant = true ↔ x.mark = none :=
  Option.isNone_iff_eq_none

/-- A handle that is placed at a location that is not reserved is no constant. -/
theorem Handle.place_eq {v : F} {loc : Location} {tape : TapeId} {session : Nat}
    (h : loc ≠ reservedLocation) : place v loc tape session = ⟨v, some ⟨loc, tape, session⟩⟩ :=
  if_neg h

/-- Whose handle it is does not show in its operand. -/
theorem Handle.operand_place (v : F) (loc : Location) (tape tape' : TapeId)
    (session session' : Nat) :
    (place v loc tape session).operand = (place v loc tape' session').operand := by
  unfold place
  split
  · rfl
  · rfl

/-- The next location of a tape that has fewer locations than there are words is not reserved. -/
theorem Tape.nextLocation_ne_reserved {t : Tape F}
    (h : t.values.size < Handle.reservedLocation.toNat) :
    t.nextLocation ≠ Handle.reservedLocation := by
  intro heq
  -- below the number of words the next location is the count itself, which is smaller
  have hsize := t.toNat_nextLocation (Nat.lt_trans h Tape.reserved_lt)
  rw [heq] at hsize
  omega

/-- A constant can be used on any tape. -/
theorem Handle.on_constant (c : F) (t : Tape F) : (constant c).On t :=
  fun _ hm => nomatch hm

/-- And there is nothing that it has to show on a tape. -/
theorem Handle.shows_constant [Scalar F] (c : F) (t : Tape F) : (constant c).Shows t :=
  fun _ hm => nomatch hm

namespace Trace

section Constants

variable {S : Trace F n}

/-- A constant that is made is a constant, also for the count. -/
theorem constants_constant (S : Trace F n) (c : F) :
    (S.constant c).constants = extend true S.constants :=
  comp_extend Handle.isConstant _ _

/-- A value that is recorded is none, unless its location is the reserved one. -/
theorem constants_record (h : S.tape.values.size < Handle.reservedLocation.toNat) (t : Tape F)
    (v : F) : (S.record t v).constants = extend false S.constants := by
  refine (comp_extend Handle.isConstant _ _).trans ?_
  rw [Handle.place_eq (S.tape.nextLocation_ne_reserved h)]
  rfl

end Constants

/-- The locations when the program has run. -/
def total (S : Trace F n) (P : Program F n) : Nat := S.tape.values.size + P.locations S.constants

/-- A constant takes no location, so the count of the rest is that of the whole. -/
theorem total_constant (S : Trace F n) (c : F) (rest : Program F (n + 1)) :
    (S.constant c).total rest = S.tape.values.size + rest.locations (extend true S.constants) := by
  unfold total
  rw [constants_constant]
  rfl

/-- What is recorded takes one, and the rest of the program those that are left. -/
theorem total_record {S : Trace F n} (h : S.tape.values.size < Handle.reservedLocation.toNat)
    {t : Tape F} {v : F}
    (hpush : t.values = S.tape.values.push v) (rest : Program F (n + 1)) :
    (S.record t v).total rest =
      S.tape.values.size + (rest.locations (extend false S.constants) + 1) := by
  unfold total
  rw [constants_record h]
  show t.values.size + _ = _
  rw [hpush, Array.size_push]
  omega

/-- The count asks what the run will ask: is there anything to record? -/
theorem total_apply (S : Trace F n) (op : UnaryOp) (a : Ref F n) (rest : Program F (n + 1)) :
    S.total (.apply op a rest) = S.tape.values.size +
      if a.isConstant S.constants then rest.locations (extend true S.constants)
      else rest.locations (extend false S.constants) + 1 :=
  rfl

/-- Two operands are folded only if both are constants. -/
theorem total_combine (S : Trace F n) (op : BinaryOp) (a b : Ref F n)
    (rest : Program F (n + 1)) :
    S.total (.combine op a b rest) = S.tape.values.size +
      if a.isConstant S.constants && b.isConstant S.constants then
        rest.locations (extend true S.constants)
      else rest.locations (extend false S.constants) + 1 :=
  rfl

/-- Of the things that are marked, the constants take a location. -/
theorem total_dependent (S : Trace F n) (k : Fin n) (rest : Program F n) :
    S.total (.dependent k rest) = S.tape.values.size +
      if (S.handles k).isConstant then rest.locations S.constants + 1
      else rest.locations S.constants :=
  rfl

section Room

variable {S : Trace F n} {rest : Program F (n + 1)}

/-- A program that fits still has a location for the statement it comes to, if that records. -/
theorem room_independent (hfit : S.total (.independent rest) ≤ Handle.reservedLocation.toNat) :
    S.tape.values.size < Handle.reservedLocation.toNat := by
  unfold total Program.locations at hfit
  omega

/-- The same for a unary operation, which records on what is no constant. -/
theorem room_apply {op : UnaryOp} {a : Ref F n}
    (hfit : S.total (.apply op a rest) ≤ Handle.reservedLocation.toNat)
    (hc : ¬ a.isConstant S.constants = true) :
    S.tape.values.size < Handle.reservedLocation.toNat := by
  rw [total_apply, if_neg hc] at hfit
  omega

/-- And for a binary one, which records unless both operands are constants. -/
theorem room_combine {op : BinaryOp} {a b : Ref F n}
    (hfit : S.total (.combine op a b rest) ≤ Handle.reservedLocation.toNat)
    (hc : ¬ (a.isConstant S.constants && b.isConstant S.constants) = true) :
    S.tape.values.size < Handle.reservedLocation.toNat := by
  rw [total_combine, if_neg hc] at hfit
  omega

end Room

variable [Scalar F] [Elementary F]

/-- The invariant of a recording under way. -/
structure Sound (S : Trace F n) : Prop where
  recorded : S.tape.Recorded
  faithful : S.tape.Faithful
  on : ∀ k, (S.handles k).On S.tape
  shows : ∀ k, (S.handles k).Shows S.tape

/-- A session opens with a sound trace. -/
theorem sound_empty (id : TapeId) (session : Nat) :
    Sound (⟨{ id, session }, Fin.elim0⟩ : Trace F 0) :=
  ⟨Tape.recorded_empty id session, Tape.faithful_empty id session, fun k => k.elim0,
    fun k => k.elim0⟩

namespace Sound

variable {S : Trace F n}

/-- Whatever a statement refers to can be used on the tape. -/
theorem on_get (h : S.Sound) (a : Ref F n) : (a.get S.handles).On S.tape :=
  Ref.forall_get (P := fun x => Handle.On x S.tape) (fun c => Handle.on_constant c _) h.on a

/-- And its value is what the tape has recorded for it. -/
theorem shows_get (h : S.Sound) (a : Ref F n) : (a.get S.handles).Shows S.tape :=
  Ref.forall_get (P := fun x => Handle.Shows x S.tape) (fun c => Handle.shows_constant c _)
    h.shows a

/-- A constant is on every tape, and shows nothing of any. -/
theorem constant (h : S.Sound) (c : F) : (S.constant c).Sound :=
  ⟨h.recorded, h.faithful,
    forall_extend (P := fun x => Handle.On x S.tape) (Handle.on_constant c _) h.on,
    forall_extend (P := fun x => Handle.Shows x S.tape) (Handle.shows_constant c _) h.shows⟩

/-- The handles stay sound when the tape goes on in its session and keeps its values. -/
theorem of_tape (h : S.Sound) {t : Tape F} (hid : t.id = S.tape.id)
    (hsession : t.session = S.tape.session) (hrec : t.Recorded) (hfaithful : t.Faithful)
    (hnext : S.tape.nextLocation ≤ t.nextLocation)
    (hvalues : ∀ loc a, S.tape.recordedValue? loc = some a → t.recordedValue? loc = some a) :
    Sound (⟨t, S.handles⟩ : Trace F n) := by
  refine ⟨hrec, hfaithful, fun k m hm => ?_, fun k m hm => hvalues _ _ (h.shows k m hm)⟩
  obtain ⟨htape, hserial, hloc⟩ := h.on k m hm
  exact ⟨htape.trans hid.symm, hserial.trans hsession.symm, UInt32.lt_of_lt_of_le hloc hnext⟩

/-- One more value on the tape, and a handle of it. -/
theorem record (h : S.Sound) (hsize : S.tape.values.size < Handle.reservedLocation.toNat)
    {t : Tape F} {v : F} (hpush : t.values = S.tape.values.push v) (hid : t.id = S.tape.id)
    (hsession : t.session = S.tape.session) (hrec : t.Recorded) (hfaithful : t.Faithful) :
    (S.record t v).Sound := by
  have hlt : S.tape.values.size < UInt32.size := Nat.lt_trans hsize Tape.reserved_lt
  -- the new handle is at what was the next location, which is not cut yet
  have hnext : S.tape.nextLocation < t.nextLocation := by
    refine Tape.lt_nextLocation ?_ ?_
    · rw [hpush, Array.size_push]
      exact Nat.lt_of_le_of_lt hsize Tape.reserved_lt
    · rw [Tape.toNat_nextLocation hlt, hpush, Array.size_push]
      exact Nat.lt_succ_self _
  have hold := h.of_tape hid hsession hrec hfaithful (UInt32.le_of_lt hnext)
    fun _ _ ha => Tape.recordedValue?_of_push hpush ha
  refine ⟨hrec, hfaithful, forall_extend (P := fun x => Handle.On x t) (fun m hm => ?_) hold.on,
    forall_extend (P := fun x => Handle.Shows x t) (fun m hm => ?_) hold.shows⟩
  -- the new handle: its mark is what it was placed at, and its value the one that was appended
  · obtain ⟨rfl, -⟩ := Handle.mark_place hm
    exact ⟨hid.symm, hsession.symm, hnext⟩
  · obtain ⟨rfl, hvalue⟩ := Handle.mark_place hm
    rw [hvalue]
    exact Tape.recordedValue?_push_next hpush hlt

/-- An operation of one operand, if there is a location for its result. -/
theorem unary (h : S.Sound) {op : Opcode} {aux : F → Aux} {a : Ref F n} (harity : op.arity = 1)
    (hop : op ≠ .const) (haux : ∀ v, (aux v).Fits op)
    (hbranch : ∀ v b, (aux v).branch? = some b → b = .of v)
    (hroom : ¬ a.isConstant S.constants = true →
      S.tape.values.size < Handle.reservedLocation.toNat) : (S.unary op aux a).Sound := by
  unfold Trace.unary
  by_cases hc : a.isConstant S.constants = true
  · rw [if_pos hc]
    exact h.constant _
  · -- the operand is at a location of this tape, and has there the value that the handle shows
    rw [if_neg hc]
    have hsize := hroom hc
    have hmark : (a.get S.handles).mark ≠ none := by
      rwa [a.isConstant_eq, Handle.isConstant_eq_true_iff] at hc
    have hon := h.on_get a
    have hread := (h.shows_get a).read_operand
    refine h.record hsize rfl rfl rfl (h.recorded.appendEntry hon.below (Operand.below_unused _)
      (Handle.shaped_unary hmark harity hop (haux _) _) _) ?_
    refine h.faithful.appendEntry h.recorded (Nat.lt_trans hsize Tape.reserved_lt) hon.below
      (Operand.below_unused _) ?_ ?_
    · rw [hread]
      rfl
    · -- and the branch is taken at that value
      rw [hread]
      exact hbranch _

/-- An operation of two operands, in the same way: one handle that is no constant makes it an
    entry. -/
theorem combine_of_room (h : S.Sound) (op : BinaryOp) (a b : Ref F n)
    (hroom : ¬ (a.isConstant S.constants && b.isConstant S.constants) = true →
      S.tape.values.size < Handle.reservedLocation.toNat) : (S.combine op a b).Sound := by
  unfold Trace.combine
  by_cases hc : (a.isConstant S.constants && b.isConstant S.constants) = true
  · rw [if_pos hc]
    exact h.constant _
  · -- a literal operand reads as the number of its constant, so both are read as the handles show
    rw [if_neg hc]
    have hsize := hroom hc
    have hmark : (a.get S.handles).mark ≠ none ∨ (b.get S.handles).mark ≠ none := by
      rwa [Bool.and_eq_true, a.isConstant_eq, b.isConstant_eq, Handle.isConstant_eq_true_iff,
        Handle.isConstant_eq_true_iff, not_and_or] at hc
    have haon := h.on_get a
    have hbon := h.on_get b
    have haread := (h.shows_get a).read_operand
    have hbread := (h.shows_get b).read_operand
    refine h.record hsize rfl rfl rfl (h.recorded.appendEntry haon.below hbon.below
      (Handle.shaped_binary hmark op.arity_opcode _) _) ?_
    refine h.faithful.appendEntry h.recorded (Nat.lt_trans hsize Tape.reserved_lt) haon.below
      hbon.below ?_ fun _ hb => nomatch hb
    rw [haread, hbread]

/-- Marking a handle appends to the tape, and a constant gets the last location at worst. -/
theorem dependent_of_room (h : S.Sound) (k : Fin n)
    (hlt : (S.dependent k).tape.values.size < UInt32.size) : (S.dependent k).Sound := by
  have hle : S.tape.values.size ≤ (S.dependent k).tape.values.size := by
    show _ ≤ (Session.appendDependent (S.handles k) S.tape).values.size
    rw [Session.size_appendDependent]
    split
    · exact Nat.le_succ _
    · exact Nat.le_refl _
  -- not cut, the next location is the number of values, which does not decrease
  have hnext : S.tape.nextLocation ≤ (S.dependent k).tape.nextLocation := by
    rw [UInt32.le_iff_toNat_le, Tape.toNat_nextLocation hlt,
      Tape.toNat_nextLocation (Nat.lt_of_le_of_lt hle hlt)]
    exact hle
  refine h.of_tape (Session.id_appendDependent _ _) (Session.session_appendDependent _ _)
    (Session.recorded_appendDependent h.recorded fun m hm => ?_)
    (Session.faithful_appendDependent h.faithful h.recorded (Nat.lt_of_le_of_lt hle hlt) _)
    hnext fun _ _ ha => Session.recordedValue?_appendDependent ha _
  exact Nat.lt_of_lt_of_le (UInt32.lt_iff_toNat_lt.mp (h.on k m hm).2.2) S.tape.nextLocation_le

end Sound

section Steps

variable {S : Trace F n} {rest : Program F (n + 1)}

/-- Binding an independent. -/
theorem Sound.independent (h : S.Sound)
    (hfit : S.total (.independent rest) ≤ Handle.reservedLocation.toNat) (v : F) :
    (S.independent v).Sound ∧ (S.independent v).total rest = S.total (.independent rest) := by
  have hsize := room_independent hfit
  refine ⟨h.record hsize rfl rfl rfl (h.recorded.appendIndependent v)
    (h.faithful.appendIndependent h.recorded (Nat.lt_trans hsize Tape.reserved_lt) v), ?_⟩
  exact total_record hsize rfl rest

/-- A unary operation. -/
theorem Sound.apply (h : S.Sound) {op : UnaryOp} {a : Ref F n}
    (hfit : S.total (.apply op a rest) ≤ Handle.reservedLocation.toNat) :
    (S.apply op a).Sound ∧ (S.apply op a).total rest = S.total (.apply op a rest) := by
  have hroom := room_apply hfit
  refine ⟨h.unary op.arity_opcode op.opcode_ne_const (op.aux_fits ·) (fun _ _ => UnaryOp.aux_branch)
    hroom, ?_⟩
  rw [total_apply]
  unfold Trace.apply Trace.unary
  -- the count and the trace branch on the same question
  by_cases hc : a.isConstant S.constants = true
  · rw [if_pos hc, if_pos hc, total_constant]
  · rw [if_neg hc, if_neg hc]
    exact total_record (hroom hc) rfl rest

/-- A binary operation. -/
theorem Sound.combine (h : S.Sound) {op : BinaryOp} {a b : Ref F n}
    (hfit : S.total (.combine op a b rest) ≤ Handle.reservedLocation.toNat) :
    (S.combine op a b).Sound ∧ (S.combine op a b).total rest = S.total (.combine op a b rest) := by
  have hroom := room_combine hfit
  refine ⟨h.combine_of_room op a b hroom, ?_⟩
  rw [total_combine]
  unfold Trace.combine
  by_cases hc : (a.isConstant S.constants && b.isConstant S.constants) = true
  · rw [if_pos hc, if_pos hc, total_constant]
  · rw [if_neg hc, if_neg hc]
    exact total_record (hroom hc) rfl rest

/-- Marking a dependent. -/
theorem Sound.dependent (h : S.Sound) {k : Fin n} {rest : Program F n}
    (hfit : S.total (.dependent k rest) ≤ Handle.reservedLocation.toNat) :
    (S.dependent k).Sound ∧ (S.dependent k).total rest = S.total (.dependent k rest) := by
  have hsize := Session.size_appendDependent (S.handles k) S.tape
  rw [total_dependent] at hfit ⊢
  constructor
  · -- a constant takes a location when it is marked, which may be the last one
    refine h.dependent_of_room k ?_
    show (Session.appendDependent (S.handles k) S.tape).values.size < UInt32.size
    have hres := Tape.reserved_lt
    split at hfit
    · rw [hsize, if_pos ‹_›]
      omega
    · rw [hsize, if_neg ‹_›]
      omega
  · show (Session.appendDependent (S.handles k) S.tape).values.size + rest.locations S.constants =
      _
    rw [hsize]
    split
    · omega
    · rfl

end Steps

end Trace

/-- What a program records is sound, and as long as was counted, by induction on the program.  Each
    statement hands the same total on to the rest, so the one bound is one at every statement. -/
theorem Program.trace_sound [Scalar F] [Elementary F] (P : Program F n) (x : Fin P.inputs → F)
    {S : Trace F n} (h : S.Sound) (hfit : S.total P ≤ Handle.reservedLocation.toNat) :
    (P.trace x S).Recorded ∧ (P.trace x S).Faithful ∧ (P.trace x S).values.size = S.total P := by
  -- `hfit` is rewritten to the total of the rest before the rest is looked at
  induction P with
  | done => exact ⟨h.recorded, h.faithful, rfl⟩
  | independent rest ih =>
    obtain ⟨hs, htotal⟩ := h.independent hfit (x (0 : Fin (rest.inputs + 1)))
    rw [← htotal] at hfit ⊢
    exact ih _ hs hfit
  | constant c rest ih =>
    have htotal : (S.constant c).total rest = S.total (.constant c rest) := S.total_constant c rest
    rw [← htotal] at hfit ⊢
    exact ih x (h.constant c) hfit
  | apply op a rest ih =>
    obtain ⟨hs, htotal⟩ := h.apply hfit
    rw [← htotal] at hfit ⊢
    exact ih x hs hfit
  | combine op a b rest ih =>
    obtain ⟨hs, htotal⟩ := h.combine hfit
    rw [← htotal] at hfit ⊢
    exact ih x hs hfit
  | dependent k rest ih =>
    obtain ⟨hs, htotal⟩ := h.dependent hfit
    rw [← htotal] at hfit ⊢
    exact ih x hs hfit

/-! ## The recorded inputs

  The program decides how many inputs it binds, and when.  In whatever place it binds one, the tape
  has the inputs in the order in which they were bound, and with the values that they got. -/

/-- The values that the independents have on a tape. -/
def Tape.inputValues [Zero F] (t : Tape F) : List F := t.independents.toList.map t.recordedAt

namespace Tape

variable [Scalar F] {t t' : Tape F}

/-- The inputs stay while the tape keeps its values and gets no independent. -/
theorem Recorded.inputValues_eq (hrec : t.Recorded) (hind : t'.independents = t.independents)
    (hvalues : ∀ loc a, t.recordedValue? loc = some a → t'.recordedValue? loc = some a) :
    t'.inputValues = t.inputValues := by
  unfold inputValues
  rw [hind]
  refine List.map_congr_left fun loc hloc => ?_
  -- an independent is a location of the tape, so it has a value, and keeps it
  have hlt := hrec.independents_lt loc (Array.mem_toList_iff.mp hloc)
  have hv := hvalues loc _ (recordedValue?_eq hlt)
  unfold recordedAt
  rw [hv, recordedValue?_eq hlt]

/-- A new independent adds its value at the end of the inputs. -/
theorem Recorded.inputValues_appendIndependent (hrec : t.Recorded)
    (hsize : t.values.size < UInt32.size)
    (v : F) : (t.appendIndependent v).inputValues = t.inputValues ++ [v] := by
  have hpush : (t.appendIndependent v).values = t.values.push v := rfl
  unfold inputValues
  show (t.independents.push t.nextLocation).toList.map _ = _
  rw [Array.toList_push, List.map_append, List.map_singleton, recordedAt_push_next hpush hsize]
  congr 1
  exact List.map_congr_left fun loc hloc =>
    recordedAt_push hpush (hrec.independents_lt loc (Array.mem_toList_iff.mp hloc))

end Tape

namespace Trace.Sound

variable [Scalar F] [Elementary F] {S : Trace F n}

/-- No operation changes an input. -/
theorem inputValues_apply (h : S.Sound) (op : UnaryOp) (a : Ref F n) :
    (S.apply op a).tape.inputValues = S.tape.inputValues := by
  unfold Trace.apply Trace.unary
  split
  · rfl
  · exact h.recorded.inputValues_eq rfl fun _ _ ha => Tape.recordedValue?_of_push rfl ha

/-- The same of a binary operation. -/
theorem inputValues_combine (h : S.Sound) (op : BinaryOp) (a b : Ref F n) :
    (S.combine op a b).tape.inputValues = S.tape.inputValues := by
  unfold Trace.combine
  split
  · rfl
  · exact h.recorded.inputValues_eq rfl fun _ _ ha => Tape.recordedValue?_of_push rfl ha

/-- Nor does marking an answer, even if that appends a value. -/
theorem inputValues_dependent (h : S.Sound) (k : Fin n) :
    (S.dependent k).tape.inputValues = S.tape.inputValues :=
  h.recorded.inputValues_eq (Session.independents_appendDependent _ _)
    fun _ _ ha => Session.recordedValue?_appendDependent ha _

end Trace.Sound

/-- A program binds its inputs in order. -/
theorem Program.inputValues_trace [Scalar F] [Elementary F] (P : Program F n)
    (x : Fin P.inputs → F) {S : Trace F n} (h : S.Sound)
    (hfit : S.total P ≤ Handle.reservedLocation.toNat) :
    (P.trace x S).inputValues = S.tape.inputValues ++ List.ofFn x := by
  induction P with
  | done => exact (List.append_nil _).symm
  | independent rest ih =>
    obtain ⟨hs, htotal⟩ := h.independent hfit (x (0 : Fin (rest.inputs + 1)))
    have hsize : S.tape.values.size < UInt32.size :=
      Nat.lt_trans (Trace.room_independent hfit) Tape.reserved_lt
    rw [← htotal] at hfit
    have hih := ih (fun k => x k.succ) hs hfit
    -- the first input is there now, and the rest of the program binds the others after it
    have hnew : (S.independent (x (0 : Fin (rest.inputs + 1)))).tape.inputValues =
        S.tape.inputValues ++ [x (0 : Fin (rest.inputs + 1))] :=
      h.recorded.inputValues_appendIndependent hsize _
    show (rest.trace _ _).inputValues = _
    rw [hih, hnew, List.append_assoc]
    congr 1
    exact (List.ofFn_succ (f := x)).symm
  | constant c rest ih =>
    have htotal : (S.constant c).total rest = S.total (.constant c rest) := S.total_constant c rest
    rw [← htotal] at hfit
    exact ih x (h.constant c) hfit
  | apply op a rest ih =>
    obtain ⟨hs, htotal⟩ := h.apply hfit
    rw [← htotal] at hfit
    rw [← h.inputValues_apply op a]
    exact ih x hs hfit
  | combine op a b rest ih =>
    obtain ⟨hs, htotal⟩ := h.combine hfit
    rw [← htotal] at hfit
    rw [← h.inputValues_combine op a b]
    exact ih x hs hfit
  | dependent k rest ih =>
    obtain ⟨hs, htotal⟩ := h.dependent hfit
    rw [← htotal] at hfit
    rw [← h.inputValues_dependent k]
    exact ih x hs hfit

/-! ## Running is tracing

  The induction that ties the two together.  On both sides the same statement is next; the call
  answers a handle, and the trace has the same one as its newest. -/

section Run

variable {C : Width → Type} {w : Width} [Scalar (C w)] [Elementary (C w)]

/-- A unary operation on something in a trace answers and records what the trace says. -/
theorem unary_yields {S : Trace (C w) n} (h : S.Sound) (op : Opcode) (aux : C w → Aux)
    (a : Ref (C w) n) (i : ThreadId) :
    ∃ y, (S.unary op aux a).handles = extend y S.handles ∧
      ((a.get S.handles).recordUnary op (aux (a.get S.handles).value) :
        RecorderT C Id (Handle (C w))).Yields i S.tape y (S.unary op aux a).tape := by
  unfold Trace.unary
  by_cases hc : a.isConstant S.constants = true
  · rw [if_pos hc]
    rw [a.isConstant_eq, Handle.isConstant_eq_true_iff] at hc
    exact ⟨_, rfl, Handle.recordUnary_yields_constant _ _ hc _⟩
  · -- the trace asks which handles are constants, the call looks at the mark
    rw [if_neg hc]
    rw [a.isConstant_eq, Handle.isConstant_eq_true_iff] at hc
    exact ⟨_, rfl, Handle.recordUnary_yields _ _ (h.on_get a) hc⟩

/-- A binary operation, in the same way. -/
theorem combine_yields {S : Trace (C w) n} (h : S.Sound) (op : BinaryOp) (a b : Ref (C w) n)
    (i : ThreadId) :
    ∃ y, (S.combine op a b).handles = extend y S.handles ∧
      ((a.get S.handles).combine op (b.get S.handles) : RecorderT C Id (Handle (C w))).Yields i
        S.tape y (S.combine op a b).tape := by
  unfold Trace.combine
  by_cases hc : (a.isConstant S.constants && b.isConstant S.constants) = true
  · -- two constants have no owner, and the call does not look at the slot
    rw [if_pos hc]
    rw [Bool.and_eq_true, a.isConstant_eq, b.isConstant_eq, Handle.isConstant_eq_true_iff,
      Handle.isConstant_eq_true_iff] at hc
    exact ⟨_, rfl, Handle.recordBinary_yields_constant _ hc.1 hc.2 _⟩
  · rw [if_neg hc]
    rw [Bool.and_eq_true, a.isConstant_eq, b.isConstant_eq, Handle.isConstant_eq_true_iff,
      Handle.isConstant_eq_true_iff, not_and_or] at hc
    exact ⟨_, rfl, Handle.recordBinary_yields _ (h.on_get a) (h.on_get b) hc⟩

/-- No call of the program fails, and what it records is the trace. -/
theorem run_yields (s : Session w) (P : Program (C w) n) (x : Fin P.inputs → C w)
    {S : Trace (C w) n} (h : S.Sound) (hfit : S.total P ≤ Handle.reservedLocation.toNat)
    (hid : S.tape.id = s.id) (hsession : S.tape.session = s.serial) (i : ThreadId) :
    (P.run s x S.handles).Yields i S.tape () (P.trace x S) := by
  -- the step of each statement is `Yields.bind`: what its call leaves, the rest finds
  induction P with
  | done => exact yields_pure ()
  | independent rest ih =>
    obtain ⟨hs, htotal⟩ := h.independent hfit (x (0 : Fin (rest.inputs + 1)))
    rw [← htotal] at hfit
    exact (Session.independent_yields hid hsession _).bind
      (ih (fun k => x k.succ) hs hfit hid hsession)
  | constant c rest ih =>
    have htotal : (S.constant c).total rest = S.total (.constant c rest) := S.total_constant c rest
    rw [← htotal] at hfit
    exact ih x (h.constant c) hfit hid hsession
  | apply op a rest ih =>
    obtain ⟨hs, htotal⟩ := h.apply hfit
    -- the call answers the handle with which the trace goes on
    obtain ⟨y, hhandles, hy⟩ := unary_yields h op.opcode (fun v => op.aux v) a i
    rw [← htotal] at hfit
    refine hy.bind ?_
    rw [← hhandles]
    exact ih x hs hfit ((S.id_unary _ _ a).trans hid)
      ((S.session_unary _ _ a).trans hsession)
  | combine op a b rest ih =>
    obtain ⟨hs, htotal⟩ := h.combine hfit
    obtain ⟨y, hhandles, hy⟩ := combine_yields h op a b i
    rw [← htotal] at hfit
    refine hy.bind ?_
    rw [← hhandles]
    exact ih x hs hfit ((S.id_combine op a b).trans hid) ((S.session_combine op a b).trans hsession)
  | dependent k rest ih =>
    obtain ⟨hs, htotal⟩ := h.dependent hfit
    rw [← htotal] at hfit
    exact (Session.dependent_yields hid hsession (h.on k)).bind
      (ih x hs hfit ((Session.id_appendDependent _ _).trans hid)
        ((Session.session_appendDependent _ _).trans hsession))

/-- No session is recording, and the slot of the thread is empty. -/
def Recorder.Idle (r : Recorder C) (w : Width) (i : ThreadId) : Prop :=
  r.process = none ∧ r.slot? w i = none

/-- The trace of a whole program. -/
def Program.tape (P : Program (C w) 0) (id : TapeId) (serial : Nat) (x : Fin P.inputs → C w) :
    Tape (C w) :=
  P.trace x ⟨{ id, session := serial }, Fin.elim0⟩

omit [Scalar (C w)] [Elementary (C w)] in
/-- At the start the count is that of the program alone. -/
theorem total_start (P : Program (C w) 0) (id : TapeId) (serial : Nat) :
    Trace.total ⟨{ id, session := serial }, Fin.elim0⟩ P = P.locations Fin.elim0 := by
  have hnone : Trace.constants (⟨{ id, session := serial }, Fin.elim0⟩ : Trace (C w) 0) =
      Fin.elim0 := funext fun k => k.elim0
  unfold Trace.total
  rw [hnone]
  exact Nat.zero_add _

/-- On an idle recorder the session of a program succeeds, and seals its trace. -/
theorem record_seals {P : Program (C w) 0}
    (hfit : P.locations Fin.elim0 ≤ Handle.reservedLocation.toNat) {r : Recorder C} {i : ThreadId}
    (h : r.Idle w i) (store : StoreName) (id : TapeId) (x : Fin P.inputs → C w) :
    ∃ r', (P.record store id x).exec i r = (.ok (P.tape id r.nextSerial x).stats, r') ∧
      r'.sealed? w store id = some (P.tape id r.nextSerial x) := by
  obtain ⟨hprocess, hslot⟩ := h
  rw [← total_start P id r.nextSerial] at hfit
  -- nothing stands in the way of opening, and the slot has an empty tape then
  have hbegin := Session.beginTraceWithCapacity_of_idle hprocess hslot (Nat.zero_le _) store id
  have hopened : (Session.opened r w i store id).slot? w i =
      some { id, session := r.nextSerial } := Recorder.slot?_putSlot_self _ i _
  -- the program takes the empty tape in the slot to its trace, which is sealed then
  obtain ⟨r', hrun, hslot'⟩ := run_yields { store, id, serial := r.nextSerial } P x
    (Trace.sound_empty id r.nextSerial) hfit rfl rfl i _ hopened
  obtain ⟨r'', hend, hsealed⟩ := Recorder.endTrace_of_slot
    (s := { store, id, serial := r.nextSerial }) hslot' (P.id_trace x _)
  refine ⟨r'', ?_, hsealed⟩
  unfold Program.record beginTrace
  rw [exec_bind_of_ok hbegin, exec_bind_of_ok hrun]
  exact hend

end Run

end DiffTape
