/-
  WHAT EACH CALL DOES TO THE RECORDER.

  Traced code is a sequence of calls, and a call either fails or does one thing to one slot or
  store.  This file says what, call by call, so that nothing later opens a call again:

  * `…_cases`  — all that can happen: a refusal, which changes nothing, or the change;
  * `…_yields` — when the change does happen, on a tape that is in the slot of the thread.

  The condition on a handle is the same in both: `Handle.On`, its mark is one of this tape.
-/
import DiffTape.Proofs.Recording
import DiffTape.Recorder.Lemmas
import DiffTape.Recorder.Session

namespace DiffTape

variable {C : Width → Type} {w : Width} {α β : Type}

/-! ## Running an action

  An action is run to its end on one thread, from a state of the recorder.  It answers or fails, and
  in either case there is a state afterwards.  `Yields` says more, and of tapes only: of an action
  that needs no other part of the recorder than the tape in the slot of its thread.  Such statements
  compose without a look at the state (`Yields.bind`), which is what the inductions over traced code
  use. -/

/-- What an action of a thread answers, and the state that it leaves. -/
def RecorderT.exec (m : RecorderT C Id α) (i : ThreadId) (r : Recorder C) :
    Except Failure α × Recorder C :=
  m i r

section Exec

variable {m : RecorderT C Id α} {k : α → RecorderT C Id β} {i : ThreadId} {r r' : Recorder C}

/-- An action that answers hands its answer and its state on to the next one. -/
theorem exec_bind_of_ok {a : α} (h : m.exec i r = (.ok a, r')) :
    (m >>= k).exec i r = (k a).exec i r' := by
  show (match m.exec i r with
    | (answer, r') => ExceptT.bindCont (fun a => k a i) answer r') = _
  rw [h]
  rfl

/-- An action that fails ends the sequence.  The state that it leaves is kept: nothing is undone. -/
theorem exec_bind_of_error {f : Failure} (h : m.exec i r = (.error f, r')) :
    (m >>= k).exec i r = (.error f, r') := by
  show (match m.exec i r with
    | (answer, r') => ExceptT.bindCont (fun a => k a i) answer r') = _
  rw [h]
  rfl

end Exec

/-- On a thread that records `t` the action succeeds: it answers `a`, and `t'` is recorded
    afterwards. -/
def RecorderT.Yields (m : RecorderT C Id α) (i : ThreadId) (t : Tape (C w)) (a : α)
    (t' : Tape (C w)) : Prop :=
  ∀ r : Recorder C, r.slot? w i = some t → ∃ r', m.exec i r = (.ok a, r') ∧ r'.slot? w i = some t'

/-- Actions that succeed one after the other: what the first leaves on the tape, the second finds
    there. -/
theorem RecorderT.Yields.bind {m : RecorderT C Id α} {k : α → RecorderT C Id β} {i : ThreadId}
    {t t' t'' : Tape (C w)} {a : α} {b : β} (hm : m.Yields i t a t')
    (hk : (k a).Yields i t' b t'') :
    (m >>= k).Yields i t b t'' := by
  intro r hr
  obtain ⟨r', hexec, hslot⟩ := hm r hr
  obtain ⟨r'', hexec', hslot'⟩ := hk r' hslot
  exact ⟨r'', by rw [exec_bind_of_ok hexec, hexec'], hslot'⟩

/-- An action that only answers leaves the tape. -/
theorem yields_pure {i : ThreadId} {t : Tape (C w)} (a : α) :
    (pure a : RecorderT C Id α).Yields i t a t :=
  fun r hr => ⟨r, rfl, hr⟩

/-- The same action on each of `n` things, one after the other: `T k` is recorded after `k` of
    them. -/
theorem yields_mapM_ofFn {f : α → RecorderT C Id β} {i : ThreadId} {n : Nat} {x : Fin n → α}
    {b : Fin n → β} {T : Nat → Tape (C w)}
    (h : ∀ k : Fin n, (f (x k)).Yields i (T k) (b k) (T (k + 1))) :
    ((Array.ofFn x).mapM f).Yields i (T 0) (Array.ofFn b) (T n) := by
  -- an array is traversed as the list of its elements, and there the induction is on `n`
  have hlist : ((List.ofFn x).mapM f).Yields i (T 0) (List.ofFn b) (T n) := by
    induction n generalizing T with
    | zero => exact yields_pure []
    | succ n ih =>
      rw [List.ofFn_succ, List.ofFn_succ, List.mapM_cons]
      have hrest := ih (T := fun k => T (k + 1)) fun k => h k.succ
      exact (h 0).bind (hrest.bind (yields_pure _))
  rw [Array.mapM_eq_mapM_toList, Array.toList_ofFn, map_eq_pure_bind]
  refine hlist.bind ?_
  rw [← Array.toList_ofFn, Array.toArray_toList]
  exact yields_pure _

/-! ## Access to the recording tape

  Every operation of traced code goes through `onTape`, with a check and a change of its own.  So
  what there is to say of the slot, the id and the serial is said here, once. -/

section OnTape

variable {r : Recorder C} {i : ThreadId} {id : TapeId} {session : Nat} {t : Tape (C w)}
  {check : Tape (C w) → Except Violation α} {change : α → Tape (C w) → Tape (C w)}

/-- A change is made only to a tape of this id and session that passes the check.  Anything else is
    a violation, and changes nothing. -/
theorem onTape_cases (r : Recorder C) (i : ThreadId) (id : TapeId) (session : Nat)
    (check : Tape (C w) → Except Violation α) (change : α → Tape (C w) → Tape (C w)) :
    (∃ v, r.onTape w i id session check change = (.error (.violation v), r)) ∨
      ∃ t a, r.slot? w i = some t ∧ t.id = id ∧ t.session = session ∧ check t = .ok a ∧
        r.onTape w i id session check change = (.ok a, r.modifySlot w i (change a)) := by
  unfold Recorder.onTape
  -- first the tape has to be found, then it has to pass the check
  cases htape : r.recordingTape w i id session with
  | error v => exact Or.inl ⟨_, rfl⟩
  | ok t =>
    obtain ⟨hslot, hid, hsession⟩ := r.recordingTape_eq_ok_iff.mp htape
    cases hcheck : check t with
    | error v =>
      left
      refine ⟨v, ?_⟩
      simp only [Except.bind, hcheck]
    | ok a =>
      right
      refine ⟨t, a, hslot, hid, hsession, hcheck, ?_⟩
      simp only [Except.bind, hcheck]

/-- A tape that passes all checks is changed. -/
theorem onTape_of_slot {a : α} (hslot : r.slot? w i = some t) (hid : t.id = id)
    (hsession : t.session = session) (hcheck : check t = .ok a) :
    r.onTape w i id session check change = (.ok a, r.modifySlot w i (change a)) := by
  unfold Recorder.onTape
  rw [r.recordingTape_eq_ok_iff.mpr ⟨hslot, hid, hsession⟩]
  simp only [Except.bind, hcheck]

/-- Access to the recording tape, as an action. -/
theorem onTape_yields {a : α} (hid : t.id = id) (hsession : t.session = session)
    (hcheck : check t = .ok a) :
    (RecorderT.ofFunction fun i r => r.onTape w i id session check change :
      RecorderT C Id α).Yields i t a (change a t) := by
  intro r hslot
  refine ⟨_, onTape_of_slot hslot hid hsession hcheck, ?_⟩
  rw [Recorder.slot?_modifySlot_self, hslot, Option.map_some]

end OnTape

/-- An operand is accepted exactly if it lies below the next location. -/
theorem Tape.checkOperand_eq_ok_iff {F : Type} {t : Tape F} {o : Operand F} :
    t.checkOperand o = .ok () ↔ o.Below t.nextLocation := by
  cases o with
  | location loc =>
    show (if loc < t.nextLocation then Except.ok () else
      .error (Violation.operandOffTape loc t.id)) = _ ↔ _
    constructor
    · intro h l hl
      cases hl
      by_contra hlt
      rw [if_neg hlt] at h
      cases h
    · exact fun h => if_pos (h loc rfl)
  | literal c => exact ⟨fun _ _ hl => (nomatch hl), fun _ => rfl⟩
  | unused => exact ⟨fun _ _ hl => (nomatch hl), fun _ => rfl⟩

/-- The handle can be used on the tape: it is a constant, or was created there. -/
def Handle.On {F : Type} (x : Handle F) (t : Tape F) : Prop :=
  ∀ m, x.mark = some m → m.tape = t.id ∧ m.session = t.session ∧ m.loc < t.nextLocation

/-- What a tape checks of an operand is what `On` says of its location. -/
theorem Handle.operand_below_iff {F : Type} {x : Handle F} {r : Location} :
    x.operand.Below r ↔ ∀ m, x.mark = some m → m.loc < r := by
  obtain ⟨v, mark⟩ := x
  cases mark with
  | none => exact ⟨fun _ m hm => (nomatch hm), fun _ loc hloc => (nomatch hloc)⟩
  | some m =>
    refine ⟨fun h m' hm' => ?_, fun h loc hloc => ?_⟩
    · cases hm'
      exact h m.loc rfl
    · cases hloc
      exact h m rfl

/-- So a handle that was created on the tape passes. -/
theorem Handle.On.below {F : Type} {x : Handle F} {t : Tape F} (h : x.On t) :
    x.operand.Below t.nextLocation :=
  Handle.operand_below_iff.mpr fun m hm => (h m hm).2.2

/-! ## Operations on handles

  An operation is recorded on the tape of its operands.  That of two operands has to find out which
  tape that is: the owner is the mark of the first operand, or of the second one if the first is a
  constant. -/

namespace Handle

/-- Two handles that are no constants combine exactly if they are of one session. -/
theorem owner?_eq_ok_iff {u v : C w} {a b : Mark} {o : Option Mark} :
    owner? ⟨u, some a⟩ ⟨v, some b⟩ = .ok o ↔
      a.tape = b.tape ∧ a.session = b.session ∧ o = some a := by
  show (if a.tape ≠ b.tape then Except.error (Violation.mixedTapes a.tape b.tape)
    else if a.session ≠ b.session then .error (.mixedSessions a.tape)
    else .ok (some a)) = .ok o ↔ _
  -- the two comparisons, in their order; only if both succeed is there an answer
  by_cases htape : a.tape = b.tape
  · by_cases hsession : a.session = b.session
    · rw [if_neg (not_not.mpr htape), if_neg (not_not.mpr hsession)]
      constructor
      · rintro ⟨⟩
        exact ⟨htape, hsession, rfl⟩
      · rintro ⟨-, -, rfl⟩
        rfl
    · rw [if_neg (not_not.mpr htape), if_pos hsession]
      exact ⟨fun h => (nomatch h), fun h => absurd h.2.1 hsession⟩
  · rw [if_pos htape]
    exact ⟨fun h => (nomatch h), fun h => absurd h.1 htape⟩

/-- There is no owner exactly if both handles are constants. -/
theorem owner?_eq_none {x y : Handle (C w)} (h : x.owner? y = .ok none) :
    x.mark = none ∧ y.mark = none := by
  obtain ⟨u, xm⟩ := x
  obtain ⟨v, ym⟩ := y
  cases xm with
  | none =>
    cases ym with
    | none => exact ⟨rfl, rfl⟩
    | some b => cases h
  | some a =>
    cases ym with
    | none => cases h
    | some b => exact absurd (owner?_eq_ok_iff.mp h).2.2.symm (Option.some_ne_none a)

/-- An owner owns every handle that is not a constant, and there is such a handle. -/
theorem owner?_eq_some {x y : Handle (C w)} {m : Mark} (h : x.owner? y = .ok (some m)) :
    (x.mark ≠ none ∨ y.mark ≠ none) ∧
      (∀ m', x.mark = some m' → m'.tape = m.tape ∧ m'.session = m.session) ∧
      ∀ m', y.mark = some m' → m'.tape = m.tape ∧ m'.session = m.session := by
  obtain ⟨u, xm⟩ := x
  obtain ⟨v, ym⟩ := y
  have hself : ∀ a m' : Mark, some a = some m' → m'.tape = a.tape ∧ m'.session = a.session := by
    rintro a m' ⟨⟩
    exact ⟨rfl, rfl⟩
  have hnone : ∀ a m' : Mark, none = some m' → m'.tape = a.tape ∧ m'.session = a.session :=
    fun _ _ hm => (nomatch hm)
  -- the owner is the mark of one of them, and if both have one then these agree
  cases xm with
  | none =>
    cases ym with
    | none => cases h
    | some b =>
      cases h
      exact ⟨Or.inr (Option.some_ne_none m), hnone m, hself m⟩
  | some a =>
    cases ym with
    | none =>
      cases h
      exact ⟨Or.inl (Option.some_ne_none m), hself m, hnone m⟩
    | some b =>
      obtain ⟨htape, hsession, hm⟩ := owner?_eq_ok_iff.mp h
      cases hm
      refine ⟨Or.inl (Option.some_ne_none m), hself m, ?_⟩
      rintro m' ⟨⟩
      exact ⟨htape.symm, hsession.symm⟩

/-- Two handles of one tape have it as their owner. -/
theorem owner?_of_on {x y : Handle (C w)} {t : Tape (C w)} (hx : x.On t) (hy : y.On t)
    (h : x.mark ≠ none ∨ y.mark ≠ none) :
    ∃ m, x.owner? y = .ok (some m) ∧ m.tape = t.id ∧ m.session = t.session := by
  obtain ⟨u, xm⟩ := x
  obtain ⟨v, ym⟩ := y
  -- two marks of one tape agree with each other, so neither comparison fails
  cases xm with
  | none =>
    cases ym with
    | none => exact absurd rfl (h.resolve_left (not_not.mpr rfl))
    | some b => exact ⟨b, rfl, (hy b rfl).1, (hy b rfl).2.1⟩
  | some a =>
    obtain ⟨hat, has, -⟩ := hx a rfl
    cases ym with
    | none => exact ⟨a, rfl, hat, has⟩
    | some b =>
      obtain ⟨hbt, hbs, -⟩ := hy b rfl
      exact ⟨a, owner?_eq_ok_iff.mpr ⟨hat.trans hbt.symm, has.trans hbs.symm, rfl⟩, hat, has⟩

variable [Scalar (C w)] [Elementary (C w)] {i : ThreadId}

/-- A unary operation is refused, is folded if its operand is a constant, or is recorded on the tape
    of its operand. -/
theorem recordUnary_cases (op : Opcode) (aux : Aux) (x : Handle (C w)) (r : Recorder C) :
    (∃ v, (recordUnary op aux x).exec i r = (.error (.violation v), r)) ∨
      (x.mark = none ∧ (recordUnary op aux x).exec i r =
        (.ok (constant (evalValue op x.value 0 aux)), r)) ∨
      ∃ t, r.slot? w i = some t ∧ x.On t ∧ x.mark ≠ none ∧
        (recordUnary op aux x).exec i r =
          (.ok (place (evalValue op x.value 0 aux) t.nextLocation t.id t.session),
            r.modifySlot w i
              (·.appendEntry op x.operand .unused aux (evalValue op x.value 0 aux))) := by
  obtain ⟨v, mark⟩ := x
  cases mark with
  | none => exact Or.inr (Or.inl ⟨rfl, rfl⟩)
  | some m =>
    unfold recordUnary
    -- the operand says by its mark where it wants to be recorded; the slot decides
    rcases onTape_cases r i m.tape m.session (fun t => do
        t.checkOperand (.location m.loc)
        return t.nextLocation)
      (fun _ t => t.appendEntry op (.location m.loc) .unused aux (evalValue op v 0 aux))
      with ⟨f, hf⟩ | ⟨t, loc, hslot, hid, hsession, hcheck, hok⟩
    · exact Or.inl ⟨f, exec_bind_of_error hf⟩
    · right; right
      -- the change was made, so the operand passed the check
      obtain ⟨hop, hloc⟩ := Tape.check_bind_eq_ok_iff.mp hcheck
      cases hloc
      refine ⟨t, hslot, ?_, Option.some_ne_none m, ?_⟩
      · intro m' hm'
        cases hm'
        exact ⟨hid.symm, hsession.symm, Tape.checkOperand_eq_ok_iff.mp hop m.loc rfl⟩
      · rw [hid, hsession]
        exact exec_bind_of_ok hok

/-- On a handle of the tape it is recorded. -/
theorem recordUnary_yields (op : Opcode) (aux : Aux) {x : Handle (C w)} {t : Tape (C w)}
    (hx : x.On t) (hmark : x.mark ≠ none) :
    (recordUnary op aux x : RecorderT C Id (Handle (C w))).Yields i t
      (place (evalValue op x.value 0 aux) t.nextLocation t.id t.session)
      (t.appendEntry op x.operand .unused aux (evalValue op x.value 0 aux)) := by
  obtain ⟨v, mark⟩ := x
  cases mark with
  | none => exact absurd rfl hmark
  | some m =>
    -- the result gets the id and the serial of the operand, which are those of the tape
    obtain ⟨hid, hsession, -⟩ := hx m rfl
    unfold recordUnary
    refine RecorderT.Yields.bind (onTape_yields hid.symm hsession.symm (a := t.nextLocation) ?_) ?_
    · exact Tape.check_bind_eq_ok_iff.mpr ⟨Tape.checkOperand_eq_ok_iff.mpr hx.below, rfl⟩
    · show RecorderT.Yields (pure _) _ _ _ _
      rw [hid, hsession]
      exact yields_pure _

/-- On a constant nothing is recorded. -/
theorem recordUnary_yields_constant (op : Opcode) (aux : Aux) {x : Handle (C w)} (h : x.mark = none)
    (t : Tape (C w)) :
    (recordUnary op aux x : RecorderT C Id (Handle (C w))).Yields i t
      (constant (evalValue op x.value 0 aux)) t := by
  unfold recordUnary
  rw [h]
  exact yields_pure _

/-- A binary operation is refused, is folded if both operands are constants, or is recorded on the
    tape that all the others are of. -/
theorem recordBinary_cases (op : Opcode) (x y : Handle (C w)) (r : Recorder C) :
    (∃ v, (recordBinary op x y).exec i r = (.error (.violation v), r)) ∨
      (x.mark = none ∧ y.mark = none ∧ (recordBinary op x y).exec i r =
        (.ok (constant (evalValue op x.value y.value .none)), r)) ∨
      ∃ t, r.slot? w i = some t ∧ x.On t ∧ y.On t ∧ (x.mark ≠ none ∨ y.mark ≠ none) ∧
        (recordBinary op x y).exec i r =
          (.ok (place (evalValue op x.value y.value .none) t.nextLocation t.id t.session),
            r.modifySlot w i
              (·.appendEntry op x.operand y.operand .none (evalValue op x.value y.value .none))) := by
  unfold recordBinary
  -- whether anything is recorded is decided by the handles alone, before the slot is looked at
  cases howner : x.owner? y with
  | error v => exact Or.inl ⟨_, rfl⟩
  | ok owner =>
    cases owner with
    | none =>
      obtain ⟨hx, hy⟩ := owner?_eq_none howner
      exact Or.inr (Or.inl ⟨hx, hy, rfl⟩)
    | some m =>
      obtain ⟨hmark, hxm, hym⟩ := owner?_eq_some howner
      rcases onTape_cases r i m.tape m.session (fun t => do
          t.checkOperand x.operand
          t.checkOperand y.operand
          return t.nextLocation)
        (fun _ t => t.appendEntry op x.operand y.operand .none (evalValue op x.value y.value .none))
        with ⟨f, hf⟩ | ⟨t, loc, hslot, hid, hsession, hcheck, hok⟩
      · exact Or.inl ⟨f, exec_bind_of_error hf⟩
      · right; right
        -- the change was made, so both operands passed the check
        obtain ⟨hxo, hrest⟩ := Tape.check_bind_eq_ok_iff.mp hcheck
        obtain ⟨hyo, hloc⟩ := Tape.check_bind_eq_ok_iff.mp hrest
        cases hloc
        have hxb : x.operand.Below t.nextLocation := Tape.checkOperand_eq_ok_iff.mp hxo
        have hyb : y.operand.Below t.nextLocation := Tape.checkOperand_eq_ok_iff.mp hyo
        -- what is no constant among them is of the owner, and the owner is of the tape
        refine ⟨t, hslot, fun m' hm' => ?_, fun m' hm' => ?_, hmark, ?_⟩
        · obtain ⟨htape, hserial⟩ := hxm m' hm'
          exact ⟨htape.trans hid.symm, hserial.trans hsession.symm,
            operand_below_iff.mp hxb m' hm'⟩
        · obtain ⟨htape, hserial⟩ := hym m' hm'
          exact ⟨htape.trans hid.symm, hserial.trans hsession.symm,
            operand_below_iff.mp hyb m' hm'⟩
        · rw [hid, hsession]
          exact exec_bind_of_ok hok

/-- On handles of one tape it is recorded. -/
theorem recordBinary_yields (op : Opcode) {x y : Handle (C w)} {t : Tape (C w)} (hx : x.On t)
    (hy : y.On t) (hmark : x.mark ≠ none ∨ y.mark ≠ none) :
    (recordBinary op x y : RecorderT C Id (Handle (C w))).Yields i t
      (place (evalValue op x.value y.value .none) t.nextLocation t.id t.session)
      (t.appendEntry op x.operand y.operand .none (evalValue op x.value y.value .none)) := by
  obtain ⟨m, howner, hid, hsession⟩ := owner?_of_on hx hy hmark
  unfold recordBinary
  rw [howner]
  refine RecorderT.Yields.bind (onTape_yields hid.symm hsession.symm (a := t.nextLocation) ?_) ?_
  · refine Tape.check_bind_eq_ok_iff.mpr ⟨Tape.checkOperand_eq_ok_iff.mpr hx.below, ?_⟩
    exact Tape.check_bind_eq_ok_iff.mpr ⟨Tape.checkOperand_eq_ok_iff.mpr hy.below, rfl⟩
  · rw [hid, hsession]
    exact yields_pure _

/-- Nor is it on two constants. -/
theorem recordBinary_yields_constant (op : Opcode) {x y : Handle (C w)} (hx : x.mark = none)
    (hy : y.mark = none) (t : Tape (C w)) :
    (recordBinary op x y : RecorderT C Id (Handle (C w))).Yields i t
      (constant (evalValue op x.value y.value .none)) t := by
  have howner : x.owner? y = .ok none := by
    unfold owner?
    rw [hx, hy]
  unfold recordBinary
  rw [howner]
  exact yields_pure _

/-- Splitting a handle records one entry, with the exponent found now. -/
theorem frexp_exec (x : Handle (C w)) (r : Recorder C) :
    x.frexp.exec i r =
      match (recordUnary .frexp (.exponent (.ofInt (frexpExponent x.value))) x).exec i r with
      | (.ok y, r') => (.ok (y, .ofInt (frexpExponent x.value)), r')
      | (.error f, r') => (.error f, r') := by
  cases h : (recordUnary .frexp (.exponent (.ofInt (frexpExponent x.value))) x).exec i r with
  | mk answer r' =>
    cases answer with
    | error f => exact exec_bind_of_error h
    | ok y => exact exec_bind_of_ok h

end Handle

/-! ## What the operations of traced code record -/

/-- The operations of traced code have the opcodes of their arity, and make no constants. -/
@[simp] theorem UnaryOp.arity_opcode (op : UnaryOp) : op.opcode.arity = 1 := by
  cases op <;> rfl

@[simp] theorem UnaryOp.opcode_ne_const (op : UnaryOp) : op.opcode ≠ .const := by
  cases op <;> exact Opcode.noConfusion

@[simp] theorem BinaryOp.arity_opcode (op : BinaryOp) : op.opcode.arity = 2 := by
  cases op <;> rfl

/-- The aux data are of the kind of the operation. -/
theorem UnaryOp.aux_fits {F : Type} [Scalar F] (op : UnaryOp) (v : F) :
    (op.aux v).Fits op.opcode := by
  cases op with
  | powi n => exact ⟨n, rfl⟩
  | ldexp e => exact ⟨e, rfl⟩
  | abs | signum => exact ⟨_, rfl⟩
  | _ => rfl

/-- A branch is recorded as that of the operand. -/
theorem UnaryOp.aux_branch {F : Type} [Scalar F] {op : UnaryOp} {v : F} {b : Branch}
    (h : (op.aux v).branch? = some b) : b = .of v := by
  cases op with
  | abs | signum => exact (Option.some.inj h).symm
  | _ => cases h

/-! ## Sessions

  A session goes to the tape in the slot of the thread by its own id and serial, and not by those of
  a handle.  So binding and marking have cases like the operations, and the handle that is marked is
  checked against the tape that was found. -/

namespace Session

variable {i : ThreadId}

/-- Binding an input is refused, or made on the tape of the session. -/
theorem independent_cases (s : Session w) (v : C w) (r : Recorder C) :
    (∃ e, (s.independent v).exec i r = (.error (.violation e), r)) ∨
      ∃ t, r.slot? w i = some t ∧ t.id = s.id ∧ t.session = s.serial ∧ (s.independent v).exec i r =
        (.ok (.place v t.nextLocation t.id t.session),
          r.modifySlot w i (·.appendIndependent v)) := by
  unfold independent
  -- there is nothing to check, so the only refusals are those of the slot
  rcases onTape_cases r i s.id s.serial (fun t => .ok t.nextLocation)
    (fun _ t => t.appendIndependent v) with ⟨f, hf⟩ | ⟨t, loc, hslot, hid, hsession, hcheck, hok⟩
  · exact Or.inl ⟨f, exec_bind_of_error hf⟩
  · cases hcheck
    refine Or.inr ⟨t, hslot, hid, hsession, ?_⟩
    rw [hid, hsession]
    exact exec_bind_of_ok hok

/-- On the tape of the session it is made. -/
theorem independent_yields {s : Session w} {t : Tape (C w)} (hid : t.id = s.id)
    (hsession : t.session = s.serial) (v : C w) :
    (s.independent v : RecorderT C Id (Handle (C w))).Yields i t
      (.place v t.nextLocation t.id t.session) (t.appendIndependent v) := by
  unfold independent
  refine RecorderT.Yields.bind (onTape_yields hid hsession (a := t.nextLocation) rfl) ?_
  rw [hid, hsession]
  exact yields_pure _

/-- A dependent is accepted exactly if it is a constant or a location of this tape. -/
theorem checkDependent_eq_ok_iff {F : Type} {s : Session w} {x : Handle F} {t : Tape F}
    (hid : t.id = s.id) :
    s.checkDependent x t = .ok () ↔
      ∀ m, x.mark = some m → m.tape = t.id ∧ m.session = t.session ∧ m.loc.toNat < t.values.size := by
  obtain ⟨v, mark⟩ := x
  cases mark with
  | none => exact ⟨fun _ m hm => (nomatch hm), fun _ => rfl⟩
  | some m =>
    show (if m.tape ≠ s.id then Except.error (Violation.foreignDependent m.tape s.id)
      else if m.session ≠ t.session then .error (.staleDependent m.tape)
      else if m.loc.toNat < t.values.size then .ok () else .error (.dependentOffTape m.loc t.id)) =
        .ok () ↔ ∀ m', some m = some m' → _
    rw [hid]
    constructor
    · -- acceptance leaves no other way through the three checks
      rintro h m' ⟨⟩
      by_cases htape : m.tape = s.id
      · by_cases hsession : m.session = t.session
        · by_cases hloc : m.loc.toNat < t.values.size
          · exact ⟨htape, hsession, hloc⟩
          · rw [if_neg (not_not.mpr htape), if_neg (not_not.mpr hsession), if_neg hloc] at h
            cases h
        · rw [if_neg (not_not.mpr htape), if_pos hsession] at h
          cases h
      · rw [if_pos htape] at h
        cases h
    · -- and with all three of them right none of the refusals applies
      intro h
      obtain ⟨htape, hsession, hloc⟩ := h m rfl
      rw [if_neg (not_not.mpr htape), if_neg (not_not.mpr hsession), if_pos hloc]

/-- Marking a handle is refused, or made on the tape of the session, if the handle is a constant or
    of that tape. -/
theorem dependent_cases (s : Session w) (x : Handle (C w)) (r : Recorder C) :
    (∃ v, (s.dependent x).exec i r = (.error (.violation v), r)) ∨
      ∃ t, r.slot? w i = some t ∧ t.session = s.serial ∧
        (∀ m, x.mark = some m →
          m.tape = t.id ∧ m.session = t.session ∧ m.loc.toNat < t.values.size) ∧
        (s.dependent x).exec i r = (.ok x.value, r.modifySlot w i (appendDependent x)) := by
  unfold dependent
  rcases onTape_cases r i s.id s.serial (s.checkDependent x) (fun _ => appendDependent x)
    with ⟨f, hf⟩ | ⟨t, u, hslot, hid, hsession, hcheck, hok⟩
  · exact Or.inl ⟨f, exec_bind_of_error hf⟩
  · exact Or.inr ⟨t, hslot, hsession, (checkDependent_eq_ok_iff hid).mp hcheck,
      exec_bind_of_ok hok⟩

/-- On the tape of the session every handle of it is marked. -/
theorem dependent_yields {s : Session w} {t : Tape (C w)} (hid : t.id = s.id)
    (hsession : t.session = s.serial) {x : Handle (C w)} (hx : x.On t) :
    (s.dependent x : RecorderT C Id (C w)).Yields i t x.value (appendDependent x t) := by
  unfold dependent
  refine RecorderT.Yields.bind (onTape_yields hid hsession (a := ()) ?_) (yields_pure _)
  refine (checkDependent_eq_ok_iff hid).mpr fun m hm => ?_
  -- marking compares with the number of values, and operations with the location that comes next
  obtain ⟨htape, hserial, hloc⟩ := hx m hm
  exact ⟨htape, hserial, Nat.lt_of_lt_of_le (UInt32.lt_iff_toNat_lt.mp hloc) t.nextLocation_le⟩

/-- To mark a constant, it is recorded first. -/
theorem appendDependent_of_constant {F : Type} {x : Handle F} (h : x.mark = none) (t : Tape F) :
    appendDependent x t = (t.appendConst x.value).appendDependent t.nextLocation := by
  unfold appendDependent
  rw [h]

/-- Any other handle is marked where it is. -/
theorem appendDependent_of_mark {F : Type} {x : Handle F} {m : Mark} (h : x.mark = some m)
    (t : Tape F) : appendDependent x t = t.appendDependent m.loc := by
  unfold appendDependent
  rw [h]

/-- A tape on which a handle was marked as a dependent. -/
theorem recorded_appendDependent {F : Type} {x : Handle F} {t : Tape F} (h : t.Recorded)
    (hx : ∀ m, x.mark = some m → m.loc.toNat < t.values.size) :
    (appendDependent x t).Recorded := by
  cases hmark : x.mark with
  | none =>
    rw [appendDependent_of_constant hmark]
    -- the location that is marked is the one that the constant was given just before
    refine (h.appendConst x.value).appendDependent ?_
    show t.nextLocation.toNat < (t.values.push x.value).size
    rw [Array.size_push]
    exact Nat.lt_succ_of_le t.nextLocation_le
  | some m =>
    rw [appendDependent_of_mark hmark]
    exact h.appendDependent (hx m hmark)

/-- A constant is recorded as the value that it has. -/
theorem faithful_appendDependent {F : Type} [Scalar F] [Elementary F] {t : Tape F}
    (h : t.Faithful) (hrec : t.Recorded) (hsize : t.values.size < UInt32.size) (x : Handle F) :
    (appendDependent x t).Faithful := by
  cases hmark : x.mark with
  | none =>
    rw [appendDependent_of_constant hmark]
    exact (h.appendConst hrec hsize x.value).appendDependent _
  | some m =>
    rw [appendDependent_of_mark hmark]
    exact h.appendDependent _

/-- Marking a dependent loses no value, and appends at most one. -/
theorem recordedValue?_appendDependent {F : Type} {t : Tape F} {loc : Location} {a : F}
    (h : t.recordedValue? loc = some a) (x : Handle F) :
    (appendDependent x t).recordedValue? loc = some a := by
  cases hmark : x.mark with
  | none =>
    have hpush : (t.appendConst x.value).values = t.values.push x.value := rfl
    rw [appendDependent_of_constant hmark]
    exact Tape.recordedValue?_of_push hpush h
  | some m =>
    rw [appendDependent_of_mark hmark]
    exact h

/-- Marking a dependent takes no location away, so what is addressable afterwards was so before. -/
theorem addressable_of_appendDependent {F : Type} {t : Tape F} {x : Handle F}
    (h : (appendDependent x t).Addressable) : t.Addressable := by
  cases hmark : x.mark with
  | none =>
    have hpush : (t.appendConst x.value).values = t.values.push x.value := rfl
    rw [appendDependent_of_constant hmark] at h
    exact Tape.addressable_of_push hpush h
  | some m =>
    rw [appendDependent_of_mark hmark] at h
    exact h

/-- The value of the handle joins the recorded outputs. -/
theorem outputs_appendDependent {F : Type} [Scalar F] {t : Tape F} (hrec : t.Recorded)
    (hsize : t.values.size < UInt32.size) {x : Handle F} (hx : x.Shows t) :
    (appendDependent x t).dependents.map (appendDependent x t).recordedAt =
      (t.dependents.map t.recordedAt).push x.value := by
  -- a constant is read back as the last value, and any other handle shows what is recorded
  cases hmark : x.mark with
  | none =>
    have hpush : (t.appendConst x.value).values = t.values.push x.value := rfl
    rw [appendDependent_of_constant hmark]
    show (t.dependents.push t.nextLocation).map (t.appendConst x.value).recordedAt = _
    rw [Array.map_push, hrec.outputs_push hpush, Tape.recordedAt_push_next hpush hsize]
  | some m =>
    have hat : t.recordedAt m.loc = x.value := by
      unfold Tape.recordedAt
      rw [hx m hmark, Option.getD_some]
    rw [appendDependent_of_mark hmark]
    show (t.dependents.push m.loc).map t.recordedAt = _
    rw [Array.map_push, hat]

/-- Only a constant takes up a location. -/
theorem size_appendDependent {F : Type} (x : Handle F) (t : Tape F) :
    (appendDependent x t).values.size =
      if x.isConstant then t.values.size + 1 else t.values.size := by
  obtain ⟨v, mark⟩ := x
  cases mark with
  | none => exact Array.size_push v
  | some m => rfl

theorem size_dependents_appendDependent {F : Type} (x : Handle F) (t : Tape F) :
    (appendDependent x t).dependents.size = t.dependents.size + 1 := by
  unfold appendDependent
  split
  · exact Array.size_push ..
  · exact Array.size_push ..

theorem independents_appendDependent {F : Type} (x : Handle F) (t : Tape F) :
    (appendDependent x t).independents = t.independents := by
  unfold appendDependent
  cases x.mark <;> rfl

/-- What a handle has to match stays as it is when another one is marked. -/
theorem id_appendDependent {F : Type} (x : Handle F) (t : Tape F) :
    (appendDependent x t).id = t.id := by
  unfold appendDependent
  cases x.mark <;> rfl

theorem session_appendDependent {F : Type} (x : Handle F) (t : Tape F) :
    (appendDependent x t).session = t.session := by
  unfold appendDependent
  cases x.mark <;> rfl

/-! ## Opening and closing

  These two touch the slot, the store and the mark of the process, one after the other.  Their cases
  name the state that results as a whole (`opened`, `released`), so that a later proof about one
  part of it is a lookup. -/

/-- The state after a session was opened. -/
def opened (r : Recorder C) (w : Width) (i : ThreadId) (store : StoreName) (id : TapeId) :
    Recorder C :=
  (((r.advanceSerial.putSlot i ({ id, session := r.nextSerial } : Tape (C w))).markProcess
    id).modifyStore w store (·.mark id)).note [.tracingStarted id]

/-- The three refusals of a session, in the order in which they are checked, and the opening. -/
theorem beginTraceWithCapacity_cases (store : StoreName) (id : TapeId) (capacity : Nat)
    (r : Recorder C) :
    (∃ active, r.process = some active ∧
      (beginTraceWithCapacity w store id capacity).exec i r =
        (.error (.error (if (r.store w store).recording = some id then .tapeAlreadyOpen id
          else .recordingInProgress active id)), r)) ∨
    (r.process = none ∧ Tape.maxCapacity < capacity ∧
      (beginTraceWithCapacity w store id capacity).exec i r =
        (.error (.violation .capacityOverflow), r.advanceSerial)) ∨
    (∃ t, r.process = none ∧ r.slot? w i = some t ∧
      (beginTraceWithCapacity w store id capacity).exec i r =
        (.error (.error (.recordingInProgress t.id id)), r.advanceSerial)) ∨
    (r.process = none ∧ r.slot? w i = none ∧
      (beginTraceWithCapacity w store id capacity).exec i r =
        (.ok { store, id, serial := r.nextSerial }, opened r w i store id)) := by
  have hexec : (beginTraceWithCapacity w store id capacity).exec i r =
      r.openSession w i store id capacity := rfl
  rw [hexec]
  unfold Recorder.openSession
  -- the checks in their order; from the second one on the serial is used up
  cases r.process with
  | some active =>
    left
    refine ⟨active, rfl, ?_⟩
    by_cases hmark : (r.store w store).recording = some id
    · simp only [hmark, if_true]
    · simp only [hmark, if_false]
  | none =>
    right
    by_cases hcap : capacity ≤ Tape.maxCapacity
    · -- the slot is looked at after the serial was taken, which changes no slot
      have hfresh : Tape.withCapacity (F := C w) id r.nextSerial capacity =
          .ok { id, session := r.nextSerial } := if_pos hcap
      have hslot : r.advanceSerial.slot? w i = r.slot? w i := rfl
      right
      simp only [hfresh, hslot]
      cases hs : r.slot? w i with
      | some t => exact Or.inl ⟨t, trivial, rfl, rfl⟩
      | none => exact Or.inr ⟨trivial, rfl, rfl⟩
    · have hfresh : Tape.withCapacity (F := C w) id r.nextSerial capacity =
          .error .capacityOverflow := if_neg hcap
      simp only [hfresh]
      exact Or.inl ⟨trivial, Nat.lt_of_not_le hcap, trivial⟩

/-- A session is refused, which costs a serial at most, or it opens. -/
theorem begin_outcome (store : StoreName) (id : TapeId) (capacity : Nat) (r : Recorder C) :
    (∃ f r', (beginTraceWithCapacity w store id capacity).exec i r = (.error f, r') ∧
      (r' = r ∨ r' = r.advanceSerial)) ∨
    (r.process = none ∧ r.slot? w i = none ∧
      (beginTraceWithCapacity w store id capacity).exec i r =
        (.ok { store, id, serial := r.nextSerial }, opened r w i store id)) := by
  rcases beginTraceWithCapacity_cases (i := i) store id capacity r with
    ⟨active, -, hexec⟩ | ⟨-, -, hexec⟩ | ⟨t, -, -, hexec⟩ | hopened
  · exact Or.inl ⟨_, _, hexec, Or.inl rfl⟩
  · exact Or.inl ⟨_, _, hexec, Or.inr rfl⟩
  · exact Or.inl ⟨_, _, hexec, Or.inr rfl⟩
  · exact Or.inr hopened

section Outcome

variable {store : StoreName} {id : TapeId} {capacity : Nat} {r r' : Recorder C}

/-- A session that does not open leaves everything but the source of serials. -/
theorem begin_refused {f : Failure}
    (h : (beginTraceWithCapacity w store id capacity).exec i r = (.error f, r')) :
    r' = r ∨ r' = r.advanceSerial := by
  rcases begin_outcome (w := w) (i := i) store id capacity r with ⟨e, q, hexec, hq⟩ | ⟨-, -, hexec⟩
  · rw [hexec] at h
    cases h
    exact hq
  · rw [hexec] at h
    cases h

/-- A session that opens is for the store and the id that were asked for, and gets the next
    serial. -/
theorem begin_opened {s : Session w}
    (h : (beginTraceWithCapacity w store id capacity).exec i r = (.ok s, r')) :
    r.process = none ∧ s = ⟨store, id, r.nextSerial⟩ ∧ r' = opened r w i store id := by
  rcases begin_outcome (w := w) (i := i) store id capacity r with
    ⟨e, q, hexec, -⟩ | ⟨hprocess, -, hexec⟩
  · rw [hexec] at h
    cases h
  · rw [hexec] at h
    cases h
    exact ⟨hprocess, rfl, rfl⟩

end Outcome

/-- On an idle recorder a session does open, if the room can be had. -/
theorem beginTraceWithCapacity_of_idle {r : Recorder C} (hprocess : r.process = none)
    (hslot : r.slot? w i = none) {capacity : Nat} (hcapacity : capacity ≤ Tape.maxCapacity)
    (store : StoreName) (id : TapeId) :
    (beginTraceWithCapacity w store id capacity).exec i r =
      (.ok { store, id, serial := r.nextSerial }, opened r w i store id) := by
  -- each refusal has a cause, which is excluded here
  rcases beginTraceWithCapacity_cases (i := i) store id capacity r with
    ⟨active, hactive, -⟩ | ⟨-, hlt, -⟩ | ⟨t, -, ht, -⟩ | ⟨-, -, hopened⟩
  · rw [hprocess] at hactive
    cases hactive
  · exact absurd hcapacity (Nat.not_le_of_lt hlt)
  · rw [hslot] at ht
    cases ht
  · exact hopened

/-- Closing clears both marks. -/
def released (s : Session w) (r : Recorder C) : Recorder C :=
  (r.modifyStore w s.store (·.unmark s.id)).unmarkProcess

/-- Ending a session takes its tape, and seals it if there is one.  The marks are cleared either
    way. -/
theorem endTrace_exec (s : Session w) (r : Recorder C) :
    s.endTrace.exec i r =
      match r.takeSlot w i s.id with
      | (none, r') => (.error (.error (.tapeNotFound s.id)), s.released r')
      | (some t, r') =>
        (.ok t.stats, (s.released (r'.modifyStore w s.store (·.insert s.id t))).note
          [.tapeSealed t.stats]) := by
  cases htake : r.takeSlot w i s.id with
  | mk found r' =>
    -- as an action, taking the tape answers it
    have htake' : (s.takeTape (C := C)).exec i r = (.ok found, r') := by
      show ((.ok (r.takeSlot w i s.id).1 : Except Failure _), (r.takeSlot w i s.id).2) = _
      rw [htake]
    unfold endTrace
    rw [exec_bind_of_ok htake']
    -- after this nothing can fail: the rest is one update after the other
    cases found with
    | none => rfl
    | some t => rfl

/-- Dropping one takes the tape and seals nothing. -/
theorem drop_exec (s : Session w) (r : Recorder C) :
    s.drop.exec i r =
      (.ok (), (s.released (r.takeSlot w i s.id).2).note [.sessionDropped s.id]) := rfl

end Session

end DiffTape
