/-
  WHERE A HANDLE COMES FROM, AND WHERE IT WORKS.

  A handle is created by the session that bound it, or by the one that created an operand of the
  operation that answered it (`CreatedBy`).  A run remembers its turns, so this is a property of
  its past; the mark of the handle plays no part in it.

  The recorder knows nothing of the past.  It compares marks: an operation takes handles whose ids
  and serials are those of the tape in the slot, and whose locations lie on it.  That the two agree
  comes from three invariants:

  * `Registry.Attended`  — the tape in the slot of a thread is that of its open session;
  * `View.Sound`         — handles of the session of a tape show locations of that tape;
  * `World.Remembers`    — serials tell sessions apart, and every handle has a creator.
-/
import DiffTape.Proofs.Registry
import DiffTape.Proofs.Soundness

namespace DiffTape

variable {C : Width → Type} {w : Width} {α β : Type} {i : ThreadId}

/-! ## Operands and outcomes -/

/-- The handles that an operation is applied to.  Calls that are no operations have none. -/
def Call.operands : Call C w → List (Handle (C w))
  | .apply _ x | .frexp x => [x]
  | .combine _ x y => [x, y]
  | _ => []

namespace World

variable [∀ w, Scalar (C w)] [∀ w, Elementary (C w)] {W : World C}

/-- How the call ends when it is made now: it fails, or it succeeds, and may answer a handle. -/
def outcome (W : World C) (i : ThreadId) : Call C w → Except Failure (Option (Handle (C w)))
  | .begin store id capacity =>
    ((beginTraceWithCapacity w store id capacity).exec i W.recorder).1.map fun _ => none
  | .independent s v => ((s.independent v).exec i W.recorder).1.map some
  | .apply op x => ((x.apply op).exec i W.recorder).1.map some
  | .frexp x => (x.frexp.exec i W.recorder).1.map fun answer => some answer.1
  | .combine op x y => ((x.combine op y).exec i W.recorder).1.map some
  | .dependent s x => ((s.dependent x).exec i W.recorder).1.map fun _ => none
  | .endTrace s => (s.endTrace.exec i W.recorder).1.map fun _ => none
  | .drop s => (s.drop.exec i W.recorder).1.map fun _ => none
  | .remove store id => ((removeTape w store id).exec i W.recorder).1.map fun _ => none
  | .takeSlot => ((takeSlotTape w).exec i W.recorder).1.map fun _ => none
  | .replaceSlot t => ((replaceSlotTape t).exec i W.recorder).1.map fun _ => none

omit [∀ w, Scalar (C w)] [∀ w, Elementary (C w)] in
/-- The handles that the host has after an action: those it had, and the one it was answered. -/
theorem mem_handles_after (i : ThreadId) (m : RecorderT C Id α) (keep : α → World C → World C)
    (found : α → Option (Handle (C w))) {x : Handle (C w)}
    (hkeep : ∀ a W', x ∈ (keep a W').handles.get w → x ∈ W'.handles.get w ∨ found a = some x)
    (hx : x ∈ (W.after i m keep).handles.get w) :
    x ∈ W.handles.get w ∨ (m.exec i W.recorder).1.map found = .ok (some x) := by
  -- the action itself changes the recorder only; what the host keeps depends on the answer
  cases hexec : m.exec i W.recorder with
  | mk answer r =>
    cases answer with
    | ok a =>
      rw [after_of_ok hexec] at hx
      rcases hkeep a _ hx with hx | hfound
      · exact Or.inl hx
      · exact Or.inr (congrArg Except.ok hfound)
    | error f =>
      rw [after_of_error hexec] at hx
      exact Or.inl hx

/-- A handle of the host is an old one, or the call has just answered it. -/
theorem mem_handles_perform {call : Call C w} {x : Handle (C w)}
    (hx : x ∈ (W.perform i call).handles.get w) :
    x ∈ W.handles.get w ∨ W.outcome i call = .ok (some x) := by
  have hgain : ∀ (y : Handle (C w)) (W' : World C), x ∈ (gain y W').handles.get w →
      x ∈ W'.handles.get w ∨ some y = some x := by
    intro y W' hx
    have hcons : (gain y W').handles.get w = y :: W'.handles.get w :=
      PerWidth.get_modify_self ..
    rw [hcons] at hx
    rcases List.mem_cons.mp hx with rfl | hx
    · exact Or.inr rfl
    · exact Or.inl hx
  have hnone : ∀ (W' : World C), x ∈ W'.handles.get w →
      x ∈ W'.handles.get w ∨ (none : Option (Handle (C w))) = some x := fun _ => Or.inl
  -- either the answer is a handle, which is kept, or no handle is answered
  cases call with
  | begin store id capacity =>
    exact mem_handles_after i _ (hold i) (fun _ => none) (fun _ => hnone) hx
  | independent s v => exact mem_handles_after i _ gain some hgain hx
  | apply op y => exact mem_handles_after i _ gain some hgain hx
  | frexp y =>
    exact mem_handles_after i y.frexp (fun answer => gain answer.1) (fun answer => some answer.1)
      (fun answer => hgain answer.1) hx
  | combine op y z => exact mem_handles_after i _ gain some hgain hx
  | dependent s y =>
    exact mem_handles_after i _ (hear s.serial) (fun _ => none) (fun _ => hnone) hx
  | endTrace s => exact mem_handles_after i s.endTrace ignore (fun _ => none) (fun _ => hnone) hx
  | drop s => exact mem_handles_after i s.drop ignore (fun _ => none) (fun _ => hnone) hx
  | remove store id =>
    exact mem_handles_after i (removeTape w store id) ignore (fun _ => none) (fun _ => hnone) hx
  | takeSlot =>
    exact mem_handles_after i (takeSlotTape w) ignore (fun _ => none) (fun _ => hnone) hx
  | replaceSlot t =>
    exact mem_handles_after i (replaceSlotTape t) ignore (fun _ => none) (fun _ => hnone) hx

/-! ## What operations and markings come to -/

/-- The outcome of an operation. -/
inductive Outcomes (W : World C) (i : ThreadId) (call : Call C w) : Prop
  | refused (v : Violation) (h : W.outcome i call = .error (.violation v))
      (hperform : W.perform i call = W)
  | folded (u : C w) (h : W.outcome i call = .ok (some (.constant u)))
      (hoperands : ∀ x ∈ call.operands, x.mark = none)
  | recorded (t : Tape (C w)) (u : C w) (hslot : W.recorder.slot? w i = some t)
      (hon : ∀ x ∈ call.operands, x.On t) (hmark : ∃ x ∈ call.operands, x.mark ≠ none)
      (h : W.outcome i call = .ok (some (.place u t.nextLocation t.id t.session)))

/-- Of splitting a handle only the handle counts, which is that of an operation. -/
theorem outcome_frexp (W : World C) (i : ThreadId) (x : Handle (C w)) :
    W.outcome i (.frexp x) =
      ((x.recordUnary .frexp (.exponent (.ofInt (frexpExponent x.value)))).exec i
        W.recorder).1.map some := by
  show (x.frexp.exec i W.recorder).1.map (fun answer => some answer.1) = _
  rw [x.frexp_exec]
  split
  · rename_i y r h
    rw [h]
    rfl
  · rename_i f r h
    rw [h]
    rfl

/-- The outcome of any call that comes down to a unary operation. -/
theorem recordUnary_outcomes {call : Call C w} {op : Opcode} {aux : Aux} {x : Handle (C w)}
    (hperform : W.perform i call = W.after i (x.recordUnary op aux) gain)
    (houtcome : W.outcome i call = ((x.recordUnary op aux).exec i W.recorder).1.map some)
    (hoperands : call.operands = [x]) : W.Outcomes i call := by
  rcases x.recordUnary_cases (i := i) op aux W.recorder with
    ⟨v, h⟩ | ⟨hmark, h⟩ | ⟨t, hslot, hon, hmark, h⟩
  · rw [after_of_error h] at hperform
    rw [h] at houtcome
    exact .refused v houtcome hperform
  · rw [h] at houtcome
    refine .folded _ houtcome ?_
    rw [hoperands]
    simpa using hmark
  · rw [h] at houtcome
    refine .recorded t _ hslot ?_ ?_ houtcome
    · rw [hoperands]
      simpa using hon
    · rw [hoperands]
      simpa using hmark

/-- An operation is refused and changes nothing, or folds constants, or is recorded on the tape of
    the thread, on which all its operands lie. -/
theorem outcomes_of_operation (W : World C) (i : ThreadId) {call : Call C w}
    (h : call.operands ≠ []) : W.Outcomes i call := by
  cases call with
  | apply op x => exact recordUnary_outcomes (x := x) rfl rfl rfl
  | frexp x => exact recordUnary_outcomes (after_frexp W x) (W.outcome_frexp i x) rfl
  | combine op x y =>
    have houtcome : W.outcome i (.combine op x y) =
        ((x.recordBinary op.opcode y).exec i W.recorder).1.map some := rfl
    rcases x.recordBinary_cases (i := i) op.opcode y W.recorder with
      ⟨v, h⟩ | ⟨hx, hy, h⟩ | ⟨t, hslot, hxon, hyon, hmark, h⟩
    · rw [h] at houtcome
      exact .refused v houtcome (after_of_error h)
    · rw [h] at houtcome
      refine .folded _ houtcome ?_
      simp [Call.operands, hx, hy]
    · rw [h] at houtcome
      refine .recorded t _ hslot ?_ ?_ houtcome
      · simp [Call.operands, hxon, hyon]
      · simpa [Call.operands] using hmark
  | _ => exact absurd rfl h

/-- Operands that all lie on the tape of the thread are accepted. -/
theorem outcome_of_on {call : Call C w} {t : Tape (C w)} (hslot : W.recorder.slot? w i = some t)
    (hon : ∀ x ∈ call.operands, x.On t) (hmark : ∃ x ∈ call.operands, x.mark ≠ none) :
    ∃ answer, W.outcome i call = .ok answer := by
  cases call with
  | apply op x =>
    have hx : x.mark ≠ none := by simpa [Call.operands] using hmark
    obtain ⟨r, hexec, -⟩ := Handle.recordUnary_yields (i := i) op.opcode (op.aux x.value)
      (hon x List.mem_cons_self) hx W.recorder hslot
    exact ⟨_, congrArg (fun answer => answer.1.map some) hexec⟩
  | frexp x =>
    have hx : x.mark ≠ none := by simpa [Call.operands] using hmark
    obtain ⟨r, hexec, -⟩ := Handle.recordUnary_yields (i := i) .frexp
      (.exponent (.ofInt (frexpExponent x.value))) (hon x List.mem_cons_self) hx W.recorder hslot
    rw [outcome_frexp, hexec]
    exact ⟨_, rfl⟩
  | combine op x y =>
    have hxy : x.mark ≠ none ∨ y.mark ≠ none := by simpa [Call.operands] using hmark
    obtain ⟨r, hexec, -⟩ := Handle.recordBinary_yields (i := i) op.opcode
      (hon x List.mem_cons_self) (hon y (List.mem_cons_of_mem x List.mem_cons_self)) hxy
      W.recorder hslot
    exact ⟨_, congrArg (fun answer => answer.1.map some) hexec⟩
  | _ =>
    obtain ⟨x, hx, -⟩ := hmark
    cases hx

end World

/-! ## Creation -/

section Past

variable [∀ w, Scalar (C w)] [∀ w, Elementary (C w)] {past past' : List (Turn C)} {W : World C}
  {direct : Prop}

/-- In these turns the session created the handle: it bound it, or it created an operand of the
    operation that answered it.  A constant operand makes no difference. -/
inductive CreatedBy (past : List (Turn C)) (s : Session w) : Handle (C w) → Prop
  | bound {W : World C} {i : ThreadId} {v : C w} {x : Handle (C w)}
      (turn : ⟨W, i, w, .independent s v⟩ ∈ past)
      (h : W.outcome i (.independent s v) = .ok (some x)) : CreatedBy past s x
  | derived {W : World C} {i : ThreadId} {call : Call C w} {x y : Handle (C w)}
      (turn : ⟨W, i, w, call⟩ ∈ past) (h : W.outcome i call = .ok (some y))
      (hx : x ∈ call.operands) (hmark : x.mark ≠ none) (created : CreatedBy past s x) :
      CreatedBy past s y

/-- What was created stays created. -/
theorem CreatedBy.mono {s : Session w} {x : Handle (C w)} (h : CreatedBy past s x)
    (hsub : ∀ T ∈ past, T ∈ past') : CreatedBy past' s x := by
  -- the turns of which it speaks are in the longer past too
  induction h with
  | bound turn h => exact .bound (hsub _ turn) h
  | derived turn h hx hmark _ ih => exact .derived (hsub _ turn) h hx hmark ih

/-- The mark of a handle is that of the session that created it. -/
theorem CreatedBy.mark {s : Session w} {x : Handle (C w)} (h : CreatedBy past s x) {m : Mark}
    (hm : x.mark = some m) : m.tape = s.id ∧ m.session = s.serial := by
  -- on the way from the input to the handle, every operation was recorded on one tape
  induction h generalizing m with
  | @bound W i v x _ h =>
    have houtcome : W.outcome i (.independent s v) =
        ((s.independent v).exec i W.recorder).1.map some := rfl
    rcases s.independent_cases (i := i) v W.recorder with
      ⟨e, hexec⟩ | ⟨t, -, hid, hsession, hexec⟩
    · rw [houtcome, hexec] at h
      cases h
    · rw [houtcome, hexec] at h
      cases h
      rw [(Handle.mark_place hm).1]
      exact ⟨hid, hsession⟩
  | @derived W i call x y _ h hx hmark _ ih =>
    have hoperation : call.operands ≠ [] := List.ne_nil_of_mem hx
    rcases W.outcomes_of_operation i hoperation with
      ⟨v, h', -⟩ | ⟨u, -, hnone⟩ | ⟨t, u, -, hon, -, h'⟩
    · rw [h'] at h
      cases h
    · exact absurd (hnone x hx) hmark
    · -- the operand lies on the tape that the answer was placed on
      rw [h'] at h
      cases h
      obtain ⟨mx, hmx⟩ := Option.ne_none_iff_exists'.mp hmark
      obtain ⟨htape, hsession, -⟩ := hon x hx mx hmx
      obtain ⟨hid, hserial⟩ := ih hmx
      rw [(Handle.mark_place hm).1]
      exact ⟨htape.symm.trans hid, hsession.symm.trans hserial⟩

end Past

/-! ## Sessions of a run -/

namespace World

/-- What an action leaves of the sessions, if the host keeps none of it. -/
theorem sessions_after (W : World C) (i : ThreadId) (m : RecorderT C Id α)
    {keep : α → World C → World C} (hkeep : ∀ a W', (keep a W').sessions = W'.sessions) :
    (W.after i m keep).sessions = W.sessions := by
  unfold after
  split
  · exact hkeep _ _
  · rfl

/-- A session that is still there after one was closed was there before. -/
theorem mem_sessions_lose {i j : ThreadId} {s : Session w} {v : Width} {s' : Session v}
    {W W' : World C} (h : (j, s') ∈ (W'.lose i s).sessions.get v) (hW : W'.sessions = W.sessions) :
    (j, s') ∈ W.sessions.get v := by
  have hlose : (W'.lose i s).sessions = W.sessions.modify w (·.erase (i, s)) := by
    rw [← hW]
    rfl
  rw [hlose] at h
  by_cases hv : v = w
  · subst hv
    rw [PerWidth.get_modify_self] at h
    exact List.mem_of_mem_erase h
  · rw [PerWidth.get_modify_of_ne _ _ hv] at h
    exact h

variable [∀ w, Scalar (C w)] [∀ w, Elementary (C w)] {W : World C} {past : List (Turn C)}

/-- The sessions after a call are those before it, and the one that it opened, which got the next
    serial. -/
theorem sessions_perform (W : World C) (i : ThreadId) (call : Call C w) (v : Width) :
    (∀ j s, (j, s) ∈ (W.perform i call).sessions.get v → (j, s) ∈ W.sessions.get v) ∨
      ∃ new : Session v, new.serial = W.recorder.nextSerial ∧
        W.recorder.nextSerial < (W.perform i call).recorder.nextSerial ∧
        ∀ j s, (j, s) ∈ (W.perform i call).sessions.get v →
          (j, s) ∈ W.sessions.get v ∨ s = new := by
  have hsame : (W.perform i call).sessions = W.sessions →
      ∀ j s, (j, s) ∈ (W.perform i call).sessions.get v → (j, s) ∈ W.sessions.get v := by
    intro h j s hs
    rw [← h]
    exact hs
  -- a session is opened by one call only, and for one format
  cases call with
  | begin store id capacity =>
    have hperform : W.perform i (.begin store id capacity) =
        W.after i (beginTraceWithCapacity w store id capacity) (hold i) := rfl
    rw [hperform] at hsame ⊢
    -- only an attempt that succeeds adds a session
    rcases Session.begin_outcome (i := i) store id capacity W.recorder with
      ⟨f, r, h, rfl | rfl⟩ | ⟨-, -, h⟩
    · rw [after_of_error h] at hsame ⊢
      exact Or.inl (hsame rfl)
    · rw [after_of_error h] at hsame ⊢
      exact Or.inl (hsame rfl)
    · rw [after_of_ok h]
      let new : Session w := ⟨store, id, W.recorder.nextSerial⟩
      by_cases hv : v = w
      · subst hv
        refine Or.inr ⟨new, rfl, Nat.lt_succ_self _, fun j s hs => ?_⟩
        have hcons : (hold i new W).sessions.get v = (i, new) :: W.sessions.get v :=
          PerWidth.get_modify_self ..
        rcases List.mem_cons.mp (hcons ▸ hs) with heq | hs
        · exact Or.inr (Prod.mk.inj heq).2
        · exact Or.inl hs
      · refine Or.inl fun j s hs => ?_
        have hother : (hold i new W).sessions.get v = W.sessions.get v :=
          PerWidth.get_modify_of_ne _ _ hv
        exact hother ▸ hs
  | independent s x => exact Or.inl (hsame (W.sessions_after i _ fun _ _ => rfl))
  | apply op x => exact Or.inl (hsame (W.sessions_after i _ fun _ _ => rfl))
  | frexp x => exact Or.inl (hsame (W.sessions_after i _ fun _ _ => rfl))
  | combine op x y => exact Or.inl (hsame (W.sessions_after i _ fun _ _ => rfl))
  | dependent s x => exact Or.inl (hsame (W.sessions_after i _ fun _ _ => rfl))
  | endTrace s =>
    exact Or.inl fun j s' h => mem_sessions_lose h (W.sessions_after i s.endTrace fun _ _ => rfl)
  | drop s =>
    exact Or.inl fun j s' h => mem_sessions_lose h (W.sessions_after i s.drop fun _ _ => rfl)
  | remove store id =>
    exact Or.inl (hsame (W.sessions_after i (removeTape w store id) fun _ _ => rfl))
  | takeSlot => exact Or.inl (hsame (W.sessions_after i (takeSlotTape w) fun _ _ => rfl))
  | replaceSlot t => exact Or.inl (hsame (W.sessions_after i (replaceSlotTape t) fun _ _ => rfl))

/-- Every turn of a run was legal. -/
theorem Run.legal {direct : Prop} {W' : World C} (h : W.Run direct past W') {T : Turn C}
    (hT : T ∈ past) : T.before.Legal T.thread T.call := by
  induction h with
  | start => cases hT
  | step _ i call legal _ ih =>
    rcases List.mem_append.mp hT with hT | hT
    · exact ih hT
    · rw [List.mem_singleton.mp hT]
      exact legal

omit [∀ w, Scalar (C w)] [∀ w, Elementary (C w)] in
theorem Legal.has {call : Call C w} (legal : W.Legal i call) {x : Handle (C w)}
    (hx : x ∈ call.operands) : W.Has x := by
  cases call with
  | apply op y | frexp y =>
    rw [List.mem_singleton.mp hx]
    exact legal
  | combine op y z =>
    rcases List.mem_cons.mp hx with rfl | hx
    · exact legal.1
    · rw [List.mem_singleton.mp hx]
      exact legal.2
  | _ => cases hx

/-- The session was open at some time of the run, or is now. -/
def Known (past : List (Turn C)) (W : World C) (s : Session w) : Prop :=
  (∃ i, (i, s) ∈ W.sessions.get w) ∨ ∃ T ∈ past, ∃ i, (i, s) ∈ T.before.sessions.get w

/-- A call makes one session known at most, and that one has the next serial. -/
theorem known_perform (past : List (Turn C)) (W : World C) (i : ThreadId) (call : Call C w)
    (v : Width) :
    (∀ s : Session v, Known (past ++ [⟨W, i, w, call⟩]) (W.perform i call) s → Known past W s) ∨
      ∃ new : Session v, new.serial = W.recorder.nextSerial ∧
        W.recorder.nextSerial < (W.perform i call).recorder.nextSerial ∧
        ∀ s : Session v, Known (past ++ [⟨W, i, w, call⟩]) (W.perform i call) s →
          Known past W s ∨ s = new := by
  have hpast : ∀ s : Session v, (∃ T ∈ past ++ [⟨W, i, w, call⟩], ∃ j,
      (j, s) ∈ T.before.sessions.get v) → Known past W s := by
    rintro s ⟨T, hT, j, hs⟩
    rcases List.mem_append.mp hT with hT | hT
    · exact Or.inr ⟨T, hT, j, hs⟩
    · rw [List.mem_singleton.mp hT] at hs
      exact Or.inl ⟨j, hs⟩
  rcases W.sessions_perform i call v with hsame | ⟨new, hserial, hlt, hnew⟩
  · left
    rintro s (⟨j, hs⟩ | hs)
    · exact Or.inl ⟨j, hsame j s hs⟩
    · exact hpast s hs
  · right
    refine ⟨new, hserial, hlt, ?_⟩
    rintro s (⟨j, hs⟩ | hs)
    · rcases hnew j s hs with hs | rfl
      · exact Or.inl (Or.inl ⟨j, hs⟩)
      · exact Or.inr rfl
    · exact Or.inl (hpast s hs)

/-- What a run knows of its past. -/
structure Remembers (past : List (Turn C)) (W : World C) : Prop where
  serial : ∀ {w : Width} (s : Session w), Known past W s → s.serial < W.recorder.nextSerial
  /-- Serials tell sessions apart. -/
  unique : ∀ {w : Width} (s s' : Session w), Known past W s → Known past W s' →
    s.serial = s'.serial → s = s'
  /-- Every handle that is not a constant has a creator. -/
  creator : ∀ {w : Width} (x : Handle (C w)), x ∈ W.handles.get w → x.mark ≠ none →
    ∃ s, CreatedBy past s x

/-- The handle that a call answers has a creator if the handles before it have. -/
theorem created_of_outcome {call : Call C w} (legal : W.Legal i call)
    (h : ∀ x ∈ W.handles.get w, x.mark ≠ none → ∃ s, CreatedBy past s x) {y : Handle (C w)}
    (hy : W.outcome i call = .ok (some y)) (hmark : y.mark ≠ none) :
    ∃ s, CreatedBy (past ++ [⟨W, i, w, call⟩]) s y := by
  have hturn : (⟨W, i, w, call⟩ : Turn C) ∈ past ++ [⟨W, i, w, call⟩] :=
    List.mem_append_right _ (List.mem_singleton_self _)
  have hmap : ∀ {α : Type} (e : Except Failure α),
      e.map (fun _ => (none : Option (Handle (C w)))) ≠ .ok (some y) := by
    intro α e he
    cases e with
    | ok a => cases he
    | error f => cases he
  by_cases hoperation : call.operands = []
  · -- only the binding of an independent answers a handle
    cases call with
    | independent s v => exact ⟨s, .bound hturn hy⟩
    | apply op x | frexp x => cases hoperation
    | combine op x z => cases hoperation
    | begin store id capacity => exact absurd hy (hmap _)
    | dependent s x => exact absurd hy (hmap _)
    | endTrace s => exact absurd hy (hmap _)
    | drop s | remove store id | takeSlot | replaceSlot t => cases hy
  · rcases W.outcomes_of_operation i hoperation with
      ⟨v, h', -⟩ | ⟨u, h', -⟩ | ⟨t, u, -, -, ⟨x, hx, hxm⟩, -⟩
    · rw [h'] at hy
      cases hy
    · rw [h'] at hy
      cases hy
      exact absurd rfl hmark
    · obtain ⟨s, hs⟩ := h x ((legal.has hx).resolve_left hxm) hxm
      exact ⟨s, .derived hturn hy hx hxm (hs.mono fun T hT => List.mem_append_left _ hT)⟩

/-- A turn adds one session at most, with a serial of its own, and one handle, with a creator. -/
theorem Remembers.step (h : Remembers past W) {call : Call C w} (legal : W.Legal i call) :
    Remembers (past ++ [⟨W, i, w, call⟩]) (W.perform i call) := by
  have hle : W.recorder.nextSerial ≤ (W.perform i call).recorder.nextSerial :=
    (within_perform W i call).recorder.serial
  refine ⟨fun {v} s hs => ?_, fun {v} s s' hs hs' heq => ?_, fun {v} x hx hmark => ?_⟩
  -- serials are below the next one, also that of the session that has just got it
  · rcases known_perform past W i call v with hold | ⟨new, hserial, hlt, hnew⟩
    · exact Nat.lt_of_lt_of_le (h.serial s (hold s hs)) hle
    · rcases hnew s hs with hs | rfl
      · exact Nat.lt_of_lt_of_le (h.serial s hs) hle
      · rw [hserial]
        exact hlt
  · rcases known_perform past W i call v with hold | ⟨new, hserial, -, hnew⟩
    · exact h.unique s s' (hold s hs) (hold s' hs') heq
    · -- the new session has a greater serial than those before it
      rcases hnew s hs with hs | rfl
      · rcases hnew s' hs' with hs' | rfl
        · exact h.unique s s' hs hs' heq
        · have := h.serial s hs
          omega
      · rcases hnew s' hs' with hs' | rfl
        · have := h.serial s' hs'
          omega
        · rfl
  · have hcreated : ∀ {x : Handle (C v)}, x ∈ W.handles.get v → x.mark ≠ none →
        ∃ s, CreatedBy (past ++ [⟨W, i, w, call⟩]) s x := by
      intro x hx hmark
      obtain ⟨s, hs⟩ := h.creator x hx hmark
      exact ⟨s, hs.mono fun T hT => List.mem_append_left _ hT⟩
    by_cases hv : v = w
    -- a handle that is new was answered by this turn, from operands that have a creator
    · subst hv
      rcases mem_handles_perform hx with hx | hy
      · exact hcreated hx hmark
      · exact created_of_outcome legal h.creator hy hmark
    · rw [(within_perform W i call).handles v hv] at hx
      exact hcreated hx hmark

/-! ## Every run -/

variable {direct : Prop}

/-- At the start there is nothing to remember. -/
theorem remembers_start : Remembers [] ({} : World C) := by
  have hsessions : ∀ v, ({} : World C).sessions.get v = [] := congrFun registry_start.1.sessions
  have hknown : ∀ {v : Width} (s : Session v), ¬ Known [] ({} : World C) s := by
    rintro v s (⟨j, hs⟩ | ⟨T, hT, -⟩)
    · rw [hsessions] at hs
      cases hs
    · cases hT
  refine ⟨fun s hs => absurd hs (hknown s), fun s _ hs => absurd hs (hknown s),
    fun {v} x hx => ?_⟩
  cases v with
  | single => cases hx
  | double => cases hx

/-- So it is in every run, by induction over the turns. -/
theorem Run.remembers (h : ({} : World C).Run direct past W) : Remembers past W := by
  induction h with
  | start => exact remembers_start
  | step _ i call legal _ ih => exact ih.step legal

/-- A session that created a handle was open at some time. -/
theorem Run.known (h : ({} : World C).Run direct past W) {s : Session w} {x : Handle (C w)}
    (hx : CreatedBy past s x) : Known past W s := by
  induction hx with
  | bound turn _ => exact Or.inr ⟨_, turn, _, h.legal turn⟩
  | derived _ _ _ _ _ ih => exact ih

/-- A handle with the serial of an open session was created by it. -/
theorem Run.created_of_session (h : ({} : World C).Run direct past W) {s : Session w}
    (hs : (i, s) ∈ W.sessions.get w) {x : Handle (C w)} (hx : W.Has x) {m : Mark}
    (hm : x.mark = some m) (hsession : m.session = s.serial) : CreatedBy past s x := by
  have hmark : x.mark ≠ none := Option.ne_none_iff_exists'.mpr ⟨m, hm⟩
  obtain ⟨s', hs'⟩ := h.remembers.creator x (hx.resolve_left hmark) hmark
  -- some session created it, and a serial belongs to one session only
  have heq : s = s' := h.remembers.unique s s' (Or.inl ⟨i, hs⟩) (h.known hs')
    (hsession.symm.trans (hs'.mark hm).2)
  rw [heq]
  exact hs'

/-- The handles of the session of a tape lie below its next location, until that is cut. -/
theorem Run.loc_lt_next (h : ({} : World C).Run False past W) {t : Tape (C w)}
    (hslot : W.recorder.slot? w i = some t) (haddr : t.Addressable) {x : Handle (C w)}
    (hx : x ∈ W.handles.get w) {m : Mark} (hm : x.mark = some m)
    (hsession : m.session = t.session) : m.loc < t.nextLocation := by
  have hshows : t.recordedValue? m.loc = some x.value :=
    (h.undisturbed.sound w).shows i t hslot haddr x hx m hm hsession
  refine Tape.lt_nextLocation haddr.lt ?_
  -- beyond the tape there would be nothing for it to show
  by_contra hge
  have hnone : t.recordedValue? m.loc = none := Array.getElem?_eq_none (Nat.le_of_not_lt hge)
  rw [hnone] at hshows
  cases hshows

/-- A handle that was created by the session of a tape lies on it. -/
theorem Run.on_of_created (h : ({} : World C).Run False past W) {t : Tape (C w)}
    (hslot : W.recorder.slot? w i = some t) (haddr : t.Addressable) {s : Session w}
    (hid : t.id = s.id) (hsession : t.session = s.serial) {x : Handle (C w)} (hx : W.Has x)
    (hcreated : x.mark ≠ none → CreatedBy past s x) : x.On t := by
  intro m hm
  have hmark : x.mark ≠ none := Option.ne_none_iff_exists'.mpr ⟨m, hm⟩
  obtain ⟨htape, hserial⟩ := (hcreated hmark).mark hm
  have hsame : m.session = t.session := hserial.trans hsession.symm
  exact ⟨htape.trans hid.symm, hsame,
    h.loc_lt_next hslot haddr (hx.resolve_left hmark) hm hsame⟩

/-- The tape in the slot of a thread with an open session is the tape of that session. -/
theorem Run.slot_of_session (h : ({} : World C).Run False past W) {s : Session w}
    (hs : (i, s) ∈ W.sessions.get w) :
    ∃ t, W.recorder.slot? w i = some t ∧ t.id = s.id ∧ t.session = s.serial := by
  have hlabel : (W.recorder.slot? w i).map (fun t => (t.id, t.session)) = some (s.id, s.serial) :=
    (h.attended (Or.inl registry_start)).label_of_mem hs
  obtain ⟨t, hslot, heq⟩ := Option.map_eq_some_iff.mp hlabel
  exact ⟨t, hslot, (Prod.mk.inj heq).1, (Prod.mk.inj heq).2⟩

/-- The session of the tape in the slot of a thread is open there. -/
theorem Run.session_of_slot (h : ({} : World C).Run False past W) {t : Tape (C w)}
    (hslot : W.recorder.slot? w i = some t) :
    ∃ s : Session w, (i, s) ∈ W.sessions.get w ∧ t.id = s.id ∧ t.session = s.serial := by
  have hlabel : W.registry.label w i = some (t.id, t.session) := by
    show (W.recorder.slot? w i).map _ = _
    rw [hslot, Option.map_some]
  obtain ⟨s, hs, heq⟩ := (h.attended (Or.inl registry_start)).mem_of_label hlabel
  exact ⟨s, hs, (Prod.mk.inj heq).1, (Prod.mk.inj heq).2⟩

/-- An operation succeeds exactly if the session that is open on the thread created all its operands
    but the constants. -/
theorem operation_succeeds_iff (h : ({} : World C).Run False past W) {call : Call C w}
    (legal : W.Legal i call) (hmark : ∃ x ∈ call.operands, x.mark ≠ none)
    (haddr : ∀ t, W.recorder.slot? w i = some t → t.Addressable) :
    (∃ answer, W.outcome i call = .ok answer) ↔ ∃ s, (i, s) ∈ W.sessions.get w ∧
      ∀ x ∈ call.operands, x.mark ≠ none → CreatedBy past s x := by
  constructor
  · -- success means that it was recorded, on the tape in the slot, whose session is open
    rintro ⟨answer, houtcome⟩
    obtain ⟨y, hy, hym⟩ := hmark
    rcases W.outcomes_of_operation i (List.ne_nil_of_mem hy) with
      ⟨v, h', -⟩ | ⟨u, -, hnone⟩ | ⟨t, u, hslot, hon, -, -⟩
    · rw [h'] at houtcome
      cases houtcome
    · exact absurd (hnone y hy) hym
    · obtain ⟨s, hs, -, hsession⟩ := h.session_of_slot hslot
      refine ⟨s, hs, fun x hx hxm => ?_⟩
      obtain ⟨m, hm⟩ := Option.ne_none_iff_exists'.mp hxm
      exact h.created_of_session hs (legal.has hx) hm ((hon x hx m hm).2.1.trans hsession)
  · -- the open session has its tape in the slot, and what it created lies on that tape
    rintro ⟨s, hs, hcreated⟩
    obtain ⟨t, hslot, hid, hsession⟩ := h.slot_of_session hs
    refine outcome_of_on hslot (fun x hx => ?_) hmark
    exact h.on_of_created hslot (haddr t hslot) hid hsession (legal.has hx) (hcreated x hx)

/-- A handle is accepted as a dependent exactly if it is a constant or was created by this very
    session. -/
theorem dependent_succeeds_iff (h : ({} : World C).Run False past W) {s : Session w}
    {x : Handle (C w)} (legal : W.Legal i (.dependent s x))
    (haddr : ∀ t, W.recorder.slot? w i = some t → t.Addressable) :
    (∃ answer, W.outcome i (.dependent s x) = .ok answer) ↔
      x.mark = none ∨ CreatedBy past s x := by
  obtain ⟨hs, hx⟩ := legal
  have houtcome : W.outcome i (.dependent s x) =
      ((s.dependent x).exec i W.recorder).1.map fun _ => none := rfl
  rw [houtcome]
  constructor
  · rintro ⟨answer, hanswer⟩
    rcases s.dependent_cases (i := i) x W.recorder with ⟨v, h'⟩ | ⟨t, -, hsession, hon, -⟩
    · rw [h'] at hanswer
      cases hanswer
    · cases hm : x.mark with
      | none => exact Or.inl rfl
      | some m => exact Or.inr (h.created_of_session hs hx hm ((hon m hm).2.1.trans hsession))
  · intro hcreated
    obtain ⟨t, hslot, hid, hsession⟩ := h.slot_of_session hs
    have hon : x.On t := h.on_of_created hslot (haddr t hslot) hid hsession hx fun hxm =>
      hcreated.resolve_left hxm
    obtain ⟨r, hexec, -⟩ := Session.dependent_yields hid hsession hon W.recorder hslot
    rw [hexec]
    exact ⟨none, rfl⟩

/-- What is refused is a violation, and changes nothing at all. -/
theorem perform_of_refused {call : Call C w}
    (hcall : call.operands ≠ [] ∨ ∃ s x, call = .dependent s x) {f : Failure}
    (hf : W.outcome i call = .error f) : (∃ v, f = .violation v) ∧ W.perform i call = W := by
  -- of all outcomes only the refusal is an error
  rcases hcall with hoperation | ⟨s, x, rfl⟩
  · rcases W.outcomes_of_operation i hoperation with
      ⟨v, h', hsame⟩ | ⟨u, h', -⟩ | ⟨t, u, -, -, -, h'⟩
    · rw [h'] at hf
      cases hf
      exact ⟨⟨v, rfl⟩, hsame⟩
    · rw [h'] at hf
      cases hf
    · rw [h'] at hf
      cases hf
  · have houtcome : W.outcome i (.dependent s x) =
        ((s.dependent x).exec i W.recorder).1.map fun _ => none := rfl
    rw [houtcome] at hf
    rcases s.dependent_cases (i := i) x W.recorder with ⟨v, h'⟩ | ⟨t, -, -, -, h'⟩
    · rw [h'] at hf
      cases hf
      exact ⟨⟨v, rfl⟩, after_of_error h'⟩
    · rw [h'] at hf
      cases hf

end World

variable [∀ w, Scalar (C w)] [∀ w, Elementary (C w)]

/-- In every run that leaves the slots alone, whatever became of other sessions and of the ids they
    used: an operation on handles that are not all constants succeeds exactly if those were created
    by the session that is open on the thread; marking a dependent succeeds exactly if the handle is
    a constant or was created by that very session; and what does not succeed is a violation that
    changes nothing. -/
theorem handles_work_in_own_session {past : List (Turn C)} {W : World C}
    (h : ({} : World C).Run False past W) {i : ThreadId} {w : Width} {call : Call C w}
    (legal : W.Legal i call)
    (hsize : ∀ t, W.recorder.slot? w i = some t → t.values.size < UInt32.size - 1) :
    ((∃ x ∈ call.operands, x.mark ≠ none) →
      ((∃ answer, W.outcome i call = .ok answer) ↔ ∃ s, (i, s) ∈ W.sessions.get w ∧
        ∀ x ∈ call.operands, x.mark ≠ none → CreatedBy past s x)) ∧
      (∀ s x, call = .dependent s x →
        ((∃ answer, W.outcome i call = .ok answer) ↔ x.mark = none ∨ CreatedBy past s x)) ∧
      (call.operands ≠ [] ∨ (∃ s x, call = .dependent s x) →
        ∀ f, W.outcome i call = .error f → (∃ v, f = .violation v) ∧ W.perform i call = W) := by
  have haddr : ∀ t, W.recorder.slot? w i = some t → t.Addressable :=
    fun t ht => Nat.le_of_lt (hsize t ht)
  refine ⟨fun hmark => World.operation_succeeds_iff h legal hmark haddr, ?_,
    fun hcall f hf => World.perform_of_refused hcall hf⟩
  rintro s x rfl
  exact World.dependent_succeeds_iff h legal haddr

/-- A session was dropped, and another one records under its id.  The handle of the first is
    refused, without a trace, and that of the second is accepted. -/
theorem handles_work_in_own_session_of_reused_id :
    ∃ (past : List (Turn Width.Number)) (W : World Width.Number)
      (x y : Handle (Width.Number .double)), ({} : World Width.Number).Run False past W ∧
      W.Has x ∧ W.Has y ∧ (∃ answer, W.outcome 0 (.apply .neg y) = .ok answer) ∧
      (¬ ∃ answer, W.outcome 0 (.apply .neg x) = .ok answer) ∧
      W.perform 0 (.apply .neg x) = W := by
  let s₁ : Session .double := ⟨"a", 7, 1⟩
  let s₂ : Session .double := ⟨"a", 7, 2⟩
  let x : Handle (Width.Number .double) := ⟨(5 : Float), some ⟨0, 7, 1⟩⟩
  let y : Handle (Width.Number .double) := ⟨(6 : Float), some ⟨0, 7, 2⟩⟩
  let W₁ := ({} : World Width.Number).perform 0 (.begin "a" 7 0 : Call _ .double)
  let W₂ := W₁.perform 0 (.independent s₁ (5 : Float))
  let W₃ := W₂.perform 0 (.drop s₁)
  let W₄ := W₃.perform 0 (.begin "a" 7 0 : Call _ .double)
  let W := W₄.perform 0 (.independent s₂ (6 : Float))
  have h₁ : ({} : World Width.Number).Run False _ W₁ := .call trivial id
  have h₂ : ({} : World Width.Number).Run False _ W₂ := h₁.step 0 _ List.mem_cons_self id
  have h₃ : ({} : World Width.Number).Run False _ W₃ := h₂.step 0 _ List.mem_cons_self id
  have h₄ : ({} : World Width.Number).Run False _ W₄ := h₃.step 0 _ trivial id
  have h : ({} : World Width.Number).Run False _ W := h₄.step 0 _ List.mem_cons_self id
  have hhandles : W.handles.get .double = [y, x] := rfl
  have hsessions : W.sessions.get .double = [(0, s₂)] := rfl
  have hx : W.Has x := Or.inr (hhandles ▸ List.mem_cons_of_mem y List.mem_cons_self)
  have hy : W.Has y := Or.inr (hhandles ▸ List.mem_cons_self)
  have hslot : W.recorder.slot? .double 0 = some (⟨7, 2, #[], #[6], #[0], #[]⟩ : Tape Float) := rfl
  have hsize : ∀ u, W.recorder.slot? .double 0 = some u → u.values.size < UInt32.size - 1 := by
    intro u hu
    rw [hslot] at hu
    cases hu
    decide
  have hcreated : ∀ {past : List (Turn Width.Number)},
      ⟨W₄, 0, .double, .independent s₂ (6 : Float)⟩ ∈ past → CreatedBy past s₂ y :=
    fun turn => .bound turn rfl
  have hy' := (handles_work_in_own_session h (show W.Legal 0 (.apply .neg y) from hy) hsize).1
    ⟨y, List.mem_singleton_self _, Option.some_ne_none _⟩
  obtain ⟨hx', -, hrefused⟩ :=
    handles_work_in_own_session h (show W.Legal 0 (.apply .neg x) from hx) hsize
  have hno : ¬ ∃ answer, W.outcome 0 (.apply .neg x) = .ok answer := by
    rw [hx' ⟨x, List.mem_singleton_self _, Option.some_ne_none _⟩, hsessions]
    rintro ⟨s, hs, hall⟩
    -- the only open session has another serial than the handle
    have hserial := ((hall x (List.mem_singleton_self _) (Option.some_ne_none _)).mark rfl).2
    cases List.mem_singleton.mp hs
    cases hserial
  refine ⟨_, W, x, y, h, hx, hy, hy'.mpr ⟨s₂, hsessions ▸ List.mem_singleton_self _, ?_⟩, hno, ?_⟩
  · intro z hz _
    rw [List.mem_singleton.mp hz]
    exact hcreated (List.mem_append_right _ (List.mem_singleton_self _))
  · cases houtcome : W.outcome 0 (.apply .neg x) with
    | ok answer => exact absurd ⟨answer, houtcome⟩ hno
    | error f => exact (hrefused (Or.inl (List.cons_ne_nil _ _)) f houtcome).2

end DiffTape
