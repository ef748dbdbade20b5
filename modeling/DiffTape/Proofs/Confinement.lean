/-
  CODE THAT RECORDS, BUT IS NOT GIVEN THE SESSION.

  The code that `record` runs gets handles, and nothing else of the session.  It can compute with
  them and with the handles of other sessions, try to open sessions, remove tapes, fail, or let
  other threads do the like; but it cannot bind an independent, mark a dependent, or end the
  session.  So whatever it does:

  1. `Tape.Keeps`        — the tape keeps its inputs, and the dependents that were marked so far;
  2. `Handle.Settled`    — a handle of the session lies on the tape and shows what is recorded
                           there.  That it lies there is so at ANY length of the tape, also when
                           locations are cut; the value only while they are words of their own;
  3. `World.InProgress`  — the session stays open, and the only one, with its tape in the slot.

  `InProgress.perform` is the step: every call that is not made with the session keeps this.
  `InProgress.run` is the induction.  Slots of other threads may hold tapes that were put there
  directly, as long as they are of earlier sessions.
-/
import DiffTape.Proofs.Sealing

namespace DiffTape

/-! ## Arrays of lookups -/

section Arrays

variable {α β : Type} {f g : α → Option β} {xs : Array α} {bs : Array β}

/-- What is found stays found where more can be found. -/
theorem mapM_mono (h : ∀ a b, f a = some b → g a = some b) (hf : xs.mapM f = some bs) :
    xs.mapM g = some bs := by
  -- an array is looked up as the list of its elements
  have hlist : ∀ (l : List α) (m : List β), l.mapM f = some m → l.mapM g = some m := by
    intro l
    induction l with
    | nil => exact fun m hm => hm
    | cons a rest ih =>
      intro m hm
      rw [List.mapM_cons] at hm ⊢
      obtain ⟨b, hb, hrest⟩ := Option.bind_eq_some_iff.mp hm
      obtain ⟨m', hm', hcons⟩ := Option.bind_eq_some_iff.mp hrest
      rw [h a b hb, Option.bind_eq_bind, Option.bind_some, ih m' hm', Option.bind_eq_bind,
        Option.bind_some]
      exact hcons
  rw [Array.mapM_eq_mapM_toList, Option.map_eq_map, Option.map_eq_some_iff] at hf ⊢
  obtain ⟨m, hm, rfl⟩ := hf
  exact ⟨m, hlist _ m hm, rfl⟩

/-- One more thing that is found comes last. -/
theorem mapM_push (hf : xs.mapM f = some bs) {a : α} {b : β} (hb : f a = some b) :
    (xs.push a).mapM f = some (bs.push b) := by
  rw [Array.mapM_eq_mapM_toList, Option.map_eq_map, Option.map_eq_some_iff] at hf ⊢
  obtain ⟨m, hm, rfl⟩ := hf
  refine ⟨m ++ [b], ?_, by simp⟩
  rw [Array.toList_push, List.mapM_append, hm, List.mapM_cons, hb]
  rfl

end Arrays

variable {F : Type}

/-! ## What a tape keeps of its session -/

/-- The tape has the inputs `x`, and the handles `ys` as its dependents, both in this order. -/
structure Tape.Keeps (x : Array F) (ys : Array (Handle F)) (t : Tape F) : Prop where
  independents : t.independents.size = x.size
  dependents : t.dependents.size = ys.size
  /-- A handle that is not a constant is marked where it lies. -/
  location : ∀ (k : Nat) (y : Handle F) (m : Mark), ys[k]? = some y → y.mark = some m →
    t.dependents[k]? = some m.loc
  recorded : t.values.size < UInt32.size →
    t.recordedInputs? = some x ∧ t.recordedOutputs? = some (ys.map (·.value))

/-- If the handle is of the session of the tape, it lies on the tape, and shows the value that is
    recorded there. -/
def Handle.Settled (y : Handle F) (t : Tape F) : Prop :=
  ∀ m, y.mark = some m → m.session = t.session → m.tape = t.id ∧ m.loc.toNat < t.values.size ∧
    (t.values.size < UInt32.size → t.recordedValue? m.loc = some y.value)

section Append

variable {t t' : Tape F} {x : Array F} {ys : Array (Handle F)} {v : F}

/-- A tape that still has locations of its own had them before a value was appended. -/
theorem lt_of_push (hpush : t'.values = t.values.push v) (h : t'.values.size < UInt32.size) :
    t.values.size < UInt32.size := by
  rw [hpush, Array.size_push] at h
  exact Nat.lt_of_succ_lt h

/-- A tape keeps what it kept when a value is appended. -/
theorem Tape.Keeps.of_push (h : t.Keeps x ys) (hpush : t'.values = t.values.push v)
    (hin : t'.independents = t.independents) (hout : t'.dependents = t.dependents) :
    t'.Keeps x ys := by
  refine ⟨hin ▸ h.independents, hout ▸ h.dependents, hout ▸ h.location, fun hsize => ?_⟩
  obtain ⟨hx, hy⟩ := h.recorded (lt_of_push hpush hsize)
  unfold recordedInputs? recordedOutputs?
  rw [hin, hout]
  exact ⟨mapM_mono (fun _ _ => recordedValue?_of_push hpush) hx,
    mapM_mono (fun _ _ => recordedValue?_of_push hpush) hy⟩

/-- The tape of a new session has no inputs and no dependents. -/
theorem Tape.keeps_empty (id : TapeId) (session : Nat) :
    Keeps #[] #[] ({ id, session } : Tape F) := by
  have hnone : (#[] : Array Location).mapM ({ id, session } : Tape F).recordedValue? = some #[] :=
    Array.mapM_empty _
  refine ⟨rfl, rfl, fun k y m hy => ?_, fun _ => ⟨hnone, ?_⟩⟩
  · rw [Array.getElem?_empty] at hy
    cases hy
  · rw [Array.map_empty]
    exact hnone

/-- Binding an independent adds to the inputs. -/
theorem Tape.Keeps.appendIndependent (h : t.Keeps x ys) (v : F) :
    (t.appendIndependent v).Keeps (x.push v) ys := by
  have hpush : (t.appendIndependent v).values = t.values.push v := rfl
  refine ⟨?_, h.dependents, h.location, fun hsize => ?_⟩
  · show (t.independents.push t.nextLocation).size = _
    rw [Array.size_push, Array.size_push, h.independents]
  · have hlt := lt_of_push hpush hsize
    obtain ⟨hx, hy⟩ := h.recorded hlt
    exact ⟨mapM_push (mapM_mono (fun _ _ => recordedValue?_of_push hpush) hx)
        (recordedValue?_push_next hpush hlt),
      mapM_mono (fun _ _ => recordedValue?_of_push hpush) hy⟩

/-- Marking one more location adds a handle that shows what is recorded there. -/
theorem Tape.Keeps.appendLocation (h : t.Keeps x ys) {y : Handle F} {loc : Location}
    (hloc : ∀ m, y.mark = some m → m.loc = loc)
    (hshows : t.values.size < UInt32.size → t.recordedValue? loc = some y.value) :
    (t.appendDependent loc).Keeps x (ys.push y) := by
  refine ⟨h.independents, ?_, fun k z m hz hm => ?_, fun hsize => ?_⟩
  · show (t.dependents.push loc).size = _
    rw [Array.size_push, Array.size_push, h.dependents]
  · show (t.dependents.push loc)[k]? = some m.loc
    rw [Array.getElem?_push] at hz ⊢
    rw [h.dependents]
    -- the handle that was added is at the end of both arrays
    by_cases hk : k = ys.size
    · rw [if_pos hk] at hz ⊢
      cases hz
      rw [hloc m hm]
    · rw [if_neg hk] at hz ⊢
      exact h.location k z m hz hm
  · obtain ⟨hx, hy⟩ := h.recorded hsize
    refine ⟨hx, ?_⟩
    rw [Array.map_push]
    exact mapM_push hy (hshows hsize)

/-- Marking a handle of the session, or a constant, adds it to the dependents. -/
theorem Tape.Keeps.appendDependent (h : t.Keeps x ys) {y : Handle F} (hy : y.Settled t)
    (hown : ∀ m, y.mark = some m → m.session = t.session) :
    (Session.appendDependent y t).Keeps x (ys.push y) := by
  cases hmark : y.mark with
  | none =>
    have hpush : (t.appendConst y.value).values = t.values.push y.value := rfl
    rw [Session.appendDependent_of_constant hmark]
    -- its value is appended first, which disturbs nothing, and is then marked
    refine (h.of_push hpush rfl rfl).appendLocation (fun m hm => ?_) fun hsize => ?_
    · rw [hmark] at hm
      cases hm
    · exact recordedValue?_push_next hpush (lt_of_push hpush hsize)
  | some m =>
    rw [Session.appendDependent_of_mark hmark]
    refine h.appendLocation (fun m' hm => ?_) (hy m hmark (hown m hmark)).2.2
    rw [hmark] at hm
    cases hm
    rfl

namespace Handle

/-- A handle stays settled when a value is appended. -/
theorem Settled.of_push {y : Handle F} (h : y.Settled t) (hpush : t'.values = t.values.push v)
    (hid : t'.id = t.id) (hsession : t'.session = t.session) : y.Settled t' := by
  intro m hm hown
  obtain ⟨htape, hloc, hshows⟩ := h m hm (hown.trans hsession)
  refine ⟨htape.trans hid.symm, ?_, fun hsize => ?_⟩
  · rw [hpush, Array.size_push]
    exact Nat.lt_succ_of_lt hloc
  · exact Tape.recordedValue?_of_push hpush (hshows (lt_of_push hpush hsize))

/-- And so it does when a dependent is marked. -/
theorem Settled.appendDependent {y : Handle F} (h : y.Settled t) (z : Handle F) :
    y.Settled (Session.appendDependent z t) := by
  cases hmark : z.mark with
  | none =>
    rw [Session.appendDependent_of_constant hmark]
    have hpush : (t.appendConst z.value).values = t.values.push z.value := rfl
    exact h.of_push hpush rfl rfl
  | some m =>
    rw [Session.appendDependent_of_mark hmark]
    exact h

/-- A new handle is settled on the tape with its value, at any length. -/
theorem settled_place (hpush : t'.values = t.values.push v) (hid : t'.id = t.id) :
    (place v t.nextLocation t.id t.session).Settled t' := by
  intro m hm _
  obtain ⟨rfl, hvalue⟩ := mark_place hm
  refine ⟨hid.symm, ?_, fun hsize => ?_⟩
  · rw [hpush, Array.size_push]
    exact Nat.lt_succ_of_le t.nextLocation_le
  · rw [hvalue]
    exact Tape.recordedValue?_push_next hpush (lt_of_push hpush hsize)

/-- A handle of another session is settled trivially. -/
theorem settled_of_ne {y : Handle F} (h : ∀ m, y.mark = some m → m.session ≠ t.session) :
    y.Settled t :=
  fun m hm hown => absurd hown (h m hm)

end Handle

end Append

variable {C : Width → Type} {w v : Width} {α : Type} {i j : ThreadId}

/-- The call is made with the session. -/
inductive Call.Uses (s : Session w) : {v : Width} → Call C v → Prop
  | independent (v : C w) : Uses s (.independent s v)
  | dependent (x : Handle (C w)) : Uses s (.dependent s x)
  | endTrace : Uses s (.endTrace s)
  | drop : Uses s (.drop s)

namespace World

variable {W W' : World C} {s : Session w} {x : Array (C w)} {t : Tape (C w)}

/-- The session is open, and the only one; it has bound `x` and marked nothing, on the tape `t` that
    is in the slot of its thread. -/
structure InProgress (W : World C) (i : ThreadId) (s : Session w) (x : Array (C w))
    (t : Tape (C w)) : Prop where
  held : W.registry.HeldBy i s
  slot : W.recorder.slot? w i = some t
  owns : s.Owns t
  keeps : t.Keeps x #[]
  settled : ∀ y ∈ W.handles.get w, y.Settled t
  /-- No other slot has a tape of this session. -/
  alone : ∀ j u, W.recorder.slot? w j = some u → u.session = s.serial → j = i

/-- A constant is nothing to the session. -/
theorem InProgress.gain_constant (h : W.InProgress i s x t) (c : C w) :
    (gain (.constant c) W).InProgress i s x t := by
  refine ⟨h.held, h.slot, h.owns, h.keeps, fun y hy => ?_, h.alone⟩
  have hcons : (gain (.constant c) W).handles.get w = .constant c :: W.handles.get w :=
    PerWidth.get_modify_self ..
  rw [hcons] at hy
  rcases List.mem_cons.mp hy with rfl | hy
  · exact fun m hm => nomatch hm
  · exact h.settled y hy

/-- A value is appended to the tape of some thread, and its handle is answered. -/
theorem InProgress.append (h : W.InProgress i s x t) {u : Tape (C w)}
    (hslot : W.recorder.slot? w j = some u) {c : C w} {f : Tape (C w) → Tape (C w)}
    (hid : ∀ u, (f u).id = u.id ∧ (f u).session = u.session)
    (hpush : ∀ u, (f u).values = u.values.push c) {x' : Array (C w)}
    (hkeeps : j = i → (f t).Keeps x' #[]) (hsame : j ≠ i → x' = x) :
    ∃ t', (gain (.place c u.nextLocation u.id u.session)
      { W with recorder := W.recorder.modifySlot w j f }).InProgress i s x' t' := by
  let W' : World C := gain (.place c u.nextLocation u.id u.session)
    { W with recorder := W.recorder.modifySlot w j f }
  -- the registry knows tapes by their ids and serials, which an append does not change
  have hheld : W'.registry.HeldBy i s := by
    have hregistry : W'.registry = W.registry := W.registry_modifySlot w j hid
    rw [hregistry]
    exact h.held
  have hslots : W'.recorder.slot? w = Function.update (W.recorder.slot? w) j (some (f u)) :=
    Recorder.slot?_modifySlot hslot f
  have hhandles : W'.handles.get w =
      .place c u.nextLocation u.id u.session :: W.handles.get w := PerWidth.get_modify_self ..
  have halone : ∀ k u', W'.recorder.slot? w k = some u' → u'.session = s.serial → k = i := by
    intro k u' hu' hsession
    rw [hslots] at hu'
    rcases View.eq_or_of_update hu' with ⟨rfl, heq⟩ | ⟨-, hold⟩
    · cases heq
      exact h.alone k u hslot ((hid u).2.symm.trans hsession)
    · exact h.alone k u' hold hsession
  by_cases hj : j = i
  · -- the tape of the session itself
    subst hj
    have hut : u = t := Option.some.inj (hslot.symm.trans h.slot)
    subst hut
    refine ⟨f u, hheld, ?_, ⟨(hid u).1.trans h.owns.1, (hid u).2.trans h.owns.2⟩, hkeeps rfl,
      fun y hy => ?_, halone⟩
    · rw [hslots, Function.update_self]
    · rw [hhandles] at hy
      rcases List.mem_cons.mp hy with rfl | hy
      · exact Handle.settled_place (hpush u) (hid u).1
      · exact (h.settled y hy).of_push (hpush u) (hid u).1 (hid u).2
  · -- the tape of another thread, and so of another session
    rw [hsame hj]
    refine ⟨t, hheld, ?_, h.owns, h.keeps, fun y hy => ?_, halone⟩
    · rw [hslots, Function.update_of_ne (Ne.symm hj)]
      exact h.slot
    · rw [hhandles] at hy
      rcases List.mem_cons.mp hy with rfl | hy
      · refine Handle.settled_of_ne fun m hm hown => hj ?_
        rw [(Handle.mark_place hm).1] at hown
        exact h.alone j u hslot (hown.trans h.owns.2)
      · exact h.settled y hy

variable [∀ w, Scalar (C w)] [∀ w, Elementary (C w)]

/-- An operation is recorded, on whichever thread. -/
theorem InProgress.recordUnary (h : W.InProgress i s x t) (op : Opcode) (aux : Aux)
    (y : Handle (C w)) : ∃ t', (W.after j (y.recordUnary op aux) gain).InProgress i s x t' := by
  rcases y.recordUnary_cases (i := j) op aux W.recorder with
    ⟨f, hf⟩ | ⟨-, hf⟩ | ⟨u, hslot, -, -, hf⟩
  · rw [after_of_error hf]
    exact ⟨t, h⟩
  · rw [after_of_ok hf]
    exact ⟨t, h.gain_constant _⟩
  · rw [after_of_ok hf]
    refine h.append hslot ?_ ?_ (fun _ => ?_) fun _ => rfl
    · exact fun _ => ⟨rfl, rfl⟩
    · exact fun _ => rfl
    · exact h.keeps.of_push rfl rfl rfl

/-- The same of two operands. -/
theorem InProgress.recordBinary (h : W.InProgress i s x t) (op : Opcode) (y z : Handle (C w)) :
    ∃ t', (W.after j (y.recordBinary op z) gain).InProgress i s x t' := by
  rcases y.recordBinary_cases (i := j) op z W.recorder with
    ⟨f, hf⟩ | ⟨-, -, hf⟩ | ⟨u, hslot, -, -, -, hf⟩
  · rw [after_of_error hf]
    exact ⟨t, h⟩
  · rw [after_of_ok hf]
    exact ⟨t, h.gain_constant _⟩
  · rw [after_of_ok hf]
    refine h.append hslot ?_ ?_ (fun _ => ?_) fun _ => rfl
    · exact fun _ => ⟨rfl, rfl⟩
    · exact fun _ => rfl
    · exact h.keeps.of_push rfl rfl rfl

/-- A call that is not made with the session is nothing to the registry. -/
theorem registry_perform_of_unused (h : W.registry.HeldBy i s) {call : Call C v}
    (legal : W.Legal j call) (indirect : ¬ call.IsDirect) (unused : ¬ call.Uses s) :
    (W.perform j call).registry = W.registry := by
  -- a call that registers something opens a session, which is refused, or closes the open one
  by_cases hregisters : call.Registers
  · cases call with
    | begin store id capacity => rw [perform_begin_of_process h.process]
    | endTrace s' =>
      cases h.eq_of_mem (show (j, s') ∈ W.registry.sessions v from legal)
      exact absurd .endTrace unused
    | drop s' =>
      cases h.eq_of_mem (show (j, s') ∈ W.registry.sessions v from legal)
      exact absurd .drop unused
    | takeSlot | replaceSlot u => exact absurd trivial indirect
    | independent | apply | frexp | combine | dependent | remove => cases hregisters
  · exact W.registry_perform_of_quiet j hregisters

omit [∀ w, Scalar (C w)] [∀ w, Elementary (C w)] in
/-- Nothing changes for the session where no slot and no handle of its format does. -/
theorem InProgress.of_same (h : W.InProgress i s x t) (hregistry : W'.registry = W.registry)
    (hslot : W'.recorder.slot? w = W.recorder.slot? w)
    (hhandles : W'.handles.get w = W.handles.get w) : W'.InProgress i s x t := by
  refine ⟨hregistry ▸ h.held, hslot ▸ h.slot, h.owns, h.keeps, hhandles ▸ h.settled, ?_⟩
  rw [hslot]
  exact h.alone

/-- THE STEP.  A call that is not made with the session leaves it in progress. -/
theorem InProgress.perform (h : W.InProgress i s x t) {call : Call C v} (legal : W.Legal j call)
    (indirect : ¬ call.IsDirect) (unused : ¬ call.Uses s) :
    ∃ t', (W.perform j call).InProgress i s x t' := by
  have hregistry := registry_perform_of_unused h.held legal indirect unused
  by_cases hv : w = v
  · subst hv
    -- any session that a call could be made with is this one, for no other is open
    have hopen : ∀ {s' : Session w}, (j, s') ∈ W.sessions.get w →
        (⟨w, j, s'⟩ : (w : Width) × ThreadId × Session w) = ⟨w, i, s⟩ := fun hs' =>
      h.held.eq_of_mem hs'
    cases call with
    | begin store id capacity =>
      rw [perform_begin_of_process h.held.process]
      exact ⟨t, h⟩
    | independent s' c =>
      cases hopen legal
      exact absurd (.independent c) unused
    | apply op y => exact h.recordUnary _ _ y
    | frexp y =>
      show ∃ t', (W.after j y.frexp fun answer => gain answer.1).InProgress i s x t'
      rw [after_frexp]
      exact h.recordUnary _ _ y
    | combine op y z => exact h.recordBinary _ y z
    | dependent s' y =>
      cases hopen legal.1
      exact absurd (.dependent y) unused
    | endTrace s' =>
      cases hopen legal
      exact absurd .endTrace unused
    | drop s' =>
      cases hopen legal
      exact absurd .drop unused
    | remove store id => exact ⟨t, h.of_same hregistry rfl rfl⟩
    | takeSlot | replaceSlot u => exact absurd trivial indirect
  · -- the other format has slots and handles of its own
    have hwithin := W.within_perform j call
    exact ⟨t, h.of_same hregistry (hwithin.recorder.slot w hv) (hwithin.handles w hv)⟩

/-- THE INDUCTION.  So does a run of such calls. -/
theorem InProgress.run (h : W.InProgress i s x t) {past : List (Turn C)}
    (hrun : W.Run False past W') (unused : ∀ T ∈ past, ¬ T.call.Uses s) :
    ∃ t', W'.InProgress i s x t' := by
  induction hrun with
  | start => exact ⟨t, h⟩
  | @step past W₁ _ j v call legal allowed ih =>
    obtain ⟨hpast, hlast⟩ := List.forall_mem_append.mp unused
    obtain ⟨t₁, h₁⟩ := ih hpast
    exact h₁.perform legal allowed (hlast _ (List.mem_singleton_self _))

end World

end DiffTape
