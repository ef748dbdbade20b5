/-
  A WHOLE SESSION.

  `record` opens a session, runs traced code in it, marks what the code answers as dependents, and
  seals the tape.  If anything fails on the way, the session is dropped.

  Traced code may do whatever a host does, other than to keep a session open: make calls, fail, or
  record again.  `record_does` takes `record` apart into calls: if the traced code is a run of
  calls, then so is the whole.  So what is true of every run is true in the midst of a recording,
  and after it, however it ends.

    `World.Does`   — an action of a thread that is a run of calls, with what is true afterwards
    `World.Traces` — traced code that is
-/
import DiffTape.Proofs.Registry

namespace DiffTape

variable {C : Width → Type} {w : Width} {α β : Type} {i : ThreadId}

/-! ## Actions that may fail -/

section Catch

variable {m : RecorderT C Id α} {handler : Failure → RecorderT C Id α} {r r' : Recorder C}

/-- What succeeds is not caught. -/
theorem exec_tryCatch_of_ok {a : α} (h : m.exec i r = (.ok a, r')) :
    (tryCatch m handler).exec i r = (.ok a, r') := by
  unfold RecorderT.exec at h ⊢
  simp only [tryCatch, tryCatchThe, MonadExceptOf.tryCatch, ExceptT.tryCatch, ExceptT.mk, bind,
    StateT.bind]
  rw [h]
  rfl

/-- What fails is handled in the state that it has left: nothing of it is taken back. -/
theorem exec_tryCatch_of_error {f : Failure} (h : m.exec i r = (.error f, r')) :
    (tryCatch m handler).exec i r = (handler f).exec i r' := by
  unfold RecorderT.exec at h ⊢
  simp only [tryCatch, tryCatchThe, MonadExceptOf.tryCatch, ExceptT.tryCatch, ExceptT.mk, bind,
    StateT.bind]
  rw [h]

end Catch

/-! ## What recording comes to -/

/-- What is done in the session of a recording: its independents are bound, the code runs, and what
    it answers is marked. -/
def Session.tracing (s : Session w) (x : Array (C w))
    (body : Array (Handle (C w)) → RecorderT C Id (Array (Handle (C w)))) :
    RecorderT C Id (Array (C w)) := do
  let outputs ← body (← s.independents x)
  outputs.mapM s.dependent

section Record

variable {r r' r'' : Recorder C} {store : StoreName} {id : TapeId} {x : Array (C w)}
  {body : Array (Handle (C w)) → RecorderT C Id (Array (Handle (C w)))}

/-- A recording whose session does not open is over. -/
theorem record_of_refused {f : Failure}
    (hbegin : (beginTraceWithCapacity w store id (x.size * 10)).exec i r = (.error f, r')) :
    (record store id x body).exec i r = (.error f, r') :=
  exec_bind_of_error hbegin

variable {s : Session w}
  (hbegin : (beginTraceWithCapacity w store id (x.size * 10)).exec i r = (.ok s, r'))
include hbegin

/-- The code or the marking failed, so the session is dropped. -/
theorem record_of_failed {f : Failure}
    (htraced : (s.tracing x body).exec i r' = (.error f, r'')) :
    (record store id x body).exec i r = (.error f, (s.drop.exec i r'').2) := by
  unfold Session.tracing at htraced
  unfold record
  rw [exec_bind_of_ok hbegin]
  refine exec_bind_of_error ?_
  rw [exec_tryCatch_of_error htraced, exec_bind_of_ok (s.drop_exec r'')]
  rfl

/-- A recording whose code and marking succeed is sealed at the end of its session. -/
theorem record_of_traced {values : Array (C w)} {stats : TapeStats} {r₃ : Recorder C}
    (htraced : (s.tracing x body).exec i r' = (.ok values, r''))
    (hend : s.endTrace.exec i r'' = (.ok stats, r₃)) :
    (record store id x body).exec i r = (.ok values, r₃) := by
  unfold Session.tracing at htraced
  unfold record
  rw [exec_bind_of_ok hbegin, exec_bind_of_ok (exec_tryCatch_of_ok htraced), exec_bind_of_ok hend]
  rfl

end Record

/-! ## Actions that are runs of calls -/

namespace World

variable [∀ w, Scalar (C w)] [∀ w, Elementary (C w)] {direct : Prop} {W : World C}

/-- On this thread the action only makes calls, and `Q` is true of its answer and of the world that
    it leaves. -/
def Does (W : World C) (direct : Prop) (i : ThreadId) (m : RecorderT C Id α)
    (Q : Except Failure α → World C → Prop) : Prop :=
  ∃ past answer W', W.Run direct past W' ∧ m.exec i W.recorder = (answer, W'.recorder) ∧ Q answer W'

namespace Does

variable {m : RecorderT C Id α} {P : Except Failure α → World C → Prop}

/-- An action that makes no call. -/
theorem pure {Q : Except Failure α → World C → Prop} {a : α} (h : Q (.ok a) W) :
    W.Does direct i (pure a) Q :=
  ⟨[], .ok a, W, .start, rfl, h⟩

theorem throw {Q : Except Failure α → World C → Prop} {f : Failure} (h : Q (.error f) W) :
    W.Does direct i (throw f) Q :=
  ⟨[], .error f, W, .start, rfl, h⟩

/-- Less can be said of it afterwards. -/
theorem mono {Q : Except Failure α → World C → Prop} (hm : W.Does direct i m P)
    (h : ∀ answer W', P answer W' → Q answer W') : W.Does direct i m Q := by
  obtain ⟨past, answer, W', hrun, hexec, hP⟩ := hm
  exact ⟨past, answer, W', hrun, hexec, h answer W' hP⟩

/-- Actions one after the other: the second starts in the world that the first has left, which is
    any that `P` allows.  A failure is passed on. -/
theorem bind {k : α → RecorderT C Id β} {Q : Except Failure β → World C → Prop}
    (hm : W.Does direct i m P)
    (hok : ∀ past a W', W.Run direct past W' → P (.ok a) W' → W'.Does direct i (k a) Q)
    (herror : ∀ f W', P (.error f) W' → Q (.error f) W') : W.Does direct i (m >>= k) Q := by
  obtain ⟨past, answer, W', hrun, hexec, hP⟩ := hm
  cases answer with
  | ok a =>
    obtain ⟨past', answer', W'', hrun', hexec', hQ⟩ := hok past a W' hrun hP
    exact ⟨past ++ past', answer', W'', hrun.trans hrun', by rw [exec_bind_of_ok hexec, hexec'], hQ⟩
  | error f => exact ⟨past, .error f, W', hrun, exec_bind_of_error hexec, herror f W' hP⟩

/-- The handler starts in the world in which the action failed. -/
theorem tryCatch {handler : Failure → RecorderT C Id α} {Q : Except Failure α → World C → Prop}
    (hm : W.Does direct i m P) (hok : ∀ a W', P (.ok a) W' → Q (.ok a) W')
    (herror : ∀ past f W', W.Run direct past W' → P (.error f) W' →
      W'.Does direct i (handler f) Q) : W.Does direct i (tryCatch m handler) Q := by
  obtain ⟨past, answer, W', hrun, hexec, hP⟩ := hm
  cases answer with
  | ok a => exact ⟨past, .ok a, W', hrun, exec_tryCatch_of_ok hexec, hok a W' hP⟩
  | error f =>
    obtain ⟨past', answer', W'', hrun', hexec', hQ⟩ := herror past f W' hrun hP
    exact ⟨past ++ past', answer', W'', hrun.trans hrun',
      by rw [exec_tryCatch_of_error hexec, hexec'], hQ⟩

/-- The same action on each of a list.  `I` is kept by every one, and `P` is true of what each of
    them answers, then and later. -/
theorem mapM {f : α → RecorderT C Id β} {I : World C → Prop} {P : β → World C → Prop}
    (hP : ∀ past b W W', W.Run direct past W' → P b W → P b W') (xs : List α) (hW : I W)
    (hf : ∀ a ∈ xs, ∀ W', I W' → W'.Does direct i (f a) fun answer W'' =>
      I W'' ∧ ∀ b, answer = .ok b → P b W'') :
    W.Does direct i (xs.mapM f) fun answer W' =>
      I W' ∧ ∀ bs, answer = .ok bs → ∀ b ∈ bs, P b W' := by
  induction xs generalizing W with
  | nil =>
    refine .pure ⟨hW, ?_⟩
    rintro bs ⟨⟩ b hb
    cases hb
  | cons a xs ih =>
    rw [List.mapM_cons]
    refine (hf a List.mem_cons_self W hW).bind (fun past b W₁ hrun ⟨hI, hb⟩ => ?_)
      fun f W' ⟨hI, _⟩ => ⟨hI, fun bs h => nomatch h⟩
    refine (ih hI fun a' ha' => hf a' (List.mem_cons_of_mem a ha')).bind
      (fun past' bs W₂ hrun' ⟨hI', hbs⟩ => .pure ⟨hI', ?_⟩)
      fun f W' ⟨hI, _⟩ => ⟨hI, fun bs h => nomatch h⟩
    rintro bs' ⟨⟩ b' hb'
    rcases List.mem_cons.mp hb' with rfl | hb'
    · exact hP past' b' W₁ W₂ hrun' (hb b' rfl)
    · exact hbs bs rfl b' hb'

theorem mapM_array {f : α → RecorderT C Id β} {I : World C → Prop} {P : β → World C → Prop}
    (hP : ∀ past b W W', W.Run direct past W' → P b W → P b W') (xs : Array α) (hW : I W)
    (hf : ∀ a ∈ xs, ∀ W', I W' → W'.Does direct i (f a) fun answer W'' =>
      I W'' ∧ ∀ b, answer = .ok b → P b W'') :
    W.Does direct i (xs.mapM f) fun answer W' =>
      I W' ∧ ∀ bs, answer = .ok bs → ∀ b ∈ bs, P b W' := by
  rw [Array.mapM_eq_mapM_toList, map_eq_pure_bind]
  refine (mapM hP xs.toList hW fun a ha => hf a (Array.mem_toList_iff.mp ha)).bind
    (fun past bs W' _ ⟨hI, hbs⟩ => .pure ⟨hI, ?_⟩) fun f W' ⟨hI, _⟩ => ⟨hI, fun _ h => nomatch h⟩
  rintro bs' ⟨⟩ b hb
  exact hbs bs rfl b (List.mem_toArray.mp hb)

end Does

/-! ## The calls of a whole session -/

omit [∀ w, Scalar (C w)] [∀ w, Elementary (C w)] in
/-- The host loses no handle if it keeps an answer. -/
theorem handles_after {v : Width} {x : Handle (C v)} (hx : x ∈ W.handles.get v)
    (i : ThreadId) (m : RecorderT C Id α) (keep : α → World C → World C)
    (hkeep : ∀ a W', x ∈ W'.handles.get v → x ∈ (keep a W').handles.get v) :
    x ∈ (W.after i m keep).handles.get v := by
  unfold after
  split
  · exact hkeep _ _ hx
  · exact hx

/-- A handle that was answered can be used ever after. -/
theorem handles_perform (W : World C) (i : ThreadId) (call : Call C w) {v : Width}
    {x : Handle (C v)} (hx : x ∈ W.handles.get v) : x ∈ (W.perform i call).handles.get v := by
  have hgain : ∀ (y : Handle (C w)) (W' : World C),
      x ∈ W'.handles.get v → x ∈ (gain y W').handles.get v := by
    intro y W' hx
    show x ∈ (W'.handles.modify w (y :: ·)).get v
    by_cases hv : v = w
    · subst hv
      rw [PerWidth.get_modify_self]
      exact List.mem_cons_of_mem y hx
    · rw [PerWidth.get_modify_of_ne _ _ hv]
      exact hx
  cases call with
  | begin store id capacity => exact handles_after hx i _ (hold i) fun _ _ hx => hx
  | independent s v => exact handles_after hx i _ gain hgain
  | apply op y => exact handles_after hx i _ gain hgain
  | frexp y => exact handles_after hx i _ _ fun answer => hgain answer.1
  | combine op y z => exact handles_after hx i _ gain hgain
  | dependent s y => exact handles_after hx i _ (hear s.serial) fun _ _ => id
  | endTrace s => exact handles_after hx i s.endTrace ignore fun _ _ => id
  | drop s => exact handles_after hx i s.drop ignore fun _ _ => id
  | remove store id => exact handles_after hx i (removeTape w store id) ignore fun _ _ hx => hx
  | takeSlot => exact handles_after hx i (takeSlotTape w) ignore fun _ _ => id
  | replaceSlot t => exact handles_after hx i (replaceSlotTape t) ignore fun _ _ => id

/-- So what the host can use, it can use as long as the run goes on. -/
theorem Run.has {W' : World C} {past : List (Turn C)} (h : W.Run direct past W') {x : Handle (C w)}
    (hx : W.Has x) : W'.Has x := by
  induction h with
  | start => exact hx
  | step _ i call _ _ ih =>
    rcases ih with hnone | hmem
    · exact Or.inl hnone
    · exact Or.inr (handles_perform _ i call hmem)

/-- An action that is one call: the host keeps what there is to keep of its answer. -/
theorem does_call {m : RecorderT C Id α} {keep : α → World C → World C} (call : Call C w)
    (legal : W.Legal i call) (allowed : call.IsDirect → direct)
    (hperform : W.perform i call = W.after i m keep)
    (hkeep : ∀ a W', (keep a W').recorder = W'.recorder) :
    W.Does direct i m fun answer W' => ∃ r,
      (∀ a, answer = .ok a → W' = keep a { W with recorder := r }) ∧
        ∀ f, answer = .error f → W' = { W with recorder := r } := by
  have hrun : W.Run direct [⟨W, i, w, call⟩] (W.after i m keep) := by
    rw [← hperform]
    exact .call legal allowed
  cases hexec : m.exec i W.recorder with
  | mk answer r =>
    cases answer with
    | ok a =>
      rw [after_of_ok hexec] at hrun
      refine ⟨_, .ok a, _, hrun, by rw [hexec, hkeep], r, ?_, fun f hf => nomatch hf⟩
      rintro a' ⟨⟩
      rfl
    | error f =>
      rw [after_of_error hexec] at hrun
      exact ⟨_, .error f, _, hrun, hexec, r, (fun a ha => nomatch ha), fun _ _ => rfl⟩

/-- Opening a session is a call: the host holds the session, or nothing new. -/
theorem does_begin (W : World C) (direct : Prop) (i : ThreadId) (store : StoreName) (id : TapeId)
    (capacity : Nat) :
    W.Does direct i (beginTraceWithCapacity w store id capacity) fun answer W' =>
      (∀ s, answer = .ok s → W'.sessions = (W.hold i s).sessions) ∧
        ∀ f, answer = .error f → W'.sessions = W.sessions := by
  refine (does_call (.begin store id capacity) trivial (fun h => nomatch h) rfl
    fun _ _ => rfl).mono fun answer W' ⟨r, hok, herror⟩ => ⟨fun s hs => ?_, fun f hf => ?_⟩
  · rw [hok s hs]
    rfl
  · rw [herror f hf]

theorem does_independent {s : Session w} (hs : (i, s) ∈ W.sessions.get w) (v : C w) :
    W.Does direct i (s.independent v) fun answer W' =>
      W'.sessions = W.sessions ∧ ∀ x, answer = .ok x → W'.Has x := by
  refine (does_call (.independent s v) hs (fun h => nomatch h) rfl
    fun _ _ => rfl).mono fun answer W' ⟨r, hok, herror⟩ => ?_
  cases answer with
  | ok x =>
    rw [hok x rfl]
    refine ⟨rfl, ?_⟩
    rintro y ⟨⟩
    right
    show x ∈ (W.handles.modify w (x :: ·)).get w
    rw [PerWidth.get_modify_self]
    exact List.mem_cons_self
  | error f =>
    rw [herror f rfl]
    exact ⟨rfl, fun x hx => nomatch hx⟩

theorem does_dependent (direct : Prop) {s : Session w} (hs : (i, s) ∈ W.sessions.get w)
    {x : Handle (C w)} (hx : W.Has x) :
    W.Does direct i (s.dependent x) fun _ W' => W'.sessions = W.sessions := by
  refine (does_call (.dependent s x) ⟨hs, hx⟩ (fun h => nomatch h) rfl
    fun _ _ => rfl).mono fun answer W' ⟨r, hok, herror⟩ => ?_
  cases answer with
  | ok v =>
    rw [hok v rfl]
    rfl
  | error f => rw [herror f rfl]

/-- Closing a session is a call, well or not: the host holds it no longer. -/
theorem does_close {m : RecorderT C Id α} {s : Session w} (call : Call C w)
    (legal : W.Legal i call) (allowed : call.IsDirect → direct)
    (hperform : W.perform i call = (W.after i m ignore).lose i s) :
    W.Does direct i m fun _ W' => W'.sessions = (W.lose i s).sessions := by
  have hafter : W.after i m ignore = { W with recorder := (m.exec i W.recorder).2 } := by
    cases hexec : m.exec i W.recorder with
    | mk answer r =>
      cases answer with
      | ok a => exact after_of_ok hexec
      | error f => exact after_of_error hexec
  rw [hafter] at hperform
  have hrun : W.Run direct [⟨W, i, w, call⟩] (W.perform i call) := .call legal allowed
  refine ⟨_, (m.exec i W.recorder).1, _, hrun, ?_, ?_⟩
  · rw [hperform]
    rfl
  · rw [hperform]
    rfl

/-- Traced code that makes calls only, leaves no session open, and answers handles that it was
    answered. -/
def Traces (W : World C) (direct : Prop) (i : ThreadId)
    (body : Array (Handle (C w)) → RecorderT C Id (Array (Handle (C w)))) : Prop :=
  ∀ past W' (s : Session w) xs, W.Run direct past W' → (i, s) ∈ W'.sessions.get w →
    (∀ x ∈ xs, W'.Has x) → W'.Does direct i (body xs) fun answer W'' =>
      W''.sessions = W'.sessions ∧ ∀ ys, answer = .ok ys → ∀ y ∈ ys, W''.Has y

/-- The session stays open all the time that the code is traced. -/
theorem does_traced {body : Array (Handle (C w)) → RecorderT C Id (Array (Handle (C w)))}
    (hbody : W.Traces direct i body) {past : List (Turn C)} {W₁ : World C}
    (hrun : W.Run direct past W₁) {s : Session w} (hs : (i, s) ∈ W₁.sessions.get w)
    (x : Array (C w)) :
    W₁.Does direct i (s.tracing x body) fun _ W' => W'.sessions = W₁.sessions := by
  have hopen : ∀ {W' : World C}, W'.sessions = W₁.sessions → (i, s) ∈ W'.sessions.get w := by
    intro W' h
    rw [h]
    exact hs
  refine Does.bind (Does.mapM_array (I := fun W' => W'.sessions = W₁.sessions)
    (P := fun x W' => W'.Has x) (fun _ _ _ _ hrun hx => hrun.has hx) x rfl fun v _ W' h =>
      (does_independent (hopen h) v).mono fun _ _ ⟨h', hx⟩ => ⟨h'.trans h, hx⟩)
    (fun past₁ xs W₂ hrun₁ ⟨h₁, hxs⟩ => ?_) fun _ _ h => h.1
  refine (hbody _ W₂ s xs (hrun.trans hrun₁) (hopen h₁) (hxs xs rfl)).bind
    (fun past₂ ys W₃ hrun₂ ⟨h₂, hys⟩ => ?_) fun _ _ h => h.1.trans h₁
  -- the handles that the code answered stay usable while they are marked
  refine (Does.mapM_array (I := fun W' => W'.sessions = W₁.sessions ∧ ∀ y ∈ ys, W'.Has y)
    (P := fun _ _ => True) (fun _ _ _ _ _ h => h) ys ⟨h₂.trans h₁, hys ys rfl⟩
    fun y hy W' ⟨h, hhas⟩ => ?_).mono fun _ _ h => h.1.1
  obtain ⟨past₃, answer, W'', hrun₃, hexec, h'⟩ :=
    does_dependent direct (hopen h) (hhas y hy)
  exact ⟨past₃, answer, W'', hrun₃, hexec, ⟨h'.trans h, fun y hy => hrun₃.has (hhas y hy)⟩,
    fun _ _ => trivial⟩

/-- Recording is a run of calls, if the traced code is, and leaves no session open: whether the code
    returned or failed, and whether its session was opened or ended well or not. -/
theorem record_does {body : Array (Handle (C w)) → RecorderT C Id (Array (Handle (C w)))}
    (hbody : W.Traces direct i body) (store : StoreName) (id : TapeId) (x : Array (C w)) :
    W.Does direct i (record store id x body) fun _ W' => W'.sessions = W.sessions := by
  unfold record
  refine (does_begin W direct i store id (x.size * 10)).bind (fun past s W₁ hrun ⟨hok, _⟩ => ?_)
    fun f W' ⟨_, hf⟩ => hf f rfl
  have hsessions : W₁.sessions = (W.hold i s).sessions := hok s rfl
  have hopen : ∀ {W' : World C}, W'.sessions = W₁.sessions → (i, s) ∈ W'.sessions.get w := by
    intro W' h
    rw [h, hsessions]
    show (i, s) ∈ (W.sessions.modify w ((i, s) :: ·)).get w
    rw [PerWidth.get_modify_self]
    exact List.mem_cons_self
  -- closing our session leaves the sessions that there were before
  have hclosed : ∀ {W' W'' : World C}, W'.sessions = W₁.sessions →
      W''.sessions = (W'.lose i s).sessions → W''.sessions = W.sessions := by
    intro W' W'' h h'
    rw [h']
    show W'.sessions.modify w (·.erase (i, s)) = W.sessions
    rw [h, hsessions]
    exact PerWidth.modify_modify_cancel _ w fun l => List.erase_cons_head _ l
  refine Does.bind (P := fun answer W' => match answer with
      | .ok _ => W'.sessions = W₁.sessions
      | .error _ => W'.sessions = W.sessions)
    ((does_traced hbody hrun (hopen rfl) x).tryCatch (fun _ _ h => h) fun past' f W' _ h => ?_)
    (fun past' values W' _ h => ?_) fun f W' h => h
  · -- the code failed, so the session is dropped
    exact (does_close (.drop s) (hopen h) (fun h => nomatch h) rfl).bind
      (fun _ _ W'' _ h' => .throw (hclosed h h')) fun _ _ h' => hclosed h h'
  · exact (does_close (.endTrace s) (hopen h) (fun h => nomatch h) rfl).bind
      (fun _ _ W'' _ h' => .pure (hclosed h h')) fun _ _ h' => hclosed h h'

end World

end DiffTape
