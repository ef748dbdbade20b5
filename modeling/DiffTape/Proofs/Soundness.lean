/-
  EVERY TAPE THAT IS SEALED IS A FAITHFUL RECORD OF ITS SESSION.

  The invariant `View.Sound` of a format: every tape, in a slot or sealed, is `Recorded`, and
  while it is addressable it is `Faithful`, its recorded outputs are what marking dependents
  answered in its session, and every handle of its session shows the recorded value of its
  location.

  What holds this together are the SERIALS.  A session gets a serial that no tape, handle or
  answer has; no two slots record one session, and none records a session of a sealed tape.  So a
  call that appends to a tape disturbs what is said of no other tape.

  `Sound.step` is the induction step over the steps of a view; `replay_at_recorded_inputs` is what
  it is for.
-/
import DiffTape.Proofs.Runs
import DiffTape.Proofs.Reproduction
import DiffTape.Scalar.Binary

namespace DiffTape

variable {F : Type}

namespace View

/-- What marking dependents answered in a session, oldest first. -/
def answersOf (V : View F) (serial : Nat) : List F :=
  (V.answers.filter (·.1 = serial)).map (·.2)

/-- An answer joins those of its session, at the end. -/
theorem answersOf_answer_self (V : View F) (serial : Nat) (v : F) :
    (V.answer serial v).answersOf serial = V.answersOf serial ++ [v] := by
  unfold answersOf answer
  rw [List.filter_append, List.map_append, List.filter_cons_of_pos (by rw [decide_eq_true_iff])]
  rfl

/-- And it is none of another session. -/
theorem answersOf_answer_of_ne (V : View F) {serial other : Nat} (v : F) (h : other ≠ serial) :
    (V.answer serial v).answersOf other = V.answersOf other := by
  unfold answersOf answer
  rw [List.filter_append, List.filter_cons_of_neg (by rw [decide_eq_true_iff]; exact h.symm),
    List.filter_nil, List.append_nil]

/-- A function that was updated has the new value at that place, and elsewhere the old ones. -/
theorem eq_or_of_update {α β : Type} [DecidableEq α] {f : α → β} {i j : α} {a b : β}
    (h : Function.update f i a j = b) : j = i ∧ a = b ∨ j ≠ i ∧ f j = b := by
  by_cases hj : j = i
  · subst hj
    rw [Function.update_self] at h
    exact Or.inl ⟨rfl, h⟩
  · rw [Function.update_of_ne hj] at h
    exact Or.inr ⟨hj, h⟩

/-- An emptied slot has no tape. -/
theorem slot_of_setSlot_none {V : View F} {i j : ThreadId} {t : Tape F}
    (h : (V.setSlot i none).slot j = some t) : V.slot j = some t := by
  rcases eq_or_of_update h with ⟨-, hnone⟩ | ⟨-, h⟩
  · cases hnone
  · exact h

/-- After a session was opened a slot has its empty tape, or the tape it had. -/
theorem slot_of_start {V : View F} {i j : ThreadId} {id : TapeId} {t : Tape F}
    (h : (V.start i id).slot j = some t) :
    j = i ∧ t = { id, session := V.nextSerial } ∨ V.slot j = some t := by
  rcases eq_or_of_update h with ⟨hj, hnew⟩ | ⟨-, h⟩
  · exact Or.inl ⟨hj, (Option.some.inj hnew).symm⟩
  · exact Or.inr h

/-- What is sealed after a change is what was put there, or was sealed before. -/
theorem sealed_of_setSealed {V : View F} {store name : StoreName} {id j : TapeId}
    {new : Option (Tape F)} {t : Tape F} (h : (V.setSealed store id new).sealed name j = some t) :
    new = some t ∨ V.sealed name j = some t := by
  rcases eq_or_of_update (b := (V.setSealed store id new).sealed name) rfl with
    ⟨rfl, hstore⟩ | ⟨-, hstore⟩
  · rw [← hstore] at h
    rcases eq_or_of_update h with ⟨-, h⟩ | ⟨-, h⟩
    · exact Or.inl h
    · exact Or.inr h
  · rw [← hstore] at h
    exact Or.inr h

variable [Scalar F] [Elementary F]

/-- A tape that was recorded in this view. -/
structure Good (V : View F) (t : Tape F) : Prop where
  serial : t.session < V.nextSerial
  recorded : t.Recorded
  faithful : t.Addressable → t.Faithful
  outputs : t.Addressable →
    (t.dependents.map t.recordedAt).toList = V.answersOf t.session

/-- The invariant. -/
structure Sound (V : View F) : Prop where
  slot : ∀ i t, V.slot i = some t → V.Good t
  sealed : ∀ store id t, V.sealed store id = some t → V.Good t
  /-- No session is recorded in two slots. -/
  slot_apart : ∀ i j t t', V.slot i = some t → V.slot j = some t' → t.session = t'.session → i = j
  /-- No session goes on after its tape was sealed. -/
  sealed_apart : ∀ i store id t t', V.slot i = some t → V.sealed store id = some t' →
    t.session ≠ t'.session
  marks : ∀ x ∈ V.handles, ∀ m, x.mark = some m → m.session < V.nextSerial
  answers : ∀ a ∈ V.answers, a.1 < V.nextSerial
  /-- A handle shows the recorded value of its location. -/
  shows : ∀ i t, V.slot i = some t → t.Addressable → ∀ x ∈ V.handles, ∀ m, x.mark = some m →
    m.session = t.session → t.recordedValue? m.loc = some x.value

/-- A tape stays good while its session is answered nothing. -/
theorem Good.mono {V V' : View F} {t : Tape F} (h : V.Good t) (hn : V.nextSerial ≤ V'.nextSerial)
    (ha : V'.answersOf t.session = V.answersOf t.session) : V'.Good t :=
  ⟨Nat.lt_of_lt_of_le h.serial hn, h.recorded, h.faithful, fun haddr => by rw [ha, h.outputs haddr]⟩

/-- Fewer tapes are sound as well: slots and sealed tapes can go, or go from a slot to a store, and
    serials can be used up. -/
theorem Sound.of_fewer {V V' : View F} (h : V.Sound) (hn : V.nextSerial ≤ V'.nextSerial)
    (hslot : ∀ i t, V'.slot i = some t → V.slot i = some t)
    (hsealed : ∀ store id t, V'.sealed store id = some t →
      V.sealed store id = some t ∨ ∃ i, V.slot i = some t ∧ V'.slot i = none)
    (hh : V'.handles = V.handles) (ha : V'.answers = V.answers) : V'.Sound := by
  have hof : ∀ serial, V'.answersOf serial = V.answersOf serial := by
    intro serial
    unfold answersOf
    rw [ha]
  -- all that the invariant says is of tapes that were there, so most of it is read off `h`; only
  -- a tape that went from a slot to a store has to be told apart from the tapes in other slots
  refine ⟨fun i t ht => (h.slot i t (hslot i t ht)).mono hn (hof _), fun store id t ht => ?_,
    fun i j t t' ht ht' => h.slot_apart i j t t' (hslot i t ht) (hslot j t' ht'),
    fun i store id t t' ht ht' => ?_, ?_, ?_, ?_⟩
  · rcases hsealed store id t ht with ht | ⟨i, ht, -⟩
    · exact (h.sealed store id t ht).mono hn (hof _)
    · exact (h.slot i t ht).mono hn (hof _)
  · rcases hsealed store id t' ht' with ht' | ⟨j, ht', hnone⟩
    · exact h.sealed_apart i store id t t' (hslot i t ht) ht'
    · intro heq
      have hij := h.slot_apart i j t t' (hslot i t ht) ht' heq
      rw [← hij, ht] at hnone
      cases hnone
  · rw [hh]
    exact fun x hx m hm => Nat.lt_of_lt_of_le (h.marks x hx m hm) hn
  · rw [ha]
    exact fun a hmem => Nat.lt_of_lt_of_le (h.answers a hmem) hn
  · rw [hh]
    exact fun i t ht => h.shows i t (hslot i t ht)

/-- The tape of a slot goes on as `t'`.  Handles and answers that are new are of its session. -/
theorem Sound.of_grown {V V' : View F} (h : V.Sound) {i : ThreadId} {t t' : Tape F}
    (hslot : V.slot i = some t) (hslot' : V'.slot = Function.update V.slot i (some t'))
    (hsealed : V'.sealed = V.sealed) (hn : V'.nextSerial = V.nextSerial)
    (hsession : t'.session = t.session) (hgood : V'.Good t')
    (hh : ∀ x ∈ V'.handles, x ∈ V.handles ∨ ∀ m, x.mark = some m → m.session = t.session)
    (ha : ∀ a ∈ V'.answers, a ∈ V.answers ∨ a.1 = t.session)
    (hof : ∀ serial ≠ t.session, V'.answersOf serial = V.answersOf serial)
    (hshows : t'.Addressable → ∀ x ∈ V'.handles, ∀ m, x.mark = some m → m.session = t.session →
      t'.recordedValue? m.loc = some x.value) : V'.Sound := by
  -- what is in a slot now is `t'`, or was there before and is of another session
  have hcases : ∀ j u, V'.slot j = some u →
      j = i ∧ u = t' ∨ j ≠ i ∧ V.slot j = some u ∧ u.session ≠ t.session := by
    intro j u hu
    rw [hslot'] at hu
    rcases eq_or_of_update hu with ⟨hj, hnew⟩ | ⟨hj, hu⟩
    · exact Or.inl ⟨hj, (Option.some.inj hnew).symm⟩
    · exact Or.inr ⟨hj, hu, fun heq => hj (h.slot_apart j i u t hu hslot heq)⟩
  have hle : V.nextSerial ≤ V'.nextSerial := Nat.le_of_eq hn.symm
  have hlt : t.session < V'.nextSerial := by
    rw [hn]
    exact (h.slot i t hslot).serial
  refine ⟨fun j u hu => ?_, fun store id u hu => ?_, fun j k u u' hu hu' heq => ?_,
    fun j store id u u' hu hu' => ?_, fun x hx m hm => ?_, fun a hmem => ?_,
    fun j u hu haddr x hx m hm heq => ?_⟩
  · rcases hcases j u hu with ⟨-, rfl⟩ | ⟨-, hu, hne⟩
    · exact hgood
    · exact (h.slot j u hu).mono hle (hof _ hne)
  · rw [hsealed] at hu
    exact (h.sealed store id u hu).mono hle
      (hof _ (h.sealed_apart i store id t u hslot hu).symm)
  · -- a slot that records the session of `t'` is the one of `t`
    rcases hcases j u hu with ⟨rfl, rfl⟩ | ⟨-, hu, hne⟩
    · rcases hcases k u' hu' with ⟨rfl, -⟩ | ⟨-, -, hne'⟩
      · rfl
      · exact absurd (heq.symm.trans hsession) hne'
    · rcases hcases k u' hu' with ⟨-, rfl⟩ | ⟨-, hu', -⟩
      · exact absurd (heq.trans hsession) hne
      · exact h.slot_apart j k u u' hu hu' heq
  · rw [hsealed] at hu'
    rcases hcases j u hu with ⟨-, rfl⟩ | ⟨-, hu, -⟩
    · rw [hsession]
      exact h.sealed_apart i store id t u' hslot hu'
    · exact h.sealed_apart j store id u u' hu hu'
  · rcases hh x hx with hx | hx
    · exact Nat.lt_of_lt_of_le (h.marks x hx m hm) hle
    · rw [hx m hm]
      exact hlt
  · rcases ha a hmem with hmem | heq
    · exact Nat.lt_of_lt_of_le (h.answers a hmem) hle
    · rw [heq]
      exact hlt
  · -- a new handle is of the session of `t'`, so it says nothing of the other tapes
    rcases hcases j u hu with ⟨-, rfl⟩ | ⟨-, hu, hne⟩
    · exact hshows haddr x hx m hm (heq.trans hsession)
    · rcases hh x hx with hx | hx
      · exact h.shows j u hu haddr x hx m hm heq
      · exact absurd (heq.symm.trans (hx m hm)) hne

/-! ## A tape with one more value -/

/-- The step of every call that appends a value and answers a handle of it. -/
theorem Sound.of_push {V : View F} (h : V.Sound) {i : ThreadId} {t t' : Tape F} {v : F}
    (hslot : V.slot i = some t) (hpush : t'.values = t.values.push v)
    (hdep : t'.dependents = t.dependents) (hsession : t'.session = t.session)
    (hrec : t'.Recorded) (hfaithful : t.Addressable → t'.Faithful) :
    ((V.setSlot i (some t')).gain (.place v t.nextLocation t.id t.session)).Sound := by
  have ht := h.slot i t hslot
  refine h.of_grown hslot rfl rfl rfl hsession ⟨?_, hrec, fun haddr => ?_, fun haddr => ?_⟩
    (fun x hx => ?_) (fun a ha => Or.inl ha) (fun _ _ => rfl) fun haddr x hx m hm hm' => ?_
  · rw [hsession]
    exact ht.serial
  · exact hfaithful (Tape.addressable_of_push hpush haddr)
  · rw [hdep, ht.recorded.outputs_push hpush, hsession]
    exact ht.outputs (Tape.addressable_of_push hpush haddr)
  · rcases List.mem_cons.mp hx with rfl | hx
    · right
      intro m hm
      rw [(Handle.mark_place hm).1]
    · exact Or.inl hx
  · -- the new handle shows the value that was pushed, and the others what they have shown before
    have haddr' := Tape.addressable_of_push hpush haddr
    rcases List.mem_cons.mp hx with rfl | hx
    · obtain ⟨rfl, hvalue⟩ := Handle.mark_place hm
      rw [hvalue]
      exact Tape.recordedValue?_push_next hpush haddr'.lt
    · exact Tape.recordedValue?_of_push hpush (h.shows i t hslot haddr' x hx m hm hm')

/-- A handle that can be used on a tape shows what the tape has recorded. -/
theorem Sound.shows_of_has {V : View F} (h : V.Sound) {i : ThreadId} {t : Tape F}
    (hslot : V.slot i = some t) (haddr : t.Addressable) {x : Handle F} (hx : V.Has x)
    (hon : ∀ m, x.mark = some m → m.session = t.session) : x.Shows t := by
  intro m hm
  rcases hx with hx | hx
  · rw [hx] at hm
    cases hm
  · exact h.shows i t hslot haddr x hx m hm (hon m hm)

/-- The step of marking a dependent. -/
theorem Sound.of_marked {V : View F} (h : V.Sound) {i : ThreadId} {t : Tape F} {x : Handle F}
    (hslot : V.slot i = some t) (hx : V.Has x)
    (hon : ∀ m, x.mark = some m →
      m.tape = t.id ∧ m.session = t.session ∧ m.loc.toNat < t.values.size) :
    ((V.setSlot i (some (Session.appendDependent x t))).answer t.session x.value).Sound := by
  have ht := h.slot i t hslot
  have hsession := Session.session_appendDependent x t
  refine h.of_grown hslot rfl rfl rfl hsession
    ⟨by rw [hsession]; exact ht.serial,
      Session.recorded_appendDependent ht.recorded fun m hm => (hon m hm).2.2,
      fun haddr => ?_, fun haddr => ?_⟩
    (fun y hy => Or.inl hy) (fun a ha => ?_)
    (fun serial hne => answersOf_answer_of_ne _ x.value hne) fun haddr y hy m hm hm' => ?_
  · have haddr' := Session.addressable_of_appendDependent haddr
    exact Session.faithful_appendDependent (ht.faithful haddr') ht.recorded haddr'.lt x
  -- the output that is new is the value that the handle shows, and that is what was answered
  · have haddr' := Session.addressable_of_appendDependent haddr
    have hshows := h.shows_of_has hslot haddr' hx fun m hm => (hon m hm).2.1
    rw [Session.outputs_appendDependent ht.recorded haddr'.lt hshows, Array.toList_push,
      ht.outputs haddr', hsession]
    exact (answersOf_answer_self _ t.session x.value).symm
  · rcases List.mem_append.mp ha with ha | ha
    · exact Or.inl ha
    · right
      rw [List.mem_singleton.mp ha]
  · have haddr' := Session.addressable_of_appendDependent haddr
    exact Session.recordedValue?_appendDependent (h.shows i t hslot haddr' y hy m hm hm') x

/-! ## Every step keeps the invariant -/

/-- The step of opening a session: its serial is one that nothing has. -/
theorem Sound.of_start {V : View F} (h : V.Sound) {i : ThreadId} (id : TapeId)
    (hslot : V.slot i = none) : (V.start i id).Sound := by
  have hle : V.nextSerial ≤ (V.start i id).nextSerial := Nat.le_succ _
  -- every answer has a smaller serial
  have hfresh : V.answersOf V.nextSerial = [] := by
    unfold answersOf
    rw [List.filter_eq_nil_iff.mpr fun a ha => ?_]
    · rfl
    · rw [decide_eq_true_iff]
      exact Nat.ne_of_lt (h.answers a ha)
  refine ⟨fun j u hu => ?_, fun store k u hu => (h.sealed store k u hu).mono hle rfl,
    fun j k u u' hu hu' heq => ?_, fun j store k u u' hu hu' => ?_,
    fun x hx m hm => Nat.lt_succ_of_lt (h.marks x hx m hm),
    fun a ha => Nat.lt_succ_of_lt (h.answers a ha), fun j u hu haddr x hx m hm heq => ?_⟩
  · -- the empty tape has no outputs, and nothing was answered in its session yet
    rcases slot_of_start hu with ⟨-, rfl⟩ | hu
    · refine ⟨Nat.lt_succ_self _, Tape.recorded_empty _ _, fun _ => Tape.faithful_empty _ _,
        fun _ => ?_⟩
      exact (congrArg Array.toList Array.map_empty).trans hfresh.symm
    · exact (h.slot j u hu).mono hle rfl
  · -- the other tapes, and below the handles, have smaller serials
    rcases slot_of_start hu with ⟨rfl, rfl⟩ | hu
    · rcases slot_of_start hu' with ⟨rfl, -⟩ | hu'
      · rfl
      · exact absurd heq.symm (Nat.ne_of_lt (h.slot k u' hu').serial)
    · rcases slot_of_start hu' with ⟨-, rfl⟩ | hu'
      · exact absurd heq (Nat.ne_of_lt (h.slot j u hu).serial)
      · exact h.slot_apart j k u u' hu hu' heq
  · rcases slot_of_start hu with ⟨-, rfl⟩ | hu
    · exact (Nat.ne_of_lt (h.sealed store k u' hu').serial).symm
    · exact h.sealed_apart j store k u u' hu hu'
  · rcases slot_of_start hu with ⟨-, rfl⟩ | hu
    · exact absurd heq (Nat.ne_of_lt (h.marks x hx m hm))
    · exact h.shows j u hu haddr x hx m hm heq

/-- The induction step: whatever happens to a format, the invariant is kept. -/
theorem Sound.step {V V' : View F} (h : V.Sound) (hstep : V.Step V') : V'.Sound := by
  cases hstep with
  | idle hn => exact h.of_fewer hn (fun _ _ ht => ht) (fun _ _ _ ht => Or.inl ht) rfl rfl
  | opened id hslot => exact h.of_start id hslot
  | bound hslot v =>
    have ht := h.slot _ _ hslot
    exact h.of_push hslot rfl rfl rfl (ht.recorded.appendIndependent v)
      fun haddr => (ht.faithful haddr).appendIndependent ht.recorded haddr.lt v
  | folded v =>
    -- a constant has no mark, so there is nothing that it would have to show
    refine ⟨fun i t ht => (h.slot i t ht).mono (Nat.le_refl _) rfl,
      fun store id t ht => (h.sealed store id t ht).mono (Nat.le_refl _) rfl, h.slot_apart,
      h.sealed_apart, fun x hx m hm => ?_, h.answers, fun i t ht haddr x hx m hm => ?_⟩
    · rcases List.mem_cons.mp hx with rfl | hx
      · cases hm
      · exact h.marks x hx m hm
    · rcases List.mem_cons.mp hx with rfl | hx
      · cases hm
      · exact h.shows i t ht haddr x hx m hm
  | applied hslot harity hop haux hbranch hx hon hmark =>
    -- the operand is read from the tape as the number that the operation was computed with
    have ht := h.slot _ _ hslot
    refine h.of_push hslot rfl rfl rfl (ht.recorded.appendEntry hon.below (Operand.below_unused _)
      (Handle.shaped_unary hmark harity hop haux _) _) fun haddr => ?_
    have hread := (h.shows_of_has hslot haddr hx fun m hm => (hon m hm).2.1).read_operand
    refine (ht.faithful haddr).appendEntry ht.recorded haddr.lt hon.below (Operand.below_unused _)
      ?_ ?_
    · rw [hread]
      rfl
    · rw [hread]
      exact hbranch
  | combined hslot harity hx hy hxon hyon hmark =>
    have ht := h.slot _ _ hslot
    refine h.of_push hslot rfl rfl rfl (ht.recorded.appendEntry hxon.below hyon.below
      (Handle.shaped_binary hmark harity _) _) fun haddr => ?_
    have hxread := (h.shows_of_has hslot haddr hx fun m hm => (hxon m hm).2.1).read_operand
    have hyread := (h.shows_of_has hslot haddr hy fun m hm => (hyon m hm).2.1).read_operand
    refine (ht.faithful haddr).appendEntry ht.recorded haddr.lt hxon.below hyon.below ?_
      fun _ hb => nomatch hb
    rw [hxread, hyread]
  | marked hslot hx hon => exact h.of_marked hslot hx hon
  | dropped i =>
    refine h.of_fewer (Nat.le_refl _) (fun j t ht => ?_) (fun _ _ _ ht => Or.inl ht) rfl rfl
    exact slot_of_setSlot_none ht
  | sealed hslot store id =>
    refine h.of_fewer (Nat.le_refl _) (fun j t ht => slot_of_setSlot_none ht)
      (fun name j t ht => ?_) rfl rfl
    rcases sealed_of_setSealed ht with ht | ht
    -- what is sealed now was in the slot, which is empty afterwards
    · right
      cases ht
      exact ⟨_, hslot, Function.update_self ..⟩
    · exact Or.inl ht
  | removed store id =>
    refine h.of_fewer (Nat.le_refl _) (fun _ _ ht => ht) (fun name j t ht => ?_) rfl rfl
    rcases sealed_of_setSealed ht with ht | ht
    · cases ht
    · exact Or.inl ht

end View

/-! ## Every run -/

variable {C : Width → Type} [∀ w, Scalar (C w)] [∀ w, Elementary (C w)] {w : Width}

/-- At the start there are no tapes, no handles and no answers. -/
theorem sound_start (w : Width) : (({} : World C).view w).Sound := by
  have hslot : ∀ i, (({} : World C).view w).slot i = none := Recorder.slot?_start w
  have hsealed : ∀ store id, (({} : World C).view w).sealed store id = none := by
    intro store id
    show (({} : Recorder C).store w store).tapes[id]? = none
    rw [Recorder.store_start]
    exact Std.TreeMap.getElem?_emptyc
  have hhandles : (({} : World C).view w).handles = [] := by
    cases w with
    | single => rfl
    | double => rfl
  have hanswers : (({} : World C).view w).answers = [] := by
    cases w with
    | single => rfl
    | double => rfl
  refine ⟨fun i t h => ?_, fun store id t h => ?_, fun i j t t' h => ?_, fun i store id t t' h => ?_,
    fun x hx => ?_, fun a ha => ?_, fun i t h => ?_⟩
  · rw [hslot] at h; cases h
  · rw [hsealed] at h; cases h
  · rw [hslot] at h; cases h
  · rw [hslot] at h; cases h
  · rw [hhandles] at hx; cases hx
  · rw [hanswers] at ha; cases ha
  · rw [hslot] at h; cases h

/-- The invariant holds in every run that leaves the slots alone. -/
theorem World.Undisturbed.sound {W : World C} (h : W.Undisturbed) (w : Width) :
    (W.view w).Sound := by
  induction h with
  | start => exact sound_start w
  | step _ i call legal indirect ih => exact ih.step (World.perform_step legal indirect w)

/-- Evaluated at its recorded inputs, in any directions and whatever the policy, a sealed tape takes
    its recorded value at every location, gives the values that marking the dependents answered, and
    leaves no branch. -/
theorem replay_at_recorded_inputs {W : World C} (hW : W.Undisturbed) {store : StoreName}
    {id : TapeId} {t : Tape (C w)} (ht : W.recorder.sealed? w store id = some t)
    (hsize : t.values.size < UInt32.size - 1) (policy : BranchPolicy) {p : Nat}
    {xd : Array (Array (C w))} (hxd : IsMatrix xd t.independents.size p) {out : Outputs (C w)}
    (hy : out.y.size = t.dependents.size) (hyd : IsMatrix out.yd t.dependents.size p)
    (s : Scratch (C w)) :
    ∃ x y, t.recordedInputs? = some x ∧ t.recordedOutputs? = some y ∧
      y.toList = (W.view w).answersOf t.session ∧
      (t.forwardWithScratch policy p x xd out s).answer = .ok { switches := #[] } ∧
      (t.forwardWithScratch policy p x xd out s).buffers.1.y = y ∧
      ∀ loc, (t.forwardWithScratch policy p x xd out s).buffers.2.value? loc =
        t.recordedValue? loc := by
  have hgood := (hW.sound w).sealed store id t ht
  -- a faithful tape solves its own equations at its inputs, and sees the branches it has recorded
  have haddr : t.Addressable := Nat.le_of_lt hsize
  have hfaithful := hgood.faithful haddr
  obtain ⟨hvalues, hswitches⟩ := hfaithful.valuesAt_recorded hgood.recorded
  have hx : (t.independents.map t.recordedAt).size = t.independents.size := Array.size_map ..
  obtain ⟨s', hs', hanswer, hbuffers⟩ := Tape.forwardWithScratch_eq hgood.recorded.toReplayable
    policy hx hxd hy hyd s
  refine ⟨t.independents.map t.recordedAt, t.dependents.map t.recordedAt,
    hgood.recorded.recordedInputs?_eq, hgood.recorded.recordedOutputs?_eq, hgood.outputs haddr,
    ?_, ?_, fun loc => ?_⟩
  · rw [hanswer, hswitches]
  · rw [hbuffers]
    exact Array.map_congr_left fun loc hloc => hvalues loc (hgood.recorded.dependents_lt loc hloc)
  · rw [hbuffers]
    exact Tape.value?_eq_recordedValue? hs' rfl hvalues loc

/-- A run that records the magnitude of an input at its kink, and the replay of its tape there. -/
theorem replay_at_recorded_inputs_on_kink :
    ∃ (W : World Width.Number) (t : Tape Float), W.Undisturbed ∧
      W.recorder.sealed? .double "kink" 7 = some t ∧ t.values.size = 2 ∧
      t.recordedInputs? = some #[0] ∧
      (t.forwardWithScratch .recorded 1 #[0] #[#[1]] ⟨#[0], #[#[0]]⟩ {}).answer =
        .ok { switches := #[] } ∧
      (t.forwardWithScratch .recorded 1 #[0] #[#[1]] ⟨#[0], #[#[0]]⟩ {}).buffers.1.y =
        #[Float.abs 0] := by
  let s : Session .double := ⟨"kink", 7, 1⟩
  let x : Handle (Width.Number .double) := .place (0 : Float) 0 7 1
  let y : Handle (Width.Number .double) := .place (Float.abs 0) 1 7 1
  let W₁ := ({} : World Width.Number).perform 0 (.begin "kink" 7 0 : Call _ .double)
  let W₂ := W₁.perform 0 (.independent s (0 : Float))
  let W₃ := W₂.perform 0 (.apply .abs x)
  let W₄ := W₃.perform 0 (.dependent s y)
  let W := W₄.perform 0 (.endTrace s)
  have h₁ : W₁.Undisturbed := .step .start 0 _ trivial id
  have h₂ : W₂.Undisturbed := .step h₁ 0 _ List.mem_cons_self id
  have h₃ : W₃.Undisturbed := .step h₂ 0 _ (Or.inr List.mem_cons_self) id
  have h₄ : W₄.Undisturbed :=
    .step h₃ 0 _ ⟨List.mem_cons_self, Or.inr List.mem_cons_self⟩ id
  have hW : W.Undisturbed := .step h₄ 0 _ List.mem_cons_self id
  let t : Tape Float := ⟨7, 1, #[⟨.abs, 1, .location 0, .unused, .branch (.of (0 : Float))⟩],
    #[0, Float.abs 0], #[0], #[1]⟩
  have hslot : W₄.recorder.slot? .double 0 = some t := rfl
  have ht : W.recorder.sealed? .double "kink" 7 = some t :=
    World.sealed_endTrace (s := s) hslot rfl
  let out : Outputs Float := ⟨#[0], #[#[0]]⟩
  have hrow : IsMatrix #[#[(1 : Float)]] 1 1 := ⟨rfl, by simp⟩
  have hout : IsMatrix out.yd 1 1 := ⟨rfl, by simp [out]⟩
  have hy : out.y.size = 1 := rfl
  obtain ⟨x', y', hx', hy', -, hanswer, hbuffer, -⟩ :=
    replay_at_recorded_inputs hW ht (by decide) .recorded hrow hy hout {}
  have hin : t.recordedInputs? = some #[0] := by
    simp [t, Tape.recordedInputs?, Tape.recordedValue?]
  have hout' : t.recordedOutputs? = some #[Float.abs 0] := by
    simp [t, Tape.recordedOutputs?, Tape.recordedValue?]
  rw [hin] at hx'
  rw [hout'] at hy'
  cases hx'
  cases hy'
  exact ⟨W, t, hW, ht, rfl, hin, hanswer, hbuffer⟩

end DiffTape
