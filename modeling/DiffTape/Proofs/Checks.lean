/-
  EVERYTHING IS CHECKED BEFORE ANYTHING IS WRITTEN.

  An evaluator writes to buffers of its caller, so what it leaves there when it fails is part of
  what it does.  `ChecksFirst` is what one may rely on: the call succeeds exactly if everything
  fits; then the buffers have the shapes they had, and what is in them does not depend on what was;
  otherwise nothing was evaluated and they are as they were.

  1. `Tape.replay?_fresh`        — a replay sets the scratch up for itself, whatever it held.
  2. `Tape.checksFirst_evaluate` — so an evaluation whose checks accept exactly what fits checks
                                   first.  Every evaluator of a tape is this one, with checks and
                                   outputs of its own (`Tape.Replayable.evaluatorsCheckFirst`).
  3. `Store.checksFirst_lookup`  — by id the lookup and the counts come before, and they do not
                                   touch the buffers (`Store.evaluatorsCheckFirst`).
  4. `World.Hosted.checks_first` — every tape there is can be swept, and nothing else is needed.

  A ragged matrix is one that is no `IsMatrix`.  Where there is no row, or no component, there is
  nothing to be ragged, and the shapes still say how many rows there are.
-/
import DiffTape.Proofs.Drivers
import DiffTape.Proofs.Holdings
import DiffTape.Proofs.Lookup

namespace DiffTape

variable {F α β : Type}

/-! ## Calls on the buffers of a caller -/

/-- A call on buffers that checks whether everything `fits`, and only then writes. -/
structure ChecksFirst (call : β → Outcome α β) (fits : β → Prop) : Prop where
  succeeds_iff : ∀ b, (∃ a, (call b).answer = .ok a) ↔ fits b
  /-- What is answered and left in buffers that fit is the same whatever they held. -/
  overwrites : ∀ b b', fits b → fits b' → call b = call b'
  /-- The buffers fit afterwards as they did before. -/
  keeps_shapes : ∀ b, fits b → fits (call b).buffers
  /-- A refusal is an error, without events, and leaves the buffers alone. -/
  refuses : ∀ b, ¬ fits b → ∃ e, call b = .refused e b

theorem ChecksFirst.congr {call call' : β → Outcome α β} {fits fits' : β → Prop}
    (h : ChecksFirst call fits) (hcall : ∀ b, call' b = call b) (hfits : ∀ b, fits' b ↔ fits b) :
    ChecksFirst call' fits' := by
  obtain rfl : call' = call := funext hcall
  obtain rfl : fits' = fits := funext fun b => propext (hfits b)
  exact h

/-- A call that is always refused checks first: nothing fits. -/
theorem checksFirst_refused (e : Error) :
    ChecksFirst (fun b : β => (.refused e b : Outcome α β)) fun _ => False :=
  ⟨fun _ => ⟨fun ⟨_, h⟩ => (nomatch h), False.elim⟩, fun _ _ h => h.elim, fun _ h => h.elim,
    fun _ _ => ⟨e, rfl⟩⟩

theorem ChecksFirst.buffers_of_not_fits {call : β → Outcome α β} {fits : β → Prop}
    (h : ChecksFirst call fits) {b : β} (hb : ¬ fits b) : (call b).buffers = b := by
  obtain ⟨e, he⟩ := h.refuses b hb
  rw [he]
  rfl

namespace Tape

variable [Scalar F] [Elementary F] {t : Tape F} {policy : BranchPolicy} {x : Array F} {p : Nat}
  {seeds : Array (Array F)}

/-! ## The evaluators of a tape -/

/-- A replay does not read what the scratch held. -/
theorem replay?_fresh (t : Tape F) (policy : BranchPolicy) (x : Array F) (p : Nat)
    (seeds : Array (Array F)) (s : Scratch F) :
    t.replay? policy x p seeds s = t.replay? policy x p seeds {} := rfl

theorem evaluate_of_replay {r : Replayed F} (hreplay : t.replay? policy x p seeds {} = some r)
    (s : Scratch F) {fits : Except Error Unit} (hfits : fits = .ok ()) (buffers : β)
    (finish : Replayed F → α × β) :
    t.evaluate policy x p seeds s fits buffers finish =
      { answer := .ok (finish r).1, buffers := (finish r).2
        events := t.replayEvents p r.report } := by
  rw [← t.replay?_fresh policy x p seeds s] at hreplay
  unfold evaluate
  rw [hfits]
  simp only [hreplay]

/-- An evaluation checks first, if its checks accept exactly what fits the tape, and its outputs fit
    again. -/
theorem checksFirst_evaluate (ht : t.Replayable) (scratch : β → Scratch F)
    {check : β → Except Error Unit} {fits : β → Prop} {finish : Replayed F → α × β}
    (hcheck : ∀ b, check b = .ok () ↔ fits b)
    (hshape : ∀ b, fits b → x.size = t.independents.size ∧ IsMatrix seeds t.independents.size p)
    (hfinish : ∀ b r, fits b → r.y.size = t.dependents.size →
      IsMatrix r.yd t.dependents.size p → fits (finish r).2) :
    ChecksFirst (fun b => t.evaluate policy x p seeds (scratch b) (check b) b finish) fits := by
  -- what fits is replayed, with outputs of the shapes of the tape
  have hrun : ∀ b, fits b → ∃ r, t.replay? policy x p seeds {} = some r ∧ fits (finish r).2 := by
    intro b hb
    obtain ⟨hx, hs⟩ := hshape b hb
    obtain ⟨s', -, hreplay⟩ := t.replay?_eq ht policy hx hs {}
    exact ⟨_, hreplay, hfinish b _ hb (Array.size_map ..) (t.isMatrix_rowsAt ht policy hx hs)⟩
  have hrefuse : ∀ b, ¬ fits b →
      ∃ e, t.evaluate policy x p seeds (scratch b) (check b) b finish = .refused e b := by
    intro b hb
    cases hres : check b with
    | ok u => exact absurd ((hcheck b).mp hres) hb
    | error e => exact ⟨e, rfl⟩
  have heval : ∀ b r, fits b → t.replay? policy x p seeds {} = some r →
      t.evaluate policy x p seeds (scratch b) (check b) b finish = _ := fun b r hb hreplay =>
    evaluate_of_replay hreplay (scratch b) ((hcheck b).mpr hb) b finish
  constructor
  case succeeds_iff =>
    intro b
    constructor
    · rintro ⟨a, ha⟩
      by_contra hb
      obtain ⟨e, he⟩ := hrefuse b hb
      rw [he] at ha
      cases ha
    · intro hb
      obtain ⟨r, hreplay, -⟩ := hrun b hb
      exact ⟨_, congrArg Outcome.answer (heval b r hb hreplay)⟩
  case overwrites =>
    intro b b' hb hb'
    obtain ⟨r, hreplay, -⟩ := hrun b hb
    exact (heval b r hb hreplay).trans (heval b' r hb' hreplay).symm
  case keeps_shapes =>
    intro b hb
    obtain ⟨r, hreplay, hfits⟩ := hrun b hb
    show fits (t.evaluate policy x p seeds (scratch b) (check b) b finish).buffers
    rw [heval b r hb hreplay]
    exact hfits
  case refuses => exact hrefuse

/-- The arguments and the buffers have the shapes of the tape, for an evaluation in `p`
    directions. -/
def FitsDirections (t : Tape F) (p : Nat) (x : Array F) (xd : Array (Array F))
    (out : Outputs F) : Prop :=
  x.size = t.independents.size ∧ out.y.size = t.dependents.size ∧
    IsMatrix xd t.independents.size p ∧ IsMatrix out.yd t.dependents.size p

/-- The arguments and the buffers have the shapes of the tape, for an evaluation in one
    direction. -/
def FitsDirection (t : Tape F) (x d : Array F) (out : DirectionOutputs F) : Prop :=
  x.size = t.independents.size ∧ out.y.size = t.dependents.size ∧
    d.size = t.independents.size ∧ out.yd.size = t.dependents.size

/-- Every evaluator of the tape checks first.  With a scratch of the caller that is one of the
    buffers, and fits as it is; with buffers of its own an evaluator has none of the caller's. -/
structure EvaluatorsCheckFirst (t : Tape F) : Prop where
  forwardWithScratch : ∀ policy p x xd, ChecksFirst
    (fun b => t.forwardWithScratch policy p x xd b.1 b.2) fun b => t.FitsDirections p x xd b.1
  forwardInto : ∀ policy p x xd,
    ChecksFirst (t.forwardInto policy p x xd) (t.FitsDirections p x xd)
  forward : ∀ policy x xd, ChecksFirst (fun _ => t.forward policy x xd) fun _ =>
    x.size = t.independents.size ∧
      IsMatrix xd t.independents.size ((xd[0]?.map Array.size).getD 0)
  forwardValues : ∀ x, ChecksFirst (t.forwardValues x) fun y =>
    x.size = t.independents.size ∧ y.size = t.dependents.size
  forwardAlong : ∀ policy x d, ChecksFirst (t.forwardAlong policy x d) (t.FitsDirection x d)
  jacobian : ∀ policy x, ChecksFirst (fun _ => t.jacobian policy x) fun _ =>
    x.size = t.independents.size

/-- With a scratch of its own an evaluation does what it does with any, and keeps it to itself. -/
theorem forwardInto_eq_evaluate (t : Tape F) (policy : BranchPolicy) (p : Nat) (x : Array F)
    (xd : Array (Array F)) (out : Outputs F) :
    t.forwardInto policy p x xd out =
      t.evaluate policy x p xd {} (t.checkDirections p x xd out) out fun r =>
        (r.report, { y := r.y, yd := r.yd }) := by
  unfold forwardInto forwardWithScratch evaluate
  cases t.checkDirections p x xd out with
  | error e => rfl
  | ok u => cases t.replay? policy x p xd {} <;> rfl

/-- With buffers of its own it answers what it would write. -/
theorem forward_eq_evaluate (t : Tape F) (policy : BranchPolicy) (x : Array F)
    (xd : Array (Array F)) :
    let p := (xd[0]?.map Array.size).getD 0
    t.forward policy x xd =
      t.evaluate policy x p xd {} (t.checkDirections p x xd
        ⟨Array.replicate t.dependents.size 0,
          Array.replicate t.dependents.size (Array.replicate p 0)⟩) () fun r =>
        ({ values := r.y, directions := r.yd, report := r.report }, ()) := by
  intro p
  unfold forward
  simp only [forwardInto_eq_evaluate]
  unfold evaluate
  cases t.checkDirections _ x xd _ with
  | error e => rfl
  | ok u => cases t.replay? policy x _ xd {} <;> rfl

omit [Scalar F] [Elementary F] in
/-- Rows of one number stand one after the other in as many numbers as there are rows. -/
theorem size_flatten_of_isMatrix {rows : Array (Array F)} {m : Nat} (h : IsMatrix rows m 1) :
    rows.flatten.size = m := by
  have hsizes : rows.map Array.size = Array.replicate rows.size 1 :=
    Array.map_eq_replicate_iff.mpr h.2
  rw [Array.size_flatten, hsizes, Array.sum_replicate_nat, Nat.mul_one, h.1]

/-- On a tape that can be swept every evaluator checks first. -/
theorem Replayable.evaluatorsCheckFirst (ht : t.Replayable) : t.EvaluatorsCheckFirst where
  forwardWithScratch policy p x xd :=
    checksFirst_evaluate ht Prod.snd (fun b => checkDirections_eq_ok_iff)
      (fun b hb => ⟨hb.1, hb.2.2.1⟩) fun b r hb hy hyd => ⟨hb.1, hy, hb.2.2.1, hyd⟩
  forwardInto policy p x xd := by
    refine ChecksFirst.congr ?_ (t.forwardInto_eq_evaluate policy p x xd) fun b => Iff.rfl
    exact checksFirst_evaluate ht (fun _ => {}) (fun b => checkDirections_eq_ok_iff)
      (fun b hb => ⟨hb.1, hb.2.2.1⟩) fun b r hb hy hyd => ⟨hb.1, hy, hb.2.2.1, hyd⟩
  forward policy x xd := by
    refine ChecksFirst.congr ?_ (fun _ => t.forward_eq_evaluate policy x xd) fun b => Iff.rfl
    refine checksFirst_evaluate ht (fun _ => {}) (fun b => ?_) (fun b hb => hb) fun b r hb _ _ => hb
    refine checkDirections_eq_ok_iff.trans ⟨fun h => ⟨h.1, h.2.2.1⟩, fun h => ?_⟩
    exact ⟨h.1, Array.size_replicate, h.2, isMatrix_replicate _ _ _⟩
  forwardValues x := by
    refine checksFirst_evaluate ht (fun _ => {}) (fun y => ?_)
      (fun y hy => ⟨hy.1, isMatrix_replicate _ 0 0⟩) fun y r hy hsize _ => ⟨hy.1, hsize⟩
    exact check_bind_eq_ok_iff.trans
      (and_congr (checkSize_eq_ok_iff.trans eq_comm) (checkSize_eq_ok_iff.trans eq_comm))
  forwardAlong policy x d := by
    refine checksFirst_evaluate ht (fun _ => {}) (fun out => checkDirection_eq_ok_iff)
      (fun out hout => ⟨hout.1, ?_⟩)
      fun out r hout hy hyd => ⟨hout.1, hy, hout.2.2.1, size_flatten_of_isMatrix hyd⟩
    rw [← hout.2.2.1]
    exact isMatrix_singletons d
  jacobian policy x := by
    unfold Tape.jacobian
    exact checksFirst_evaluate ht (fun _ => {}) (fun _ => checkSize_eq_ok_iff.trans eq_comm)
      (fun _ hx => ⟨hx, isMatrix_identityRows _⟩) fun _ _ hx _ _ => hx

end Tape

/-! ## The evaluators of a store -/

namespace Store

variable {s : Store F} {id : TapeId} {m n : Nat}

/-- The lookup of the id succeeds, and the tape has `n` independents and `m` dependents. -/
def HasOfSize (s : Store F) (id : TapeId) (m n : Nat) : Prop :=
  ∃ t, s.tape id = .ok t ∧ n = t.independents.size ∧ m = t.dependents.size

/-- What is said of the counts that were given is said of those of the tape. -/
theorem hasOfSize_and_iff (fits : Nat → Nat → Prop) :
    s.HasOfSize id m n ∧ fits m n ↔
      ∃ t, s.tapeOfSize id m n = .ok t ∧ fits t.dependents.size t.independents.size := by
  constructor
  · rintro ⟨⟨t, ht, rfl, rfl⟩, hfits⟩
    exact ⟨t, tapeOfSize_eq_ok_iff.mpr ⟨ht, rfl, rfl⟩, hfits⟩
  · rintro ⟨t, ht, hfits⟩
    obtain ⟨hfound, rfl, rfl⟩ := tapeOfSize_eq_ok_iff.mp ht
    exact ⟨⟨t, hfound, rfl, rfl⟩, hfits⟩

/-- A lookup before a call does not touch the buffers. -/
theorem checksFirst_lookup {found : Except Error (Tape F)} {run : Tape F → β → Outcome α β}
    {fits : Tape F → β → Prop} (h : ∀ t, found = .ok t → ChecksFirst (run t) (fits t)) :
    ChecksFirst
      (fun b => match found with
        | .error e => .refused e b
        | .ok t => run t b)
      fun b => ∃ t, found = .ok t ∧ fits t b := by
  cases found with
  | error e =>
    exact (checksFirst_refused e).congr (fun _ => rfl) fun b => ⟨fun ⟨t, ht, _⟩ => (nomatch ht),
      False.elim⟩
  | ok t =>
    refine (h t rfl).congr (fun _ => rfl) fun b => ⟨fun ⟨t', ht', hfits⟩ => ?_, fun hfits => ?_⟩
    · cases ht'
      exact hfits
    · exact ⟨t, rfl, hfits⟩

variable [Scalar F] [Elementary F]

/-- Every evaluator of the store checks first, the lookup and the counts included. -/
structure EvaluatorsCheckFirst (s : Store F) : Prop where
  forward : ∀ policy id m n p x xd, ChecksFirst (s.forward policy id m n p x xd) fun out =>
    s.HasOfSize id m n ∧ x.size = n ∧ out.y.size = m ∧ IsMatrix xd n p ∧ IsMatrix out.yd m p
  forwardValues : ∀ id m n x, ChecksFirst (s.forwardValues id m n x) fun y =>
    s.HasOfSize id m n ∧ x.size = n ∧ y.size = m
  forwardAlong : ∀ id m n x d, ChecksFirst (s.forwardAlong id m n x d) fun out =>
    s.HasOfSize id m n ∧ x.size = n ∧ out.y.size = m ∧ d.size = n ∧ out.yd.size = m
  jacobian : ∀ id x, ChecksFirst (fun _ => s.jacobian id x) fun _ =>
    ∃ t, s.tape id = .ok t ∧ x.size = t.independents.size

/-- If all tapes of a store can be swept, every evaluator of the store checks first. -/
theorem evaluatorsCheckFirst
    (h : ∀ (id : TapeId) (t : Tape F), s.tapes[id]? = some t → t.Replayable) :
    s.EvaluatorsCheckFirst := by
  have htape : ∀ {id t}, s.tape id = .ok t → t.EvaluatorsCheckFirst := fun ht =>
    (h _ _ (tape_eq_ok_iff.mp ht).2).evaluatorsCheckFirst
  have hsize : ∀ {id m n t}, s.tapeOfSize id m n = .ok t → t.EvaluatorsCheckFirst := fun ht =>
    htape (tapeOfSize_eq_ok_iff.mp ht).1
  refine ⟨fun policy id m n p x xd => ?_, fun id m n x => ?_, fun id m n x d => ?_, fun id x => ?_⟩
  · refine (checksFirst_lookup fun t ht => (hsize ht).forwardInto policy p x xd).congr
      (fun _ => rfl) fun out => ?_
    exact hasOfSize_and_iff fun m n => x.size = n ∧ out.y.size = m ∧ IsMatrix xd n p ∧
      IsMatrix out.yd m p
  · refine (checksFirst_lookup fun t ht => (hsize ht).forwardValues x).congr (fun _ => rfl)
      fun y => ?_
    exact hasOfSize_and_iff fun m n => x.size = n ∧ y.size = m
  · refine (checksFirst_lookup fun t ht => (hsize ht).forwardAlong default x d).congr
      (fun _ => rfl) fun out => ?_
    exact hasOfSize_and_iff fun m n => x.size = n ∧ out.y.size = m ∧ d.size = n ∧ out.yd.size = m
  · exact checksFirst_lookup fun t ht => (htape ht).jacobian default x

end Store

/-! ## Every run -/

variable {C : Width → Type} [∀ w, Scalar (C w)] [∀ w, Elementary (C w)]

omit [∀ w, Scalar (C w)] [∀ w, Elementary (C w)] in
/-- A sealed tape is found if no mark was read. -/
theorem Recorder.tape_of_sealed {r : Recorder C} {w : Width} {name : StoreName} {id : TapeId}
    {t : Tape (C w)} (h : r.sealed? w name id = some t) :
    { r.store w name with recording := none }.tape id = .ok t :=
  Store.tape_eq_ok_iff.mpr ⟨nofun, h⟩

/-- In every run every evaluator checks first: of every tape that the host can have, and of every
    store at every moment, with whatever mark the lookup read. -/
theorem World.Hosted.checks_first {past : List (World C)} {W : World C} (h : Hosted past W) :
    (∀ (w : Width) (t : Tape (C w)), CanHave (W :: past) t → t.EvaluatorsCheckFirst) ∧
      ∀ W' ∈ W :: past, ∀ (w : Width) (name : StoreName) (mark : Option TapeId),
        { W'.recorder.store w name with recording := mark }.EvaluatorsCheckFirst := by
  refine ⟨fun w t ht => (h.recorded ht).toReplayable.evaluatorsCheckFirst,
    fun W' hW' w name mark => ?_⟩
  refine Store.evaluatorsCheckFirst fun id t ht => ?_
  exact (h.recorded (Or.inr ⟨W', hW', Or.inr ⟨name, id, ht⟩⟩)).toReplayable

/-- The tape of a session is taken out of its slot, put back and sealed.  By id it is evaluated in
    two directions, unless a row of the buffer is too short. -/
theorem World.Hosted.checks_first_on_ragged_rows :
    ∃ (past : List (World Width.Number)) (W : World Width.Number) (store : Store Float),
      Hosted past W ∧ store = { W.recorder.store .double "s" with recording := none } ∧
      (∃ report, (store.forward .replay 7 2 1 2 #[1] #[#[1, 0]]
        ⟨#[5, 5], #[#[6, 6], #[6, 6]]⟩).answer = .ok report) ∧
      ∃ e, store.forward .replay 7 2 1 2 #[1] #[#[1, 0]] ⟨#[5, 5], #[#[6, 6], #[6]]⟩ =
        .refused e ⟨#[5, 5], #[#[6, 6], #[6]]⟩ := by
  let s : Session .double := ⟨"s", 7, 1⟩
  let x : Handle (Width.Number .double) := .place (1 : Float) 0 7 1
  let t : Tape (Width.Number .double) := ⟨7, 1, #[], #[(1 : Float)], #[0], #[0, 0]⟩
  let W₁ := ({} : World Width.Number).perform 0 (.begin "s" 7 0 : Call _ .double)
  let W₂ := W₁.perform 0 (.independent s (1 : Float))
  let W₃ := W₂.perform 0 (.dependent s x)
  let W₄ := W₃.perform 0 (.dependent s x)
  let W₅ := W₄.perform 0 (.takeSlot : Call _ .double)
  let W₆ := W₅.perform 0 (.replaceSlot t)
  let W := W₆.perform 0 (.endTrace s)
  have h₁ : Hosted [{}] W₁ := .step .start 0 _ trivial fun _ h => nomatch h
  have h₂ : Hosted _ W₂ := .step h₁ 0 _ List.mem_cons_self fun _ h => nomatch h
  have h₃ : Hosted _ W₃ :=
    .step h₂ 0 _ ⟨List.mem_cons_self, Or.inr List.mem_cons_self⟩ fun _ h => nomatch h
  have h₄ : Hosted _ W₄ :=
    .step h₃ 0 _ ⟨List.mem_cons_self, Or.inr List.mem_cons_self⟩ fun _ h => nomatch h
  have h₅ : Hosted _ W₅ := .step h₄ 0 _ trivial fun _ h => nomatch h
  have hslot : W₄.recorder.slot? .double 0 = some t := rfl
  -- the tape that is put back was in the slot before it was taken
  have hback : CanHave [W₅, W₄, W₃, W₂, W₁, {}] t :=
    Or.inr ⟨W₄, List.mem_cons_of_mem _ List.mem_cons_self, Or.inl ⟨0, hslot⟩⟩
  have h₆ : Hosted _ W₆ := .step h₅ 0 _ trivial fun _ h => by
    cases h
    exact hback
  have hW : Hosted _ W := .step h₆ 0 _ List.mem_cons_self fun _ h => nomatch h
  have ht : W.recorder.sealed? .double "s" 7 = some t :=
    World.sealed_endTrace (s := s) (W₅.recorder.slot?_putSlot_self 0 t) rfl
  let store : Store Float := { W.recorder.store .double "s" with recording := none }
  have hid : store.HasOfSize 7 2 1 := ⟨t, Recorder.tape_of_sealed ht, rfl, rfl⟩
  have hstore : store.EvaluatorsCheckFirst :=
    hW.checks_first.2 W List.mem_cons_self .double "s" none
  have hfirst := hstore.forward .replay 7 2 1 2 #[(1 : Float)] #[#[1, 0]]
  have hxd : IsMatrix #[#[(1 : Float), 0]] 1 2 := ⟨rfl, by simp⟩
  refine ⟨_, W, store, hW, rfl, (hfirst.succeeds_iff _).mpr ?_, hfirst.refuses _ ?_⟩
  · exact ⟨hid, rfl, rfl, hxd, rfl, by simp⟩
  · rintro ⟨-, -, -, -, -, hrows⟩
    exact absurd (hrows #[6] (by simp)) (by simp)

end DiffTape
