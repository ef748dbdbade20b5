/-
  WHAT A STORE ANSWERS BY ID.

  Everything that a store does by id looks up the tape first (`Lookup` lists what there is), and
  hands on the error if there is none.  With a tape in hand, the only errors left are those about
  shapes.  So the two errors of a lookup tell the same everywhere: the id is under recording, or
  there is no tape of it.

  The ids of a store are in ascending order, and they are those that it contains.
-/
import DiffTape.Store
import Std.Data.TreeMap.Lemmas

namespace DiffTape

variable {F : Type} {α β : Type}

/-! ## Lookups -/

/-- What can be asked of a store by id, with the arguments of the evaluation. -/
inductive Lookup (F : Type) where
  | tape
  | stats
  | forward (policy : BranchPolicy) (m n p : Nat) (x : Array F) (xd : Array (Array F))
      (out : Outputs F)
  | forwardValues (m n : Nat) (x y : Array F)
  | forwardAlong (m n : Nat) (x d : Array F) (out : DirectionOutputs F)
  | jacobian (x : Array F)

/-- What kept a call from answering. -/
def refusal? {ε : Type} : Except ε α → Option ε
  | .ok _ => none
  | .error e => some e

theorem refusal?_eq_some_iff {ε : Type} {m : Except ε α} {e : ε} :
    refusal? m = some e ↔ m = .error e := by
  cases m with
  | ok a => exact ⟨fun h => (nomatch h), fun h => (nomatch h)⟩
  | error e' =>
    constructor
    · rintro ⟨⟩
      rfl
    · rintro ⟨⟩
      rfl

/-- How a lookup fails, if it does. -/
def Store.failure? [Scalar F] [Elementary F] (s : Store F) (id : TapeId) :
    Lookup F → Option Failure
  | .tape => (refusal? (s.tape id)).map Failure.error
  | .stats => (refusal? (s.stats id)).map Failure.error
  | .forward policy m n p x xd out => refusal? (s.forward policy id m n p x xd out).answer
  | .forwardValues m n x y => refusal? (s.forwardValues id m n x y).answer
  | .forwardAlong m n x d out => refusal? (s.forwardAlong id m n x d out).answer
  | .jacobian x => refusal? (s.jacobian id x).answer

/-! ## Errors about shapes -/

/-- The only errors are about shapes. -/
def OnlyShapes (m : Except Error α) : Prop :=
  ∀ e, m = .error e → ∃ what expected found, e = .shapeMismatch what expected found

theorem onlyShapes_ok (a : α) : OnlyShapes (.ok a) := fun _ h => nomatch h

/-- A check of a size has one error, and that is about a shape. -/
theorem onlyShapes_checkSize (what : ShapeOf) (expected found : Nat) :
    OnlyShapes (checkSize what expected found) := by
  intro e he
  unfold checkSize at he
  by_cases heq : expected = found
  · rw [if_pos heq] at he
    cases he
  · rw [if_neg heq] at he
    exact ⟨what, expected, found, (Except.error.inj he).symm⟩

/-- Checks one after the other: each has such errors only, so the whole has. -/
theorem OnlyShapes.bind {m : Except Error α} {k : α → Except Error β} (hm : OnlyShapes m)
    (hk : ∀ a, OnlyShapes (k a)) : OnlyShapes (m >>= k) := by
  intro e he
  cases m with
  | ok a => exact hk a e he
  | error e' => exact hm e (by rw [← Except.error.inj he])

/-- Rows are checked one after the other. -/
theorem onlyShapes_checkRows (what : ShapeOf) (p : Nat) (rows : Array (Array F)) :
    OnlyShapes (checkRows what p rows) := by
  have hlist : ∀ l : List (Array F), OnlyShapes (forM l fun row => checkSize what p row.size) := by
    intro l
    induction l with
    | nil => exact onlyShapes_ok _
    | cons row rest ih => exact (onlyShapes_checkSize what p row.size).bind fun _ => ih
  obtain ⟨l⟩ := rows
  unfold checkRows
  rw [Array.forM_eq_forM, List.forM_toArray]
  exact hlist l

namespace Tape

variable (t : Tape F)

theorem onlyShapes_checkPoint (x y : Array F) : OnlyShapes (t.checkPoint x y) :=
  .bind (onlyShapes_checkSize _ _ _) fun _ => onlyShapes_checkSize _ _ _

theorem onlyShapes_checkDirections (p : Nat) (x : Array F) (xd : Array (Array F))
    (out : Outputs F) : OnlyShapes (t.checkDirections p x xd out) :=
  .bind (t.onlyShapes_checkPoint x out.y) fun _ =>
    .bind (onlyShapes_checkSize _ _ _) fun _ => .bind (onlyShapes_checkSize _ _ _) fun _ =>
      .bind (onlyShapes_checkRows _ _ _) fun _ => onlyShapes_checkRows _ _ _

theorem onlyShapes_checkDirection (x d : Array F) (out : DirectionOutputs F) :
    OnlyShapes (t.checkDirection x d out) :=
  .bind (t.onlyShapes_checkPoint x out.y) fun _ =>
    .bind (onlyShapes_checkSize _ _ _) fun _ => onlyShapes_checkSize _ _ _

variable {t} [Scalar F] [Elementary F]

/-- An evaluation that ends in an error was refused for the shape of an argument. -/
theorem shape_of_evaluate {policy : BranchPolicy} {x : Array F} {p : Nat}
    {seeds : Array (Array F)} {s : Scratch F} {fits : Except Error Unit} {buffers : β}
    {finish : Replayed F → α × β} (hfits : OnlyShapes fits) {e : Error}
    (h : (t.evaluate policy x p seeds s fits buffers finish).answer = .error (.error e)) :
    ∃ what expected found, e = .shapeMismatch what expected found := by
  unfold evaluate at h
  cases fits with
  | error e' =>
    cases h
    exact hfits e rfl
  | ok u =>
    cases hreplay : t.replay? policy x p seeds s with
    | none =>
      simp only [hreplay] at h
      cases h
    | some r =>
      simp only [hreplay] at h
      cases h

end Tape

/-! ## The two errors of a lookup -/

namespace Store

variable {s : Store F} {id : TapeId}

/-- The mark that was read decides first, and then the map. -/
theorem tapeAfter_cases (mark : Option TapeId) (s : Store F) (id : TapeId) :
    (mark = some id ∧ tapeAfter mark s id = .error (.tapeNotSealed id)) ∨
      (mark ≠ some id ∧ s.tapes[id]? = none ∧ tapeAfter mark s id = .error (.tapeNotFound id)) ∨
      ∃ t, mark ≠ some id ∧ s.tapes[id]? = some t ∧ tapeAfter mark s id = .ok t := by
  unfold tapeAfter
  by_cases hmark : mark = some id
  · exact Or.inl ⟨hmark, if_pos hmark⟩
  · rw [if_neg hmark]
    cases htape : s.tapes[id]? with
    | none => exact Or.inr (Or.inl ⟨hmark, rfl, rfl⟩)
    | some t => exact Or.inr (Or.inr ⟨t, hmark, rfl, rfl⟩)

/-- Where the mark that is read is that of the store itself. -/
theorem tape_cases (s : Store F) (id : TapeId) :
    (s.recording = some id ∧ s.tape id = .error (.tapeNotSealed id)) ∨
      (s.recording ≠ some id ∧ s.tapes[id]? = none ∧ s.tape id = .error (.tapeNotFound id)) ∨
      ∃ t, s.recording ≠ some id ∧ s.tapes[id]? = some t ∧ s.tape id = .ok t :=
  tapeAfter_cases s.recording s id

/-- A tape is answered exactly if it is in the map and its id is not under recording. -/
theorem tape_eq_ok_iff {t : Tape F} :
    s.tape id = .ok t ↔ s.recording ≠ some id ∧ s.tapes[id]? = some t := by
  rcases s.tape_cases id with ⟨hmark, htape⟩ | ⟨-, hnone, htape⟩ | ⟨t', hmark, hsome, htape⟩
  · rw [htape]
    exact ⟨fun h => (nomatch h), fun h => absurd hmark h.1⟩
  · rw [htape, hnone]
    exact ⟨fun h => (nomatch h), fun h => (nomatch h.2)⟩
  · rw [htape, hsome, Except.ok.injEq, Option.some.injEq]
    exact ⟨fun heq => ⟨hmark, heq⟩, And.right⟩

/-- Without a tape there is nothing whose counts could be compared. -/
theorem tapeOfSize_of_error {e : Error} (h : s.tape id = .error e) (m n : Nat) :
    s.tapeOfSize id m n = .error e := by
  unfold tapeOfSize
  rw [h]
  rfl

/-- With a tape in hand, it is only the counts that can be wrong. -/
theorem onlyShapes_tapeOfSize {t : Tape F} (h : s.tape id = .ok t) (m n : Nat) :
    OnlyShapes (s.tapeOfSize id m n) := by
  unfold tapeOfSize
  rw [h]
  exact .bind (onlyShapes_ok t) fun _ => .bind (onlyShapes_checkSize _ _ _) fun _ =>
    .bind (onlyShapes_checkSize _ _ _) fun _ => onlyShapes_ok _

variable [Scalar F] [Elementary F]

/-- Every lookup hands on the error of the tape. -/
theorem failure?_of_error {e : Error} (h : s.tape id = .error e) (q : Lookup F) :
    s.failure? id q = some (.error e) := by
  cases q with
  | tape =>
    show (refusal? (s.tape id)).map Failure.error = _
    rw [h]
    rfl
  | stats =>
    show (refusal? ((s.tape id).map Tape.stats)).map Failure.error = _
    rw [h]
    rfl
  | forward policy m n p x xd out =>
    show refusal? (s.forward policy id m n p x xd out).answer = _
    unfold forward
    rw [tapeOfSize_of_error h]
    rfl
  | forwardValues m n x y =>
    show refusal? (s.forwardValues id m n x y).answer = _
    unfold forwardValues
    rw [tapeOfSize_of_error h]
    rfl
  | forwardAlong m n x d out =>
    show refusal? (s.forwardAlong id m n x d out).answer = _
    unfold forwardAlong
    rw [tapeOfSize_of_error h]
    rfl
  | jacobian x =>
    show refusal? (s.jacobian id x).answer = _
    unfold jacobian
    rw [h]
    rfl

omit [Scalar F] [Elementary F] in
/-- An evaluation by id fails for a shape only, if it has its tape and the evaluation of a tape
    does. -/
theorem shape_of_tapeOfSize {t : Tape F} (h : s.tape id = .ok t) {m n : Nat} {buffers : β}
    {run : Tape F → Outcome α β} {e : Error}
    (hrun : ∀ t, (run t).answer = .error (.error e) → ∃ what a b, e = .shapeMismatch what a b)
    (he : (match s.tapeOfSize id m n with
      | .error e => .refused e buffers
      | .ok t => run t : Outcome α β).answer = .error (.error e)) :
    ∃ what a b, e = .shapeMismatch what a b := by
  cases hsize : s.tapeOfSize id m n with
  | error e' =>
    rw [hsize] at he
    cases he
    exact onlyShapes_tapeOfSize h m n e hsize
  | ok t' =>
    rw [hsize] at he
    exact hrun t' he

/-- A lookup of a tape that is there fails for a shape only. -/
theorem failure?_of_tape {t : Tape F} (h : s.tape id = .ok t) {q : Lookup F} {e : Error}
    (hq : s.failure? id q = some (.error e)) : ∃ what a b, e = .shapeMismatch what a b := by
  cases q with
  | tape =>
    have hnone : (refusal? (s.tape id)).map Failure.error = some (.error e) := hq
    rw [h] at hnone
    cases hnone
  | stats =>
    have hnone : (refusal? ((s.tape id).map Tape.stats)).map Failure.error = some (.error e) := hq
    rw [h] at hnone
    cases hnone
  | forward policy m n p x xd out =>
    have hanswer : (s.forward policy id m n p x xd out).answer = .error (.error e) :=
      refusal?_eq_some_iff.mp hq
    have hrun : ∀ t : Tape F, (t.forwardInto policy p x xd out).answer = .error (.error e) →
        ∃ what a b, e = .shapeMismatch what a b := by
      intro t ht
      unfold Tape.forwardInto Tape.forwardWithScratch at ht
      exact t.shape_of_evaluate (t.onlyShapes_checkDirections p x xd out) ht
    exact shape_of_tapeOfSize h hrun hanswer
  | forwardValues m n x y =>
    have hanswer : (s.forwardValues id m n x y).answer = .error (.error e) :=
      refusal?_eq_some_iff.mp hq
    exact shape_of_tapeOfSize h
      (fun t => t.shape_of_evaluate (t.onlyShapes_checkPoint x y)) hanswer
  | forwardAlong m n x d out =>
    have hanswer : (s.forwardAlong id m n x d out).answer = .error (.error e) :=
      refusal?_eq_some_iff.mp hq
    exact shape_of_tapeOfSize h
      (fun t => t.shape_of_evaluate (t.onlyShapes_checkDirection x d out)) hanswer
  | jacobian x =>
    have hanswer : (s.jacobian id x).answer = .error (.error e) := refusal?_eq_some_iff.mp hq
    unfold jacobian at hanswer
    rw [h] at hanswer
    exact t.shape_of_evaluate (onlyShapes_checkSize _ _ _) hanswer

/-- Every lookup fails alike while the id is under recording. -/
theorem failure?_notSealed_iff (q : Lookup F) :
    s.failure? id q = some (.error (.tapeNotSealed id)) ↔ s.recording = some id := by
  rcases s.tape_cases id with ⟨hmark, htape⟩ | ⟨hmark, -, htape⟩ | ⟨t, hmark, -, htape⟩
  · exact ⟨fun _ => hmark, fun _ => failure?_of_error htape q⟩
  · rw [failure?_of_error htape]
    exact ⟨fun h => (nomatch h), fun h => absurd h hmark⟩
  · refine ⟨fun hq => ?_, fun h => absurd h hmark⟩
    obtain ⟨what, a, b, heq⟩ := failure?_of_tape htape hq
    cases heq

/-- And every lookup fails alike where there is no tape. -/
theorem failure?_notFound_iff (q : Lookup F) :
    s.failure? id q = some (.error (.tapeNotFound id)) ↔
      s.recording ≠ some id ∧ s.tapes[id]? = none := by
  rcases s.tape_cases id with ⟨hmark, htape⟩ | ⟨hmark, hnone, htape⟩ | ⟨t, -, hsome, htape⟩
  · rw [failure?_of_error htape]
    exact ⟨fun h => (nomatch h), fun h => absurd hmark h.1⟩
  · exact ⟨fun _ => ⟨hmark, hnone⟩, fun _ => failure?_of_error htape q⟩
  · rw [hsome]
    refine ⟨fun hq => ?_, fun h => (nomatch h.2)⟩
    obtain ⟨what, a, b, heq⟩ := failure?_of_tape htape hq
    cases heq

/-! ## The ids -/

omit [Scalar F] [Elementary F] in
/-- The ids are listed in strictly ascending order. -/
theorem ids_ascending (s : Store F) : s.ids.Pairwise (· < ·) := by
  refine (Std.TreeMap.ordered_keys (t := s.tapes)).imp ?_
  intro a b hab
  exact Std.compare_eq_lt.mp hab

omit [Scalar F] [Elementary F] in
/-- A store contains what its map has, whether the id is under recording again or not. -/
theorem contains_iff : s.contains id = true ↔ ∃ t, s.tapes[id]? = some t := by
  unfold contains
  rw [Std.TreeMap.contains_eq_isSome_getElem?, Option.isSome_iff_exists]

omit [Scalar F] [Elementary F] in
/-- The ids are those that the store contains. -/
theorem mem_ids_iff : id ∈ s.ids ↔ s.contains id = true := by
  unfold ids contains
  rw [Std.TreeMap.mem_keys, Std.TreeMap.mem_iff_contains]

/-- What a store has to say about an id: `isOpen` tells whether the id is under recording, and
    `found` is the sealed tape, if there is one. -/
structure Answers (s : Store F) (id : TapeId) (isOpen : Prop) (found : Option (Tape F)) :
    Prop where
  /-- An id under recording hides its sealed tape from every lookup. -/
  notSealed : ∀ q, s.failure? id q = some (.error (.tapeNotSealed id)) ↔ isOpen
  notFound : ∀ q, s.failure? id q = some (.error (.tapeNotFound id)) ↔ ¬ isOpen ∧ found = none
  tape : ∀ t, s.tape id = .ok t ↔ ¬ isOpen ∧ found = some t
  listed : id ∈ s.ids ↔ s.contains id = true
  contained : s.contains id = true ↔ ∃ t, found = some t

/-- A store answers by its mark and its map. -/
theorem answers (s : Store F) (id : TapeId) :
    s.Answers id (s.recording = some id) s.tapes[id]? where
  notSealed := failure?_notSealed_iff
  notFound := failure?_notFound_iff
  tape := fun _ => tape_eq_ok_iff
  listed := mem_ids_iff
  contained := contains_iff

end Store

end DiffTape
