/-
  WHAT IS TRUE OF EVERY TAPE THAT IS RECORDED.

  A tape only grows by three appends (an independent, an entry, a dependent).  Two invariants are
  kept by them:

  * `Tape.Recorded` — at ANY length, also where locations are cut to 32 bits: everything is in
    range, operands lie below results, and every entry has one of the three shapes of
    `Entry.Shaped`.  A recorded tape is `Replayable`.
  * `Tape.Faithful` — while the tape is `Addressable` (each location is a word of its own, and none
    is the reserved one): the independents and the results together are the locations, each once;
    the recorded value of a result is what its entry computes from the recorded values of its
    operands; and a recorded branch is that of the recorded operand.

  The appends get their operands from handles.  All that matters of a handle is that it shows the
  recorded value of its location (`Handle.Shows`).
-/
import DiffTape.Handle
import DiffTape.Proofs.Sweep

namespace DiffTape

variable {F : Type}

/-! ## The shapes of entries -/

/-- Aux data of the kind that the operation carries. -/
def Aux.Fits (op : Opcode) (aux : Aux) : Prop :=
  match op with
  | .abs | .signum => ∃ b, aux = .branch b
  | .powi | .ldexp | .frexp => ∃ e, aux = .exponent e
  | _ => aux = .none

/-- The entries that are recorded: a literal brought to a location, a unary operation on a
    location, and a binary operation of which at most one operand is a literal. -/
inductive Entry.Shaped : Entry F → Prop
  | const (result : Location) (c : F) : Shaped ⟨.const, result, .literal c, .unused, .none⟩
  | unary {op : Opcode} {result loc : Location} {aux : Aux} (harity : op.arity = 1)
      (hop : op ≠ .const) (haux : aux.Fits op) : Shaped ⟨op, result, .location loc, .unused, aux⟩
  | locations {op : Opcode} {result a b : Location} (harity : op.arity = 2) :
      Shaped ⟨op, result, .location a, .location b, .none⟩
  | literalRight {op : Opcode} {result a : Location} {c : F} (harity : op.arity = 2) :
      Shaped ⟨op, result, .location a, .literal c, .none⟩
  | literalLeft {op : Opcode} {result b : Location} {c : F} (harity : op.arity = 2) :
      Shaped ⟨op, result, .literal c, .location b, .none⟩

/-- Only an entry that brings a literal to a location has no location among its operands. -/
theorem Entry.Shaped.lhs_of_const {e : Entry F} (h : e.Shaped) (hop : e.op = .const) :
    ∃ c, e.lhs = .literal c := by
  cases h with
  | const _ c => exact ⟨c, rfl⟩
  | unary _ hne _ => exact absurd hop hne
  | locations harity => subst hop; exact absurd harity (by decide)
  | literalRight harity => subst hop; exact absurd harity (by decide)
  | literalLeft harity => subst hop; exact absurd harity (by decide)

theorem Handle.value_place (v : F) (loc : Location) (tape : TapeId) (session : Nat) :
    (place v loc tape session).value = v := by
  unfold place
  split
  · rfl
  · rfl

/-- A handle that is placed has the location, unless that is reserved. -/
theorem Handle.mark_place {v : F} {loc : Location} {tape : TapeId} {session : Nat} {m : Mark}
    (h : (place v loc tape session).mark = some m) :
    m = ⟨loc, tape, session⟩ ∧ (place v loc tape session).value = v := by
  unfold place at h ⊢
  by_cases hloc : loc = reservedLocation
  · rw [if_pos hloc] at h
    cases h
  · rw [if_neg hloc] at h ⊢
    cases h
    exact ⟨rfl, rfl⟩

/-- A unary operation on a handle that is not a constant has an entry of such a shape. -/
theorem Handle.shaped_unary {x : Handle F} (hmark : x.mark ≠ none) {op : Opcode} {aux : Aux}
    (harity : op.arity = 1) (hop : op ≠ .const) (haux : aux.Fits op) (result : Location) :
    Entry.Shaped ⟨op, result, x.operand, .unused, aux⟩ := by
  obtain ⟨v, mark⟩ := x
  cases mark with
  | none => exact absurd rfl hmark
  | some m => exact .unary harity hop haux

/-- So has a binary operation on two handles that are not both constants. -/
theorem Handle.shaped_binary {x y : Handle F} (hmark : x.mark ≠ none ∨ y.mark ≠ none) {op : Opcode}
    (harity : op.arity = 2) (result : Location) :
    Entry.Shaped ⟨op, result, x.operand, y.operand, .none⟩ := by
  obtain ⟨u, xm⟩ := x
  obtain ⟨v, ym⟩ := y
  cases xm with
  | none =>
    cases ym with
    | none => exact absurd rfl (hmark.resolve_left fun h => h rfl)
    | some b => exact .literalLeft harity
  | some a =>
    cases ym with
    | none => exact .literalRight harity
    | some b => exact .locations harity

namespace Tape

/-! ## At any length -/

/-- What holds of a recorded tape whatever its length. -/
structure Recorded (t : Tape F) : Prop extends t.Replayable where
  shaped : ∀ e ∈ t.entries, e.Shaped

/-- Cutting the count never makes the next location larger than it is. -/
theorem nextLocation_le (t : Tape F) : t.nextLocation.toNat ≤ t.values.size := by
  unfold nextLocation
  rw [Nat.toUInt32_eq, UInt32.toNat_ofNat']
  exact Nat.mod_le _ _

theorem recorded_empty (id : TapeId) (session : Nat) :
    Recorded ({ id, session } : Tape F) := by
  refine ⟨⟨?_, ?_, ?_, ?_, ?_⟩, ?_⟩ <;> exact fun _ h => absurd h (Array.not_mem_empty _)

/-- An independent is a location of its own, and no entry comes with it. -/
theorem Recorded.appendIndependent {t : Tape F} (h : t.Recorded) (v : F) :
    (t.appendIndependent v).Recorded := by
  have hsize : (t.appendIndependent v).values.size = t.values.size + 1 := Array.size_push ..
  refine ⟨⟨fun loc hloc => ?_, fun loc hloc => ?_, fun e he => ?_, h.lhs_below, h.rhs_below⟩,
    h.shaped⟩
  · rw [hsize]
    rcases Array.mem_push.mp hloc with hloc | rfl
    · exact Nat.lt_succ_of_lt (h.independents_lt loc hloc)
    · exact Nat.lt_succ_of_le t.nextLocation_le
  · rw [hsize]
    exact Nat.lt_succ_of_lt (h.dependents_lt loc hloc)
  · rw [hsize]
    exact Nat.lt_succ_of_lt (h.result_lt e he)

/-- What holds of the entries and of the new one holds of the entries afterwards. -/
theorem forall_entries_append {t : Tape F} {op : Opcode} {lhs rhs : Operand F} {aux : Aux} {v : F}
    {P : Entry F → Prop} (hold : ∀ e ∈ t.entries, P e)
    (hnew : P ⟨op, t.nextLocation, lhs, rhs, aux⟩) :
    ∀ e ∈ (t.appendEntry op lhs rhs aux v).entries, P e := by
  intro e he
  rcases Array.mem_push.mp he with he | rfl
  · exact hold e he
  · exact hnew

/-- An entry whose operands are below its result. -/
theorem Recorded.appendEntry {t : Tape F} (h : t.Recorded) {op : Opcode} {lhs rhs : Operand F}
    {aux : Aux} (hl : lhs.Below t.nextLocation) (hr : rhs.Below t.nextLocation)
    (hshape : Entry.Shaped ⟨op, t.nextLocation, lhs, rhs, aux⟩) (v : F) :
    (t.appendEntry op lhs rhs aux v).Recorded := by
  have hsize : (t.appendEntry op lhs rhs aux v).values.size = t.values.size + 1 :=
    Array.size_push ..
  refine ⟨⟨fun loc hloc => ?_, fun loc hloc => ?_, ?_, forall_entries_append h.lhs_below hl,
    forall_entries_append h.rhs_below hr⟩, forall_entries_append h.shaped hshape⟩
  · rw [hsize]
    exact Nat.lt_succ_of_lt (h.independents_lt loc hloc)
  · rw [hsize]
    exact Nat.lt_succ_of_lt (h.dependents_lt loc hloc)
  · rw [hsize]
    exact forall_entries_append (fun e he => Nat.lt_succ_of_lt (h.result_lt e he))
      (Nat.lt_succ_of_le t.nextLocation_le)

/-- A literal brought to a location. -/
theorem Recorded.appendConst {t : Tape F} (h : t.Recorded) (v : F) : (t.appendConst v).Recorded :=
  h.appendEntry (Operand.below_literal _ _) (Operand.below_unused _) (.const _ _) _

/-- Any location of the tape can be marked. -/
theorem Recorded.appendDependent {t : Tape F} (h : t.Recorded) {loc : Location}
    (hloc : loc.toNat < t.values.size) : (t.appendDependent loc).Recorded := by
  refine ⟨⟨h.independents_lt, fun l hl => ?_, h.result_lt, h.lhs_below, h.rhs_below⟩, h.shaped⟩
  rcases Array.mem_push.mp hl with hl | rfl
  · exact h.dependents_lt l hl
  · exact hloc

/-! ## While every location can be addressed -/

/-- The reserved location is a word, so a tape whose size it bounds is not cut. -/
theorem reserved_lt : Handle.reservedLocation.toNat < UInt32.size := by decide

/-- Every location of the tape is a word of its own, and none is the reserved one. -/
def Addressable (t : Tape F) : Prop := t.values.size ≤ Handle.reservedLocation.toNat

theorem Addressable.lt {t : Tape F} (h : t.Addressable) : t.values.size < UInt32.size :=
  Nat.lt_of_le_of_lt h reserved_lt

/-- The next location is not cut. -/
theorem toNat_nextLocation {t : Tape F} (h : t.values.size < UInt32.size) :
    t.nextLocation.toNat = t.values.size :=
  UInt32.toNat_ofNat_of_lt' h

/-- The next location is above every location of the tape. -/
theorem lt_nextLocation {t : Tape F} (hsize : t.values.size < UInt32.size) {loc : Location}
    (hloc : loc.toNat < t.values.size) : loc < t.nextLocation := by
  rw [UInt32.lt_iff_toNat_lt, toNat_nextLocation hsize]
  exact hloc

section Push

variable {t t' : Tape F} {v : F}

/-- A location of the longer tape is one of the shorter tape, or the next one. -/
theorem lt_or_eq_next (h : t'.values = t.values.push v) (hsize : t.values.size < UInt32.size)
    {loc : Location} (hloc : loc.toNat < t'.values.size) :
    loc.toNat < t.values.size ∨ loc = t.nextLocation := by
  rw [h, Array.size_push] at hloc
  rcases Nat.lt_succ_iff_lt_or_eq.mp hloc with hlt | heq
  · exact Or.inl hlt
  · right
    rw [← UInt32.toNat_inj, toNat_nextLocation hsize]
    exact heq

/-- Before a value was appended there were fewer. -/
theorem addressable_of_push (h : t'.values = t.values.push v) (haddr : t'.Addressable) :
    t.Addressable := by
  unfold Addressable at haddr ⊢
  rw [h, Array.size_push] at haddr
  omega

/-- A value that is appended leaves the recorded values before it alone. -/
theorem recordedValue?_push (h : t'.values = t.values.push v) {loc : Location}
    (hloc : loc.toNat < t.values.size) : t'.recordedValue? loc = t.recordedValue? loc := by
  unfold recordedValue?
  rw [h, Array.getElem?_push_lt hloc, Array.getElem?_eq_getElem hloc]

/-- The value that was appended is read at what was the next location. -/
theorem recordedValue?_push_next (h : t'.values = t.values.push v)
    (hsize : t.values.size < UInt32.size) : t'.recordedValue? t.nextLocation = some v := by
  unfold recordedValue?
  rw [h, toNat_nextLocation hsize, Array.getElem?_push_size]

/-- The recorded values of a tape stay when one is appended. -/
theorem recordedValue?_of_push (h : t'.values = t.values.push v) {loc : Location} {a : F}
    (ha : t.recordedValue? loc = some a) : t'.recordedValue? loc = some a := by
  have hloc : loc.toNat < t.values.size := by
    by_contra hge
    unfold recordedValue? at ha
    rw [Array.getElem?_eq_none (Nat.le_of_not_lt hge)] at ha
    cases ha
  rw [recordedValue?_push h hloc, ha]

/-- The recorded value of a location, zero off the tape. -/
def recordedAt [Zero F] (t : Tape F) (loc : Location) : F := (t.recordedValue? loc).getD 0

variable [Zero F]

theorem recordedAt_push (h : t'.values = t.values.push v) {loc : Location}
    (hloc : loc.toNat < t.values.size) : t'.recordedAt loc = t.recordedAt loc := by
  unfold recordedAt
  rw [recordedValue?_push h hloc]

theorem recordedAt_push_next (h : t'.values = t.values.push v)
    (hsize : t.values.size < UInt32.size) : t'.recordedAt t.nextLocation = v := by
  unfold recordedAt
  rw [recordedValue?_push_next h hsize, Option.getD_some]

/-- The recorded outputs stay when a value is appended. -/
theorem Recorded.outputs_push (hrec : t.Recorded) (h : t'.values = t.values.push v) :
    t.dependents.map t'.recordedAt = t.dependents.map t.recordedAt :=
  Array.map_congr_left fun loc hloc => recordedAt_push h (hrec.dependents_lt loc hloc)

end Push

end Tape

variable [Scalar F]

/-- The handle has the value that the tape has recorded at its location. -/
def Handle.Shows (x : Handle F) (t : Tape F) : Prop :=
  ∀ m, x.mark = some m → t.recordedValue? m.loc = some x.value

/-- Reading the operand of a handle gives the value of the handle. -/
theorem Handle.Shows.read_operand {x : Handle F} {t : Tape F} (h : x.Shows t) :
    x.operand.read t.recordedAt = x.value := by
  obtain ⟨v, mark⟩ := x
  cases mark with
  | none => rfl
  | some m =>
    show (t.recordedValue? m.loc).getD 0 = v
    rw [h m rfl, Option.getD_some]

/-- An operand below the end of a tape reads the same on the tape with one more value. -/
theorem Operand.read_push {t t' : Tape F} {v : F} (h : t'.values = t.values.push v)
    {o : Operand F} {r : Location} (hr : r.toNat ≤ t.values.size) (ho : o.Below r) :
    o.read t'.recordedAt = o.read t.recordedAt := by
  refine Operand.denote_congr fun loc hloc => Tape.recordedAt_push h ?_
  exact Nat.lt_of_lt_of_le (UInt32.lt_iff_toNat_lt.mp (ho loc hloc)) hr

variable [Elementary F]

namespace Tape

/-- What holds of the recorded values of a tape that is addressable. -/
structure Faithful (t : Tape F) : Prop where
  independents_increasing : t.independents.toList.Pairwise (· < ·)
  results_increasing : t.entries.toList.Pairwise fun e e' => e.result < e'.result
  results_fresh : ∀ e ∈ t.entries, e.result ∉ t.independents
  covered : ∀ loc : Location, loc.toNat < t.values.size →
    loc ∈ t.independents ∨ ∃ e ∈ t.entries, e.result = loc
  computed : ∀ e ∈ t.entries, t.recordedAt e.result = e.value t.recordedAt
  branch : ∀ e ∈ t.entries, ∀ b, e.aux.branch? = some b → b = Branch.of (e.lhs.read t.recordedAt)

theorem faithful_empty (id : TapeId) (session : Nat) :
    Faithful ({ id, session } : Tape F) := by
  refine ⟨List.Pairwise.nil, List.Pairwise.nil, ?_, fun loc hloc => absurd hloc (Nat.not_lt_zero _),
    ?_, ?_⟩ <;> exact fun _ h => absurd h (Array.not_mem_empty _)

section Append

variable {t t' : Tape F} {v : F}

/-- What holds of an entry is not disturbed by a value that is appended. -/
theorem Faithful.of_push (h : t.Faithful) (hrec : t.Recorded) (hpush : t'.values = t.values.push v)
    {e : Entry F} (he : e ∈ t.entries) :
    t'.recordedAt e.result = e.value t'.recordedAt ∧
      ∀ b, e.aux.branch? = some b → b = Branch.of (e.lhs.read t'.recordedAt) := by
  have hres := hrec.result_lt e he
  have hl := Operand.read_push hpush (Nat.le_of_lt hres) (hrec.lhs_below e he)
  have hr := Operand.read_push hpush (Nat.le_of_lt hres) (hrec.rhs_below e he)
  constructor
  · unfold Entry.value
    rw [hl, hr, recordedAt_push hpush hres]
    exact h.computed e he
  · rw [hl]
    exact h.branch e he

/-- An independent has no equation to satisfy. -/
theorem Faithful.appendIndependent (h : t.Faithful) (hrec : t.Recorded)
    (hsize : t.values.size < UInt32.size) (v : F) : (t.appendIndependent v).Faithful := by
  have hpush : (t.appendIndependent v).values = t.values.push v := rfl
  refine ⟨?_, h.results_increasing, fun e he hmem => ?_, fun loc hloc => ?_,
    fun e he => (h.of_push hrec hpush he).1, fun e he => (h.of_push hrec hpush he).2⟩
  · -- the new independent is above all that there are
    show (t.independents.push t.nextLocation).toList.Pairwise (· < ·)
    rw [Array.toList_push, List.pairwise_append]
    refine ⟨h.independents_increasing, List.pairwise_singleton _ _, ?_⟩
    intro a ha b hb
    rw [List.mem_singleton.mp hb]
    exact lt_nextLocation hsize (hrec.independents_lt a (Array.mem_toList_iff.mp ha))
  · -- and it is no result, for these lie below it
    rcases Array.mem_push.mp hmem with hmem | heq
    · exact h.results_fresh e he hmem
    · have hlt := lt_nextLocation hsize (hrec.result_lt e he)
      rw [heq] at hlt
      exact absurd hlt (UInt32.lt_irrefl _)
  · rcases lt_or_eq_next hpush hsize hloc with hlt | rfl
    · rcases h.covered loc hlt with hind | hres
      · exact Or.inl (Array.mem_push.mpr (Or.inl hind))
      · exact Or.inr hres
    · exact Or.inl (Array.mem_push.mpr (Or.inr rfl))

/-- An entry keeps the tape faithful if its value is what it computes from the recorded values, and
    its branch is that of its operand. -/
theorem Faithful.appendEntry (h : t.Faithful) (hrec : t.Recorded)
    (hsize : t.values.size < UInt32.size)
    {op : Opcode} {lhs rhs : Operand F} {aux : Aux} (hl : lhs.Below t.nextLocation)
    (hr : rhs.Below t.nextLocation)
    (hv : v = evalValue op (lhs.read t.recordedAt) (rhs.read t.recordedAt) aux)
    (hb : ∀ b, aux.branch? = some b → b = Branch.of (lhs.read t.recordedAt)) :
    (t.appendEntry op lhs rhs aux v).Faithful := by
  have hpush : (t.appendEntry op lhs rhs aux v).values = t.values.push v := rfl
  have hl' := Operand.read_push hpush t.nextLocation_le hl
  have hr' := Operand.read_push hpush t.nextLocation_le hr
  refine ⟨h.independents_increasing, ?_, forall_entries_append h.results_fresh fun hmem => ?_,
    fun loc hloc => ?_, forall_entries_append (fun e he => (h.of_push hrec hpush he).1) ?_,
    forall_entries_append (fun e he => (h.of_push hrec hpush he).2) ?_⟩
  · -- the new result is above all that there are
    show (t.entries.push _).toList.Pairwise _
    rw [Array.toList_push, List.pairwise_append]
    refine ⟨h.results_increasing, List.pairwise_singleton _ _, ?_⟩
    intro a ha b hb
    rw [List.mem_singleton.mp hb]
    exact lt_nextLocation hsize (hrec.result_lt a (Array.mem_toList_iff.mp ha))
  · -- and it is no independent, for these lie below it
    have hlt := lt_nextLocation hsize (hrec.independents_lt _ hmem)
    exact absurd hlt (UInt32.lt_irrefl _)
  · rcases lt_or_eq_next hpush hsize hloc with hlt | rfl
    · rcases h.covered loc hlt with hind | ⟨e, he, hres⟩
      · exact Or.inl hind
      · exact Or.inr ⟨e, Array.mem_push.mpr (Or.inl he), hres⟩
    · exact Or.inr ⟨_, Array.mem_push_self, rfl⟩
  · unfold Entry.value
    rw [hl', hr', recordedAt_push_next hpush hsize]
    exact hv
  · rw [hl']
    exact hb

theorem Faithful.appendConst (h : t.Faithful) (hrec : t.Recorded)
    (hsize : t.values.size < UInt32.size)
    (v : F) : (t.appendConst v).Faithful :=
  h.appendEntry hrec hsize (Operand.below_literal _ _) (Operand.below_unused _) rfl
    fun _ hb => nomatch hb

/-- What is marked makes no difference to the equations. -/
theorem Faithful.appendDependent (h : t.Faithful) (loc : Location) :
    (t.appendDependent loc).Faithful :=
  ⟨h.independents_increasing, h.results_increasing, h.results_fresh, h.covered, h.computed,
    h.branch⟩

end Append

end Tape

end DiffTape
