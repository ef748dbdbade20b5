/-
  A PASS OVER THE ENTRIES, AS A FUNCTION.

  A sweep works on flat buffers with checked access.  What it computes is simpler: every entry
  writes ONE cell, at its result, from the cells at its operands.  `pass` is just that, on total
  functions from locations to cells, and for any kind of cell.  What a cell is depends on the
  question:

  * a number (`Entry.value`): the values of a replay, or the recorded ones;
  * a number and a derivative row (`Entry.cell`): what the sweep keeps;
  * something the sweep is compared with, such as a dual number.

  A statement about two evaluations of a tape is then a relation between two passes over one list
  of entries, and it is enough that each single entry keeps the relation (`pass_rel`).
-/
import DiffTape.Replay.Sweep
import Mathlib.Logic.Function.Basic

namespace DiffTape

variable {F α β : Type}

/-! ## Reading an operand -/

/-- What an operand stands for, where `env` has the cells of all locations: a literal stands for
    `literal c`, and a slot that is not used for `blank`. -/
def Operand.denote (literal : F → α) (blank : α) (env : Location → α) : Operand F → α
  | .location loc => env loc
  | .literal c => literal c
  | .unused => blank

/-- An operand depends on the cell it refers to, and on no other. -/
theorem Operand.denote_congr {literal : F → α} {blank : α} {env env' : Location → α}
    {o : Operand F} (h : ∀ loc, o.location? = some loc → env loc = env' loc) :
    o.denote literal blank env = o.denote literal blank env' := by
  cases o with
  | location loc => exact h loc rfl
  | literal c => rfl
  | unused => rfl

/-- Cells that are related one by one are read as related cells. -/
theorem Operand.denote_rel {R : α → β → Prop} {literal : F → α} {literal' : F → β} {blank : α}
    {blank' : β} {env : Location → α} {env' : Location → β} (o : Operand F)
    (hlit : ∀ c, R (literal c) (literal' c)) (hblank : R blank blank')
    (henv : ∀ loc, R (env loc) (env' loc)) :
    R (o.denote literal blank env) (o.denote literal' blank' env') := by
  cases o with
  | location loc => exact henv loc
  | literal c => exact hlit c
  | unused => exact hblank

/-- Every location an operand refers to lies below `r`. -/
def Operand.Below (r : Location) (o : Operand F) : Prop :=
  ∀ loc, o.location? = some loc → loc < r

theorem Operand.below_literal (r : Location) (c : F) : (Operand.literal c).Below r :=
  fun _ h => nomatch h

theorem Operand.below_unused (r : Location) : (Operand.unused : Operand F).Below r :=
  fun _ h => nomatch h

/-! ## Passes -/

/-- One pass over the entries: each writes, at its result, what `f` makes of the cells so far. -/
def pass (f : Entry F → (Location → α) → α) :
    List (Entry F) → (Location → α) → Location → α
  | [], env => env
  | e :: rest, env => pass f rest (Function.update env e.result (f e env))

/-- A pass over two lists, one after the other. -/
theorem pass_append (f : Entry F → (Location → α) → α) (l l' : List (Entry F))
    (env : Location → α) : pass f (l ++ l') env = pass f l' (pass f l env) := by
  induction l generalizing env with
  | nil => rfl
  | cons e rest ih => exact ih _

/-- A location that is no result keeps its cell. -/
theorem pass_of_not_result {f : Entry F → (Location → α) → α} {entries : List (Entry F)}
    {loc : Location} (h : ∀ e ∈ entries, e.result ≠ loc) (env : Location → α) :
    pass f entries env loc = env loc := by
  induction entries generalizing env with
  | nil => rfl
  | cons e rest ih =>
    obtain ⟨hfirst, hrest⟩ := List.forall_mem_cons.mp h
    rw [pass, ih hrest, Function.update_of_ne fun heq => hfirst heq.symm]

/-- Writing related cells at one location keeps the cells related, location by location. -/
theorem update_rel {R : α → β → Prop} {env : Location → α} {env' : Location → β}
    (h : ∀ loc, R (env loc) (env' loc)) (r : Location) {a : α} {b : β} (hab : R a b)
    (loc : Location) : R (Function.update env r a loc) (Function.update env' r b loc) := by
  by_cases hl : loc = r
  · subst hl
    rw [Function.update_self, Function.update_self]
    exact hab
  · rw [Function.update_of_ne hl, Function.update_of_ne hl]
    exact h loc

/-- The passes agree at every location if each entry keeps the agreement. -/
theorem pass_rel {R : α → β → Prop} {f : Entry F → (Location → α) → α}
    {g : Entry F → (Location → β) → β} {entries : List (Entry F)}
    (hstep : ∀ e ∈ entries, ∀ env env', (∀ loc, R (env loc) (env' loc)) → R (f e env) (g e env'))
    {env : Location → α} {env' : Location → β} (h : ∀ loc, R (env loc) (env' loc))
    (loc : Location) :
    R (pass f entries env loc) (pass g entries env' loc) := by
  induction entries generalizing env env' with
  | nil => exact h loc
  | cons e rest ih =>
    rw [List.forall_mem_cons] at hstep
    obtain ⟨hfirst, hrest⟩ := hstep
    have hcell : R (f e env) (g e env') := hfirst env env' h
    exact ih hrest (update_rel h e.result hcell)

/-- A projection of the cells that every entry respects turns one pass into the other. -/
theorem pass_map {f : Entry F → (Location → α) → α} {g : Entry F → (Location → β) → β}
    (φ : α → β) (h : ∀ e env, φ (f e env) = g e (φ ∘ env)) (entries : List (Entry F))
    (env : Location → α) : φ ∘ pass f entries env = pass g entries (φ ∘ env) := by
  induction entries generalizing env with
  | nil => rfl
  | cons e rest ih => rw [pass, ih, Function.comp_update, h, pass]

/-! ## Where a pass begins -/

/-- Writes `f i` at each location that is listed with the index `i`, one after the other. -/
def placeAll (f : Nat → α) : List (Location × Nat) → (Location → α) → Location → α
  | [], env => env
  | (loc, i) :: rest, env => placeAll f rest (Function.update env loc (f i))

/-- The cells before the first entry: `f i` at the `i`-th independent, `blank` elsewhere. -/
def Tape.place (t : Tape F) (blank : α) (f : Nat → α) : Location → α :=
  placeAll f t.independents.toList.zipIdx fun _ => blank

theorem placeAll_rel {R : α → β → Prop} {f : Nat → α} {g : Nat → β} {l : List (Location × Nat)}
    (hl : ∀ x ∈ l, R (f x.2) (g x.2)) {env : Location → α} {env' : Location → β}
    (h : ∀ loc, R (env loc) (env' loc)) (loc : Location) :
    R (placeAll f l env loc) (placeAll g l env' loc) := by
  induction l generalizing env env' with
  | nil => exact h loc
  | cons x rest ih =>
    rw [List.forall_mem_cons] at hl
    obtain ⟨hfirst, hrest⟩ := hl
    exact ih hrest (update_rel h x.1 hfirst)

/-- Placings of related cells are related, location by location. -/
theorem Tape.place_rel {R : α → β → Prop} {blank : α} {blank' : β} {f : Nat → α} {g : Nat → β}
    (t : Tape F) (hblank : R blank blank') (h : ∀ i < t.independents.size, R (f i) (g i))
    (loc : Location) : R (t.place blank f loc) (t.place blank' g loc) := by
  refine placeAll_rel ?_ (fun _ => hblank) loc
  intro x hx
  have hi := List.snd_lt_of_mem_zipIdx hx
  exact h x.2 (by simpa using hi)

theorem placeAll_map (φ : α → β) (f : Nat → α) (l : List (Location × Nat)) (env : Location → α) :
    φ ∘ placeAll f l env = placeAll (φ ∘ f) l (φ ∘ env) := by
  induction l generalizing env with
  | nil => rfl
  | cons x rest ih => rw [placeAll, ih, Function.comp_update, placeAll, Function.comp_apply]

theorem Tape.place_map (φ : α → β) (t : Tape F) (blank : α) (f : Nat → α) :
    φ ∘ t.place blank f = t.place (φ blank) (φ ∘ f) :=
  placeAll_map φ f _ _

theorem placeAll_eq {f : Nat → α} {g : Location → α} {l : List (Location × Nat)}
    (hl : ∀ x ∈ l, f x.2 = g x.1) {env : Location → α} {loc : Location}
    (h : env loc = g loc ∨ ∃ x ∈ l, x.1 = loc) : placeAll f l env loc = g loc := by
  induction l generalizing env with
  | nil =>
    rcases h with h | ⟨x, hx, -⟩
    · exact h
    · exact absurd hx List.not_mem_nil
  | cons x rest ih =>
    rw [List.forall_mem_cons] at hl
    obtain ⟨hfirst, hrest⟩ := hl
    refine ih hrest ?_
    by_cases hx : loc = x.1
    · -- a location that is listed again gets the same cell again
      subst hx
      rw [Function.update_self]
      exact Or.inl hfirst
    · rw [Function.update_of_ne hx]
      rcases h with h | ⟨y, hy, rfl⟩
      · exact Or.inl h
      · rcases List.mem_cons.mp hy with rfl | hy
        · exact absurd rfl hx
        · exact Or.inr ⟨y, hy, rfl⟩

/-- If the cells that are placed are a function `g` of the location, every independent has the
    cell that `g` gives it, even if it is listed more than once. -/
theorem Tape.place_eq {t : Tape F} {blank : α} {f : Nat → α} {g : Location → α}
    (h : ∀ i, (hi : i < t.independents.size) → f i = g t.independents[i]) {loc : Location}
    (hloc : loc ∈ t.independents) : t.place blank f loc = g loc := by
  refine placeAll_eq ?_ (Or.inr ?_)
  · rintro ⟨l, i⟩ hx
    obtain ⟨-, hi, hl⟩ := List.mem_zipIdx hx
    have hi' : i < t.independents.size := by simpa using hi
    rw [hl]
    simpa using h i hi'
  · obtain ⟨i, hi, rfl⟩ := Array.mem_iff_getElem.mp hloc
    exact ⟨(t.independents[i], i), by simp [List.mem_zipIdx_iff_getElem?], rfl⟩

theorem placeAll_of_not_mem {f : Nat → α} {l : List (Location × Nat)} {loc : Location}
    (h : ∀ x ∈ l, x.1 ≠ loc) (env : Location → α) : placeAll f l env loc = env loc := by
  induction l generalizing env with
  | nil => rfl
  | cons x rest ih =>
    obtain ⟨hfirst, hrest⟩ := List.forall_mem_cons.mp h
    rw [placeAll, ih hrest, Function.update_of_ne fun heq => hfirst heq.symm]

/-- A location that is no independent is blank. -/
theorem Tape.place_of_not_mem {t : Tape F} {loc : Location} (h : loc ∉ t.independents) (blank : α)
    (f : Nat → α) : t.place blank f loc = blank := by
  refine placeAll_of_not_mem (fun x hx heq => h ?_) _
  rw [← heq]
  exact Array.mem_toList_iff.mp (List.fst_mem_of_mem_zipIdx hx)

/-! ## The cells of a sweep -/

/-- What a sweep computes for a location. -/
structure Cell (F : Type) where
  value : F
  /-- One derivative for each direction. -/
  row : Array F

/-- The row of an operand; only a location has one. -/
def Operand.rowOf (env : Location → Cell F) (o : Operand F) : Option (Array F) :=
  o.location?.map fun loc => (env loc).row

variable [Scalar F]

/-- The value of an operand. -/
abbrev Operand.read (v : Location → F) (o : Operand F) : F := o.denote id 0 v

namespace Entry

variable [Elementary F]

/-- The value an entry computes. -/
def value (e : Entry F) (v : Location → F) : F :=
  evalValue e.op (e.lhs.read v) (e.rhs.read v) e.aux

/-- The row an entry computes, from the values `a`, `b` and the rows of its operands. -/
def rowFrom (e : Entry F) (policy : BranchPolicy) (p : Nat) (a b : F)
    (rowA rowB : Option (Array F)) : Array F :=
  if e.op = .abs then absRow policy p e.aux a rowA
  else
    let (da, db) := partials e.op a b (evalValue e.op a b e.aux) e.aux
    combineRows p (rowA.map (da, ·)) (rowB.map (db, ·))

/-- The cell an entry computes. -/
def cell (policy : BranchPolicy) (p : Nat) (e : Entry F) (env : Location → Cell F) : Cell F :=
  let v := Cell.value ∘ env
  { value := e.value v
    row := e.rowFrom policy p (e.lhs.read v) (e.rhs.read v) (e.lhs.rowOf env) (e.rhs.rowOf env) }

end Entry

end DiffTape
