/-
  THE SWEEP: ONE PASS OVER THE TAPE.

  A sweep replays the entries of a tape in recording order, at new values of the independents and
  in `p` directions at once.  It is a fold of ONE named step over the entries, so a property that
  a step keeps is kept by the sweep.

  1. SEEDING.  Every independent gets its value and its row of direction components.
  2. A STEP reads the operand values, computes the value of the entry, lists the entry if it left
     its recorded branch, and writes its row `da · row(a) + db · row(b)`.
  3. An operand without a row (a literal, an unused slot) contributes NO TERM.  A term with a zero
     row would not do: the partial of a literal may be infinite, and `∞ · 0` is not zero.
  4. GATHERING.  The values and rows of the dependents are read off.

  The row of an operand is looked up only in the part of the matrix below the row that is being
  written; that and every other access is checked, and `none` is the answer if one fails.
-/
import DiffTape.Replay.Report
import DiffTape.Replay.Scratch

namespace DiffTape

variable {F : Type} [Scalar F]

/-! ## Operands -/

/-- The value of an operand; an unused slot reads as zero. -/
def Operand.value? (s : Scratch F) : Operand F → Option F
  | .location loc => s.value? loc
  | .literal c => some c
  | .unused => some 0

/-- The row of an operand of an entry that writes `result`: `some none` if the operand has none,
    `none` if its row does not lie entirely below that of `result`. -/
def Operand.row? (s : Scratch F) (result : Location) : Operand F → Option (Option (Array F))
  | .location loc =>
    if loc.toNat * s.width + s.width ≤ result.toNat * s.width then
      (s.directionRow? loc).map some
    else
      none
  | _ => some none

/-! ## The row of a result -/

/-- `da · row(a) + db · row(b)` over the operands that have a row. -/
def combineRows (p : Nat) : Option (F × Array F) → Option (F × Array F) → Array F
  | some (da, rowA), some (db, rowB) =>
    Array.zipWith (fun xa xb => da * xa + db * xb) rowA rowB
  | some (d, row), none => row.map (d * ·)
  | none, some (d, row) => row.map (d * ·)
  | none, none => Array.replicate p 0

/-- The row of `abs` at the operand `a`: componentwise magnitudes on the kink, and a signed copy
    away from it. -/
def absRow (policy : BranchPolicy) (p : Nat) (aux : Aux) (a : F) : Option (Array F) → Array F
  | some row =>
    if a == 0 then row.map Scalar.abs
    else combineRows p (some (policy.absSign aux.branch? a, row)) none
  | none => Array.replicate p 0

namespace Entry

variable [Elementary F]

/-- The row of an entry whose operands have the values `a` and `b`, and whose value is `r`. -/
def row? (e : Entry F) (policy : BranchPolicy) (s : Scratch F) (a b r : F) :
    Option (Array F) := do
  let rowA ← e.lhs.row? s e.result
  if e.op = .abs then
    return absRow policy s.width e.aux a rowA
  else
    let rowB ← e.rhs.row? s e.result
    let (da, db) := partials e.op a b r e.aux
    return combineRows s.width (rowA.map (da, ·)) (rowB.map (db, ·))

omit [Elementary F] in
/-- The entry as a branch switch, if the operand `a` is not on its recorded branch. -/
def switch? (e : Entry F) (a : F) : Option (BranchSwitch F) :=
  match e.aux.branch? with
  | some recorded =>
    let replayed := Branch.of a
    if replayed = recorded then none
    else some { location := e.result, op := e.op, recorded, replayed, switchingValue := a }
  | none => none

end Entry

/-! ## The sweep -/

/-- A sweep under way: its buffers and the branch switches so far. -/
structure Sweep (F : Type) where
  scratch : Scratch F
  switches : Array (BranchSwitch F) := #[]

/-- Replays one entry. -/
def Sweep.step [Elementary F] (policy : BranchPolicy) (sweep : Sweep F) (e : Entry F) :
    Option (Sweep F) := do
  let ⟨s, switches⟩ := sweep
  let a ← e.lhs.value? s
  let b ← e.rhs.value? s
  let r := evalValue e.op a b e.aux
  let row ← e.row? policy s a b r
  let s ← s.setValue? e.result r
  let s ← s.setRow? e.result row
  return ⟨s, switches ++ (e.switch? a).toArray⟩

namespace Tape

/-- Gives the `i`-th independent its value `x[i]` and its row `seeds[i]`. -/
def seed? (t : Tape F) (x : Array F) (seeds : Array (Array F)) (s : Scratch F) :
    Option (Scratch F) :=
  t.independents.zipIdx.foldlM (fun s (loc, i) => do
    let s ← s.setValue? loc (← x[i]?)
    s.setRow? loc (← seeds[i]?)) s

/-- Replays the tape at `x` in the `p` directions whose components are the rows of `seeds`. -/
def sweep? [Elementary F] (t : Tape F) (policy : BranchPolicy) (x : Array F) (p : Nat)
    (seeds : Array (Array F)) (s : Scratch F) : Option (Sweep F) := do
  let s ← t.seed? x seeds (s.reset t.values.size p)
  t.entries.foldlM (Sweep.step policy) ⟨s, #[]⟩

/-- The values of the dependents, in the order of their declaration. -/
def dependentValues? (t : Tape F) (s : Scratch F) : Option (Array F) :=
  t.dependents.mapM s.value?

/-- The derivative rows of the dependents, in the order of their declaration. -/
def dependentRows? (t : Tape F) (s : Scratch F) : Option (Array (Array F)) :=
  t.dependents.mapM s.directionRow?

end Tape

end DiffTape
