/-
  THE BUFFERS OF A REPLAY.

  A replay in `p` directions keeps one value per location, and one row of `p` derivatives per
  location.  The rows stand one after the other in a flat array, the row of location `l` at
  `l · p`.

  All access is checked: a read or write beyond a buffer answers `none`.  On a well-formed tape
  this never happens.

  Sizes and offsets are numbers, where a memory has 64-bit words.  Words give the same offsets as
  long as the number of cells of the matrix is a word (`Scratch.exactOffsets_iff`); a matrix of more
  than `Scratch.maxCells` cells cannot be had at all.
-/
import DiffTape.Tape

namespace DiffTape

/-- The values and derivative rows of a replay.  A fresh scratch is empty. -/
structure Scratch (F : Type) where
  /-- The number `p` of directions. -/
  width : Nat := 0
  values : Array F := #[]
  tangents : Array F := #[]
  deriving Repr

/-- The `n` cells from `start` on. -/
def slice? {F : Type} (cells : Array F) (start n : Nat) : Option (Array F) :=
  if start + n ≤ cells.size then some (cells.extract start (start + n)) else none

/-- The cells with those from `start` on replaced by `row`. -/
def overwrite? {F : Type} (cells : Array F) (start : Nat) (row : Array F) : Option (Array F) :=
  if start + row.size ≤ cells.size then
    some (row.size.fold (fun k _ cells => cells.setIfInBounds (start + k) row[k]) cells)
  else
    none

namespace Scratch

variable {F : Type}

/-- Buffers for `n` locations and `p` directions, all zero, whatever they held before. -/
def reset [Scalar F] (s : Scratch F) (n p : Nat) : Scratch F :=
  { s with
    width := p
    values := Array.replicate n 0
    tangents := Array.replicate (n * p) 0 }

/-- The value of a location after the last replay. -/
def value? (s : Scratch F) (loc : Location) : Option F := s.values[loc.toNat]?

/-- The derivative row of a location after the last replay. -/
def directionRow? (s : Scratch F) (loc : Location) : Option (Array F) :=
  slice? s.tangents (loc.toNat * s.width) s.width

/-- Sets the value of a location. -/
def setValue? (s : Scratch F) (loc : Location) (v : F) : Option (Scratch F) :=
  if h : loc.toNat < s.values.size then
    some { s with values := s.values.set loc.toNat v h }
  else
    none

/-- Sets the derivative row of a location. -/
def setRow? (s : Scratch F) (loc : Location) (row : Array F) : Option (Scratch F) :=
  if row.size = s.width then
    (overwrite? s.tangents (loc.toNat * s.width) row).map fun cells => { s with tangents := cells }
  else
    none

end Scratch

end DiffTape
