/-
  NONSMOOTH REPLAY: POLICY AND REPORT.

  `abs` and `signum` record the side of their kink on which the operand was while recording.  A
  replay at other inputs may be on another side.  A `BranchPolicy` says which sign the derivative
  of `abs` has there, and every such entry is listed in the `Report` of the replay.

  Whatever the policy, on the kink itself `abs` propagates the magnitude of each direction: there
  the one-sided derivative in the direction of travel is not negative.
-/
import DiffTape.Tape

namespace DiffTape

/-- How `abs` takes the sign of its derivative away from its kink. -/
inductive BranchPolicy where
  /-- The sign of the recorded branch; of an entry recorded on the kink, the sign as it is now. -/
  | recorded
  /-- The sign of the operand as it is now. -/
  | replay
  deriving DecidableEq, Repr

/-- Without a choice, a replay keeps the recorded branches. -/
instance : Inhabited BranchPolicy := ⟨.recorded⟩

variable {F : Type} [Scalar F]

/-- The sign of the derivative of `abs` at an operand `a` that is not zero. -/
def BranchPolicy.absSign (policy : BranchPolicy) (recorded : Option Branch) (a : F) : F :=
  match policy, recorded with
  | .recorded, some .positive => Branch.positive.sign
  | .recorded, some .negative => Branch.negative.sign
  | _, _ => (Branch.of a).sign

/-- A nonsmooth entry that took another branch than the recorded one. -/
structure BranchSwitch (F : Type) where
  /-- The result of the entry. -/
  location : Location
  op : Opcode
  recorded : Branch
  replayed : Branch
  /-- The operand of the replay: the distance from the kink. -/
  switchingValue : F
  deriving Repr

/-- What a replay tells beside the numbers: the branch switches, in tape order. -/
structure Report (F : Type) where
  switches : Array (BranchSwitch F) := #[]
  deriving Repr

namespace Report

/-- The replay followed the recorded path: no entry left its branch. -/
def isConsistent (r : Report F) : Bool := r.switches.isEmpty

/-- A switch landed exactly on the kink.  A NaN is on no side, but not on the kink. -/
def isKink (s : BranchSwitch F) : Bool := s.replayed = .zero && s.switchingValue == 0

/-- The switches that landed exactly on their kink. -/
def kinks (r : Report F) : Array (BranchSwitch F) := r.switches.filter isKink

end Report

end DiffTape
