/-
  THE TWO NUMBER FORMATS.

  Tapes are recorded in one of two formats, 32 or 64 bits wide.  What exists once for each format
  (recording slots, stores) is a `PerWidth`.
-/

namespace DiffTape

/-- The width of a number format. -/
inductive Width where
  /-- 32 bits. -/
  | single
  /-- 64 bits. -/
  | double
  deriving DecidableEq, Repr

/-- One thing for each number format. -/
structure PerWidth (β : Width → Type) where
  single : β .single
  double : β .double

namespace PerWidth

variable {β : Width → Type}

/-- The thing for a format. -/
def get (p : PerWidth β) : (w : Width) → β w
  | .single => p.single
  | .double => p.double

/-- Changes the thing for one format. -/
def modify (p : PerWidth β) (w : Width) (f : β w → β w) : PerWidth β :=
  match w, f with
  | .single, f => { p with single := f p.single }
  | .double, f => { p with double := f p.double }

@[simp] theorem get_modify_self (p : PerWidth β) (w : Width) (f : β w → β w) :
    (p.modify w f).get w = f (p.get w) := by
  cases w <;> rfl

theorem get_modify_of_ne (p : PerWidth β) {w v : Width} (f : β w → β w) (h : v ≠ w) :
    (p.modify w f).get v = p.get v := by
  cases w <;> cases v <;> simp_all [get, modify]

end PerWidth

end DiffTape
