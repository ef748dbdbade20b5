/-
  WHAT EACH ELEMENTARY CHANGE DOES TO THE RECORDER.

  The recorder is seen through `slot?`, `store` and the process mark.  For each elementary change:
  what it does to the part it is meant for, and that every other part stays as it was.
-/
import DiffTape.Recorder.Basic
import Std.Data.TreeMap.Lemmas

namespace DiffTape.Recorder

variable {C : Width → Type}

/-! ## Slots -/

@[simp] theorem slot?_putSlot_self (r : Recorder C) {w : Width} (i : ThreadId)
    (t : Tape (C w)) : (r.putSlot i t).slot? w i = some t := by
  simp [slot?, putSlot]

theorem slot?_putSlot_of_ne (r : Recorder C) {w v : Width} {i j : ThreadId} (t : Tape (C w))
    (h : v ≠ w ∨ j ≠ i) : (r.putSlot i t).slot? v j = r.slot? v j := by
  by_cases hw : v = w
  · subst hw
    have hi : i ≠ j := by simpa [eq_comm] using h
    simp [slot?, putSlot, Std.TreeMap.getElem?_insert, hi]
  · simp [slot?, putSlot, PerWidth.get_modify_of_ne _ _ hw]

@[simp] theorem slot?_modifySlot_self (r : Recorder C) (w : Width) (i : ThreadId)
    (f : Tape (C w) → Tape (C w)) :
    (r.modifySlot w i f).slot? w i = (r.slot? w i).map f := by
  simp [slot?, modifySlot]

theorem slot?_modifySlot_of_ne (r : Recorder C) {w v : Width} {i j : ThreadId}
    (f : Tape (C w) → Tape (C w)) (h : v ≠ w ∨ j ≠ i) :
    (r.modifySlot w i f).slot? v j = r.slot? v j := by
  by_cases hw : v = w
  · subst hw
    have hi : i ≠ j := by simpa [eq_comm] using h
    simp [slot?, modifySlot, Std.TreeMap.getElem?_modify, hi]
  · simp [slot?, modifySlot, PerWidth.get_modify_of_ne _ _ hw]

@[simp] theorem slot?_clearSlot_self (r : Recorder C) (w : Width) (i : ThreadId) :
    (r.clearSlot w i).slot? w i = none := by
  simp [slot?, clearSlot]

theorem slot?_clearSlot_of_ne (r : Recorder C) {w v : Width} {i j : ThreadId}
    (h : v ≠ w ∨ j ≠ i) : (r.clearSlot w i).slot? v j = r.slot? v j := by
  by_cases hw : v = w
  · subst hw
    have hi : i ≠ j := by simpa [eq_comm] using h
    simp [slot?, clearSlot, Std.TreeMap.getElem?_erase, hi]
  · simp [slot?, clearSlot, PerWidth.get_modify_of_ne _ _ hw]

/-! ## Stores -/

@[simp] theorem store_modifyStore_self (r : Recorder C) (w : Width) (name : StoreName)
    (f : Store (C w) → Store (C w)) :
    (r.modifyStore w name f).store w name = f (r.store w name) := by
  simp [store, modifyStore]

theorem store_modifyStore_of_ne (r : Recorder C) {w v : Width} {name other : StoreName}
    (f : Store (C w) → Store (C w)) (h : v ≠ w ∨ other ≠ name) :
    (r.modifyStore w name f).store v other = r.store v other := by
  by_cases hw : v = w
  · subst hw
    have hn : name ≠ other := by simpa [eq_comm] using h
    simp [store, modifyStore, Std.TreeMap.getElem?_insert, hn]
  · simp [store, modifyStore, PerWidth.get_modify_of_ne _ _ hw]

/-! ## Access to the recording tape -/

/-- The recording tape is found exactly if the slot has one of this id and this session. -/
theorem recordingTape_eq_ok_iff (r : Recorder C) {w : Width} {i : ThreadId} {id : TapeId}
    {session : Nat} {t : Tape (C w)} :
    r.recordingTape w i id session = .ok t ↔
      r.slot? w i = some t ∧ t.id = id ∧ t.session = session := by
  unfold recordingTape
  cases r.slot? w i with
  | none => simp
  | some s =>
    by_cases hid : s.id = id
    · by_cases hs : s.session = session
      · simp only [hid, hs, ne_eq, not_true, if_false, Except.ok.injEq, Option.some.injEq]
        constructor
        · rintro rfl
          exact ⟨rfl, hid, hs⟩
        · exact fun h => h.1
      · simp only [hid, hs, ne_eq, not_true, if_false, not_false_eq_true, if_true]
        constructor
        · exact fun h => absurd h (by simp)
        · rintro ⟨h, -, rfl⟩
          exact absurd (by cases h; rfl) hs
    · simp only [hid, ne_eq, not_false_eq_true, if_true]
      constructor
      · exact fun h => absurd h (by simp)
      · rintro ⟨h, rfl, -⟩
        exact absurd (by cases h; rfl) hid

end DiffTape.Recorder
