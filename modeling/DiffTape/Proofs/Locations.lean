/-
  HOW MANY LOCATIONS THERE ARE.

  Locations are 32-bit words, drawn from the count of values, and the greatest word is reserved: a
  handle that is placed there is a constant.  The count itself is not bounded, and it is cut to a
  word without a check.

  So the locations of a tape are fresh, and no handle that is recorded is a constant, for the first
  `2 ^ 32 - 1` values.  The next handle has the reserved location: what it shows is on the tape, but
  the handle is a constant, and everything that is computed from it has no derivative.  After that
  the locations begin again at zero, where there is a value already.

  That these lengths are reached is an induction over the number of calls (`exists_run_of_size`);
  no run of such length can be carried out.
-/
import DiffTape.Proofs.Provenance
import DiffTape.Proofs.WholeSession

namespace DiffTape

variable {C : Width → Type} {w : Width} {i : ThreadId}

/-! ## The location of a handle -/

/-- A handle that is placed is a constant exactly if the location is the reserved one. -/
theorem Handle.mark_place_eq_none_iff {F : Type} {v : F} {loc : Location} {tape : TapeId}
    {session : Nat} : (place v loc tape session).mark = none ↔ loc = reservedLocation := by
  unfold place
  by_cases hloc : loc = reservedLocation
  · rw [if_pos hloc]
    exact ⟨fun _ => hloc, fun _ => rfl⟩
  · rw [if_neg hloc]
    exact ⟨fun h => (nomatch h), fun h => absurd h hloc⟩

/-- The next location is the count of values, cut to a word. -/
theorem Tape.toNat_nextLocation_eq_mod {F : Type} (t : Tape F) :
    t.nextLocation.toNat = t.values.size % UInt32.size := by
  unfold nextLocation
  rw [Nat.toUInt32_eq, UInt32.toNat_ofNat']

/-- The next location is the reserved one each time the words run out. -/
theorem Tape.nextLocation_eq_reserved_iff {F : Type} (t : Tape F) :
    t.nextLocation = Handle.reservedLocation ↔
      t.values.size % UInt32.size = UInt32.size - 1 := by
  rw [← UInt32.toNat_inj, t.toNat_nextLocation_eq_mod]
  rfl

/-- The next location is above all values exactly as long as the count is not cut. -/
theorem Tape.le_nextLocation_iff {F : Type} (t : Tape F) :
    t.values.size ≤ t.nextLocation.toNat ↔ t.values.size < UInt32.size := by
  rw [t.toNat_nextLocation_eq_mod]
  constructor
  · intro hle
    exact Nat.lt_of_le_of_lt hle (Nat.mod_lt _ (by decide))
  · intro hlt
    exact Nat.le_of_eq (Nat.mod_eq_of_lt hlt).symm

/-- The call asks for a location: it binds an independent, or applies an operation to a handle that
    is not a constant. -/
def Call.AsksForLocation (call : Call C w) : Prop :=
  (∃ s v, call = .independent s v) ∨ ∃ x ∈ call.operands, x.mark ≠ none

namespace World

variable [∀ w, Scalar (C w)] [∀ w, Elementary (C w)] {W : World C} {past : List (Turn C)}

/-- What such a call answers is placed at the next location of the tape in the slot. -/
theorem place_of_asksForLocation {call : Call C w} (hasks : call.AsksForLocation)
    {answer : Option (Handle (C w))} (hok : W.outcome i call = .ok answer) :
    ∃ (t : Tape (C w)) (u : C w), W.recorder.slot? w i = some t ∧
      answer = some (.place u t.nextLocation t.id t.session) := by
  rcases hasks with ⟨s, v, rfl⟩ | ⟨x, hx, hmark⟩
  · have houtcome : W.outcome i (.independent s v) =
        ((s.independent v).exec i W.recorder).1.map some := rfl
    rw [houtcome] at hok
    rcases s.independent_cases (i := i) v W.recorder with ⟨e, h⟩ | ⟨t, hslot, -, -, h⟩
    · rw [h] at hok
      cases hok
    · rw [h] at hok
      exact ⟨t, v, hslot, (Except.ok.inj hok).symm⟩
  · rcases W.outcomes_of_operation i (List.ne_nil_of_mem hx) with
      ⟨v, h, -⟩ | ⟨u, -, hnone⟩ | ⟨t, u, hslot, -, -, h⟩
    · rw [h] at hok
      cases hok
    · exact absurd (hnone x hx) hmark
    · rw [h] at hok
      exact ⟨t, u, hslot, (Except.ok.inj hok).symm⟩

/-! ## Tapes of every length -/

/-- Binding an independent makes the tape longer by one value, and answers a handle of it. -/
theorem perform_independent {s : Session w} {t : Tape (C w)}
    (hslot : W.recorder.slot? w i = some t) (hid : t.id = s.id) (hserial : t.session = s.serial)
    (v : C w) :
    W.outcome i (.independent s v) = .ok (some (.place v t.nextLocation t.id t.session)) ∧
      (W.perform i (.independent s v)).recorder.slot? w i = some (t.appendIndependent v) ∧
      (W.perform i (.independent s v)).sessions = W.sessions ∧
      .place v t.nextLocation t.id t.session ∈
        (W.perform i (.independent s v)).handles.get w := by
  obtain ⟨r, hexec, hslot'⟩ := Session.independent_yields hid hserial v W.recorder hslot
  have hperform : W.perform i (.independent s v) =
      gain (.place v t.nextLocation t.id t.session) { W with recorder := r } := after_of_ok hexec
  refine ⟨congrArg (fun answer => answer.1.map some) hexec, ?_⟩
  rw [hperform]
  refine ⟨hslot', rfl, ?_⟩
  show _ ∈ (W.handles.modify w (.place v t.nextLocation t.id t.session :: ·)).get w
  rw [PerWidth.get_modify_self]
  exact List.mem_cons_self

/-- A tape of any length is recorded, whose first value is that of an independent. -/
theorem exists_run_of_size (n : Nat) :
    ∃ (past : List (Turn Width.Number)) (W : World Width.Number)
      (t : Tape (Width.Number .single)), ({} : World Width.Number).Run False past W ∧
      (0, (⟨"s", 1, 1⟩ : Session .single)) ∈ W.sessions.get .single ∧
      W.recorder.slot? .single 0 = some t ∧ t.id = 1 ∧ t.session = 1 ∧ t.values.size = n + 1 ∧
      .place (0 : Float32) 0 1 1 ∈ W.handles.get .single := by
  let s : Session .single := ⟨"s", 1, 1⟩
  induction n with
  | zero =>
    let W₁ := ({} : World Width.Number).perform 0 (.begin "s" 1 0 : Call _ .single)
    let W := W₁.perform 0 (.independent s (0 : Float32))
    have h₁ : ({} : World Width.Number).Run False _ W₁ := .call trivial id
    have h : ({} : World Width.Number).Run False _ W := h₁.step 0 _ List.mem_cons_self id
    exact ⟨_, W, ⟨1, 1, #[], #[0], #[0], #[]⟩, h, List.mem_cons_self, rfl, rfl, rfl, rfl,
      List.mem_cons_self⟩
  | succ n ih =>
    obtain ⟨past, W, t, h, hs, hslot, hid, hserial, hsize, hx⟩ := ih
    obtain ⟨-, hslot', hsessions, -⟩ :=
      perform_independent (s := s) hslot hid hserial (0 : Float32)
    refine ⟨_, _, _, h.step 0 (.independent s (0 : Float32)) hs id, ?_, hslot', hid, hserial, ?_,
      handles_perform W 0 _ hx⟩
    · rw [hsessions]
      exact hs
    · show (t.values.push 0).size = n + 1 + 1
      rw [Array.size_push, hsize]

end World

variable [∀ w, Scalar (C w)] [∀ w, Elementary (C w)]

/-- What binds an independent, or applies an operation to a handle that is not a constant, answers a
    handle at the count of values of the tape, cut to a word.  It is a constant exactly if that is
    the reserved word, and its location is beyond all values of the tape exactly if it was not cut.
    So on the first `2 ^ 32 - 1` values of a tape no such handle is a constant, and none has the
    location of another handle of its session. -/
theorem locations_fresh_until_cut {past : List (Turn C)} {W : World C}
    (h : ({} : World C).Run False past W) {call : Call C w} (hasks : call.AsksForLocation)
    {answer : Option (Handle (C w))} (hok : W.outcome i call = .ok answer) :
    ∃ (t : Tape (C w)) (y : Handle (C w)), W.recorder.slot? w i = some t ∧ answer = some y ∧
      (y.mark = none ↔ t.values.size % UInt32.size = UInt32.size - 1) ∧
      (∀ m, y.mark = some m → m.tape = t.id ∧ m.session = t.session ∧
        m.loc.toNat = t.values.size % UInt32.size ∧
        (t.values.size ≤ m.loc.toNat ↔ t.values.size < UInt32.size)) ∧
      (t.values.size < UInt32.size - 1 → y.mark ≠ none ∧
        ∀ m, y.mark = some m → ∀ x ∈ W.handles.get w, ∀ m', x.mark = some m' →
          m'.session = t.session → m'.loc ≠ m.loc) := by
  obtain ⟨t, u, hslot, hanswer⟩ := World.place_of_asksForLocation hasks hok
  refine ⟨t, .place u t.nextLocation t.id t.session, hslot, hanswer, ?_, fun m hm => ?_,
    fun hsize => ⟨fun hnone => ?_, fun m hm x hx m' hm' hsession heq => ?_⟩⟩
  · rw [Handle.mark_place_eq_none_iff, t.nextLocation_eq_reserved_iff]
  · rw [(Handle.mark_place hm).1]
    exact ⟨rfl, rfl, t.toNat_nextLocation_eq_mod, t.le_nextLocation_iff⟩
  · rw [Handle.mark_place_eq_none_iff, t.nextLocation_eq_reserved_iff,
      Nat.mod_eq_of_lt (by omega)] at hnone
    omega
  · have hlt := h.loc_lt_next hslot (Nat.le_of_lt hsize) hx hm' hsession
    rw [heq, (Handle.mark_place hm).1] at hlt
    exact UInt32.lt_irrefl _ hlt

/-- The second independent of a session, which is not at the location of the first. -/
theorem locations_fresh_until_cut_of_second :
    ∃ (past : List (Turn Width.Number)) (W : World Width.Number) (s : Session .double)
      (x y : Handle (Width.Number .double)), ({} : World Width.Number).Run False past W ∧
      W.outcome 0 (.independent s (6 : Float)) = .ok (some y) ∧ x ∈ W.handles.get .double ∧
      x.mark = some ⟨0, 7, 1⟩ ∧ y.mark ≠ none ∧ ∀ m, y.mark = some m → 0 ≠ m.loc := by
  let s : Session .double := ⟨"a", 7, 1⟩
  let x : Handle (Width.Number .double) := ⟨(5 : Float), some ⟨0, 7, 1⟩⟩
  let y : Handle (Width.Number .double) := ⟨(6 : Float), some ⟨1, 7, 1⟩⟩
  let W₁ := ({} : World Width.Number).perform 0 (.begin "a" 7 0 : Call _ .double)
  let W := W₁.perform 0 (.independent s (5 : Float))
  have h₁ : ({} : World Width.Number).Run False _ W₁ := .call trivial id
  have h : ({} : World Width.Number).Run False _ W := h₁.step 0 _ List.mem_cons_self id
  have hok : W.outcome 0 (.independent s (6 : Float)) = .ok (some y) := rfl
  have hhandles : W.handles.get .double = [x] := rfl
  have hx : x ∈ W.handles.get .double := hhandles ▸ List.mem_singleton_self x
  have hslot : W.recorder.slot? .double 0 = some (⟨7, 1, #[], #[5], #[0], #[]⟩ : Tape Float) := rfl
  obtain ⟨t, y', ht, hy', -, -, hfresh⟩ := locations_fresh_until_cut h (Or.inl ⟨s, _, rfl⟩) hok
  rw [hslot] at ht
  cases ht
  cases hy'
  obtain ⟨hmark, hne⟩ := hfresh (by decide)
  exact ⟨_, W, s, x, y, h, hok, hx, rfl, hmark, fun m hm => hne m hm x hx ⟨0, 7, 1⟩ rfl rfl⟩

/-- After `2 ^ 32 - 1` values, binding an independent answers a constant, and so does an operation
    on a handle that is not a constant.  After `2 ^ 32` values, binding an independent answers a
    handle at the location of another. -/
theorem locations_run_out :
    (∃ (past : List (Turn Width.Number)) (W : World Width.Number) (s : Session .single)
      (x y z : Handle (Width.Number .single)), ({} : World Width.Number).Run False past W ∧
      (0, s) ∈ W.sessions.get .single ∧ x ∈ W.handles.get .single ∧ x.isConstant = false ∧
      W.outcome 0 (.independent s (0 : Float32)) = .ok (some y) ∧ y.isConstant = true ∧
      W.outcome 0 (.apply .neg x) = .ok (some z) ∧ z.isConstant = true) ∧
    ∃ (past : List (Turn Width.Number)) (W : World Width.Number) (s : Session .single)
      (x y : Handle (Width.Number .single)), ({} : World Width.Number).Run False past W ∧
      (0, s) ∈ W.sessions.get .single ∧ x ∈ W.handles.get .single ∧ x.isConstant = false ∧
      W.outcome 0 (.independent s (0 : Float32)) = .ok (some y) ∧ y.mark = x.mark := by
  let s : Session .single := ⟨"s", 1, 1⟩
  let x : Handle (Width.Number .single) := .place (0 : Float32) 0 1 1
  have hx : x.isConstant = false := rfl
  constructor
  · obtain ⟨past, W, t, h, hs, hslot, hid, hserial, hsize, hmem⟩ :=
      World.exists_run_of_size (UInt32.size - 2)
    have hreserved : t.nextLocation = Handle.reservedLocation := by
      rw [t.nextLocation_eq_reserved_iff, hsize]
      rfl
    have hconstant : ∀ u : Float32,
        (Handle.place u t.nextLocation t.id t.session).isConstant = true := by
      intro u
      unfold Handle.isConstant
      rw [Handle.mark_place_eq_none_iff.mpr hreserved]
      rfl
    -- the operand is the first value of the tape, far below the reserved location
    have hon : x.On t := by
      rintro m ⟨⟩
      refine ⟨hid.symm, hserial.symm, ?_⟩
      rw [hreserved]
      decide
    obtain ⟨r, hexec, -⟩ := Handle.recordUnary_yields (i := 0) UnaryOp.neg.opcode
      (UnaryOp.neg.aux x.value) hon (Option.some_ne_none _) W.recorder hslot
    exact ⟨past, W, s, x, _, _, h, hs, hmem, hx,
      (World.perform_independent (s := s) hslot hid hserial (0 : Float32)).1, hconstant 0,
      congrArg (fun answer => answer.1.map some) hexec, hconstant _⟩
  · obtain ⟨past, W, t, h, hs, hslot, hid, hserial, hsize, hmem⟩ :=
      World.exists_run_of_size (UInt32.size - 1)
    have hzero : t.nextLocation = 0 := by
      rw [← UInt32.toNat_inj, t.toNat_nextLocation_eq_mod, hsize]
      rfl
    refine ⟨past, W, s, x, _, h, hs, hmem, hx,
      (World.perform_independent (s := s) hslot hid hserial (0 : Float32)).1, ?_⟩
    rw [hzero, hid, hserial]

end DiffTape
