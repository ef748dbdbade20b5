/-
  THE CHAIN RULE, BIT FOR BIT.

  Record `f` at `x₀`, record `g` at what came out, and record `g` applied to the handles that `f`
  answers.  The last tape does at every input what the first two do one after the other: it has the
  same values, the same derivatives and the same branch switches, without an error of rounding.

  1. EVALUATION.  `Tape.Composes`: a tape goes on, after the entries of `tf`, with the entries of
     `tg` under other names, and has the outputs of `tf` where `tg` has its independents.  The pass
     over it is then the pass over `tf` followed by that over `tg` (`Composes.cells`).  Nothing is
     asked of the order or the number of the outputs: one handle may be answered twice, and an
     input may be an output.
  2. RECORDING.  The tape of `g` after `f` composes the tapes of `f` and `g`
     (`Routine.tape_composes`), as the second recording is the first one moved.
  3. Both together, with the calls around them: `tapes_compose`.
-/
import DiffTape.Proofs.Relocation
import DiffTape.Scalar.Binary

namespace DiffTape

variable {F : Type} {n k m : Nat}

/-! ## Evaluating a composed tape -/

/-- `t` is `tg` after `tf`, where `ρ` says what the locations of `tg` are called on `t`. -/
structure Tape.Composes (ρ : Location → Location) (tf tg t : Tape F) : Prop where
  entries : t.entries = tf.entries ++ tg.entries.map (Entry.rename ρ)
  independents : t.independents = tf.independents
  dependents : t.dependents = tg.dependents.map ρ
  joined : tf.dependents = tg.independents.map ρ
  fresh : ∀ loc, loc ∉ tg.independents →
    ρ loc ∉ tf.independents ∧ ∀ e ∈ tf.entries, e.result ≠ ρ loc
  apart : ResultsApart ρ tg.entries.toList

namespace Tape.Composes

variable [Scalar F] [Elementary F] {ρ : Location → Location} {tf tg t : Tape F} {x : Array F}
  {p : Nat} {xd : Array (Array F)}

/-- Where `tg` begins at the outputs of `tf`, it has the cells that `tf` has left. -/
theorem startCells (h : tf.Composes ρ tg t) (policy : BranchPolicy) (x : Array F) (p : Nat)
    (xd : Array (Array F)) :
    tg.startCells (tf.dependents.map (tf.valuesAt x)) p
        (tf.dependents.map fun loc => (tf.cells policy x p xd loc).row) =
      tf.cells policy x p xd ∘ ρ := by
  funext loc
  by_cases hloc : loc ∈ tg.independents
  · -- an independent is placed last where it stands, and there it is an output of `tf`
    refine Tape.place_eq (g := tf.cells policy x p xd ∘ ρ) (fun i hi => ?_) hloc
    have hi' : tf.dependents[i]? = some (ρ tg.independents[i]) := by
      rw [h.joined, Array.getElem?_map, Array.getElem?_eq_getElem hi, Option.map_some]
    rw [Array.getElem?_map, Array.getElem?_map, hi', ← tf.value_cells policy x p xd]
    rfl
  · -- any other location is blank, and `tf` has left it so
    obtain ⟨hind, hres⟩ := h.fresh loc hloc
    have hblank : tf.cells policy x p xd (ρ loc) = ⟨0, Array.replicate p 0⟩ := by
      unfold Tape.cells Tape.startCells
      rw [pass_of_not_result fun e he => hres e (Array.mem_toList_iff.mp he),
        Tape.place_of_not_mem hind]
    rw [Function.comp_apply, hblank]
    exact Tape.place_of_not_mem hloc _ _

/-- The pass over the composed tape, seen through the renaming, is that of `tg` at the outputs of
    `tf`. -/
theorem cells (h : tf.Composes ρ tg t) (policy : BranchPolicy) (x : Array F) (p : Nat)
    (xd : Array (Array F)) :
    t.cells policy x p xd ∘ ρ =
      tg.cells policy (tf.dependents.map (tf.valuesAt x)) p
        (tf.dependents.map fun loc => (tf.cells policy x p xd loc).row) := by
  have hstart : t.startCells x p xd = tf.startCells x p xd := by
    unfold Tape.startCells Tape.place
    rw [h.independents]
  -- the entries of `tf` come first; those after them are entries of `tg` under other names
  calc t.cells policy x p xd ∘ ρ
      = pass (Entry.cell policy p) (tg.entries.toList.map (Entry.rename ρ))
          (tf.cells policy x p xd) ∘ ρ := by
        show pass _ t.entries.toList (t.startCells x p xd) ∘ ρ = _
        rw [h.entries, Array.toList_append, Array.toList_map, pass_append, hstart]
        rfl
    _ = pass (Entry.cell policy p) tg.entries.toList (tf.cells policy x p xd ∘ ρ) :=
        pass_rename (Entry.cell_rename policy p) h.apart _
    _ = _ := by
        rw [← h.startCells]
        rfl

/-- The values are a part of the cells, whatever the directions are. -/
theorem valuesAt (h : tf.Composes ρ tg t) :
    t.valuesAt x ∘ ρ = tg.valuesAt (tf.dependents.map (tf.valuesAt x)) := by
  have hcells := h.cells .replay x 0 #[]
  rw [← t.value_cells .replay x 0 #[], Function.comp_assoc, hcells, tg.value_cells]

/-- The branches that are left are those of `tf`, and then those of `tg` under their other names. -/
theorem switchesAt (h : tf.Composes ρ tg t) :
    t.switchesAt x = tf.switchesAt x ++
      (tg.switchesAt (tf.dependents.map (tf.valuesAt x))).map (BranchSwitch.rename ρ) := by
  have hstart : t.startValues x = tf.startValues x := by
    unfold Tape.startValues Tape.place
    rw [h.independents]
  have hcells := h.startCells .replay x 0 #[]
  -- the second part of the entries is reached with the values with which `tg` starts
  have hmid : tf.valuesAt x ∘ ρ = tg.startValues (tf.dependents.map (tf.valuesAt x)) := by
    rw [← tf.value_cells .replay x 0 #[], Function.comp_assoc, ← hcells,
      tg.value_startCells, tf.value_cells]
  have hfirst : pass Entry.value tf.entries.toList (tf.startValues x) = tf.valuesAt x := rfl
  unfold Tape.switchesAt
  rw [h.entries, Array.toList_append, Array.toList_map, switchesFrom_append, hstart, hfirst,
    switchesFrom_rename h.apart, hmid, ← List.append_toArray, ← List.map_toArray]

/-- Evaluating the composed tape is evaluating `tf`, and then `tg` at what came out. -/
theorem forwardWithScratch (h : tf.Composes ρ tg t) (htf : tf.Replayable) (htg : tg.Replayable)
    (ht : t.Replayable) (policy : BranchPolicy) (hx : x.size = tf.independents.size)
    (hxd : IsMatrix xd tf.independents.size p) {outf outg out : Outputs F}
    (hyf : outf.y.size = tf.dependents.size) (hydf : IsMatrix outf.yd tf.dependents.size p)
    (hyg : outg.y.size = tg.dependents.size) (hydg : IsMatrix outg.yd tg.dependents.size p)
    (hy : out.y.size = tg.dependents.size) (hyd : IsMatrix out.yd tg.dependents.size p)
    (sf sg s : Scratch F) :
    let first := tf.forwardWithScratch policy p x xd outf sf
    let second := tg.forwardWithScratch policy p first.buffers.1.y first.buffers.1.yd outg sg
    let whole := t.forwardWithScratch policy p x xd out s
    ∃ switchesf switchesg, first.answer = .ok { switches := switchesf } ∧
      second.answer = .ok { switches := switchesg } ∧
      whole.answer = .ok { switches := switchesf ++ switchesg.map (BranchSwitch.rename ρ) } ∧
      (∀ b ∈ switchesg, ∃ e ∈ tg.entries, b.location = e.result) ∧
      whole.buffers.1 = second.buffers.1 := by
  intro first second whole
  have hjoined : tf.dependents.size = tg.independents.size := by
    rw [h.joined, Array.size_map]
  have hdep : tg.dependents.size = t.dependents.size := by
    rw [h.dependents, Array.size_map]
  rw [hdep] at hy hyd
  obtain ⟨sf', hsf, hanswerf, hbuffersf⟩ :=
    Tape.forwardWithScratch_eq htf policy hx hxd hyf hydf sf
  rw [← h.independents] at hx hxd
  obtain ⟨s', -, hanswer, hbuffers⟩ := Tape.forwardWithScratch_eq ht policy hx hxd hy hyd s
  -- what comes out of `tf` has the shape of the independents of `tg`
  have hout : first.buffers.1.y = tf.dependents.map (tf.valuesAt x) ∧ first.buffers.1.yd =
      tf.dependents.map fun loc => (tf.cells policy x p xd loc).row := by
    show (tf.forwardWithScratch policy p x xd outf sf).buffers.1.y = _ ∧ _
    exact ⟨by rw [hbuffersf], by rw [hbuffersf]⟩
  have hxg : (tf.dependents.map (tf.valuesAt x)).size = tg.independents.size := by
    rw [Array.size_map, hjoined]
  have hxdg : IsMatrix (tf.dependents.map fun loc => (tf.cells policy x p xd loc).row)
      tg.independents.size p := by
    refine ⟨by rw [Array.size_map, hjoined], fun row hrow => ?_⟩
    obtain ⟨loc, hloc, rfl⟩ := Array.mem_map.mp hrow
    exact hsf.size_row (htf.dependents_lt loc hloc)
  obtain ⟨sg', -, hanswerg, hbuffersg⟩ :=
    Tape.forwardWithScratch_eq htg policy hxg hxdg hyg hydg sg
  rw [← hout.1, ← hout.2] at hanswerg hbuffersg
  refine ⟨_, _, hanswerf, hanswerg, ?_, fun b hb => ?_, ?_⟩
  · rw [hout.1, ← h.switchesAt]
    exact hanswer
  · obtain ⟨e, he, hloc⟩ := location_of_mem_switchesFrom (List.mem_toArray.mp hb)
    exact ⟨e, Array.mem_toList_iff.mp he, hloc⟩
  · -- the outputs are read off under their other names
    have hval := h.valuesAt (x := x)
    have hcells := h.cells policy x p xd
    rw [← hout.1] at hval hcells
    rw [← hout.2] at hcells
    show (t.forwardWithScratch policy p x xd out s).buffers.1 =
      (tg.forwardWithScratch policy p first.buffers.1.y first.buffers.1.yd outg sg).buffers.1
    rw [hbuffers, hbuffersg, h.dependents, Array.map_map, Array.map_map, ← hval, ← hcells]
    rfl

end Tape.Composes

/-! ## Recording a composed tape -/

/-- What is not among the first `k` locations is above them. -/
theorem le_of_not_mem_range {loc : Location} (h : loc ∉ (Array.range k).map Nat.toUInt32) :
    k ≤ loc.toNat := by
  by_contra hlow
  refine h ?_
  rw [Array.mem_map]
  exact ⟨loc.toNat, Array.mem_range.mpr (Nat.lt_of_not_le hlow), UInt32.ofNat_toNat⟩

/-- A recording that goes on after `A`, on the handles of `A`, composes the tape of `A` with the
    same recording on a fresh tape. -/
theorem Tape.Moved.composes [Scalar F] [Elementary F] {A : Trace F k} (hA : A.Sound)
    (hconstant : ∀ j, A.constants j = false) (hdep : A.tape.dependents = #[]) {tg t : Tape F}
    (hrec : tg.Recorded) (hfaithful : tg.Faithful)
    (hind : tg.independents = (Array.range k).map Nat.toUInt32)
    (hind' : t.independents = A.tape.independents)
    {stop target : Nat} {hstop : stop ≤ Handle.reservedLocation.toNat}
    {htarget : stop - k + target ≤ Handle.reservedLocation.toNat} (hsize : tg.values.size = stop)
    (hsize' : A.tape.values.size = target)
    (h : tg.Moved (.onto A.location stop target hstop htarget) A.tape.entries t) :
    A.finish.Composes (Relocation.onto A.location stop target hstop htarget).map tg t := by
  subst hsize hsize'
  -- the handles of `A` are below what is recorded after it, and so are all entries of `A`
  have hlt : ∀ j, (A.location j).toNat < A.tape.values.size := by
    intro j
    obtain ⟨mark, hmark, hloc, -⟩ := Trace.mark_location (hconstant j)
    obtain ⟨-, -, hbelow⟩ := hA.on j mark hmark
    rw [← hloc]
    exact Nat.lt_of_lt_of_le (UInt32.lt_iff_toNat_lt.mp hbelow) A.tape.nextLocation_le
  have hle : ∀ loc, loc ∉ tg.independents → k ≤ loc.toNat := by
    intro loc hloc
    rw [hind] at hloc
    exact le_of_not_mem_range hloc
  rw [Trace.finish_eq hconstant]
  refine ⟨h.entries, hind', h.dependents, ?_, fun loc hloc => ⟨fun hmem => ?_, fun e he heq => ?_⟩,
    fun e he loc hloc => ?_⟩
  · -- the independents of the fresh tape are its first locations
    show A.tape.dependents ++ Array.ofFn A.location = _
    rw [hdep, Array.empty_append, hind, Array.map_map]
    refine Array.ext ?_ fun j hj hj' => ?_
    · rw [Array.size_ofFn, Array.size_map, Array.size_range]
    · have hk : k < UInt32.size :=
        Nat.lt_of_le_of_lt (Nat.le_trans h.start_le hstop) Tape.reserved_lt
      rw [Array.size_ofFn] at hj
      rw [Array.getElem_ofFn, Array.getElem_map, Array.getElem_range]
      exact (Relocation.onto_outs hk ⟨j, hj⟩).symm
  -- what is no independent of the fresh tape is moved above all of `A`
  · have hlow := hA.recorded.independents_lt _ hmem
    exact absurd (Relocation.le_onto (hle loc hloc)) (Nat.not_le_of_lt hlow)
  · have hlow := hA.recorded.result_lt e he
    rw [heq] at hlow
    exact absurd (Relocation.le_onto (hle loc hloc)) (Nat.not_le_of_lt hlow)
  -- and two results that differ stay apart
  · have he' := Array.mem_toList_iff.mp he
    exact Relocation.onto_apart hlt (hle _ (hfaithful.results_fresh e he')) (hrec.result_lt e he')
      hloc

namespace Routine

section Compose

variable [Scalar F] [Elementary F] {f : Routine F k n} {g : Routine F m k} {x : Fin n → F}
  (hconstant : ∀ j, f.constants x j = false)
  (hf : f.locations x ≤ Handle.reservedLocation.toNat)
  (hg : g.locations (f.outputs x) ≤ Handle.reservedLocation.toNat)
include hconstant hf

/-- What `f` answers is no constant, so each answer is at a location. -/
theorem constants_trace_eq_false (id : TapeId) (serial : Nat) (j : Fin k) :
    (f.trace (.start id serial x)).constants j = false := by
  rw [constants_trace hf]
  exact hconstant j

/-- Without constants among the outputs, marking them uses no location. -/
theorem size_trace_eq (id : TapeId) (serial : Nat) :
    (f.trace (.start id serial x)).tape.values.size = f.locations x := by
  have hfinish := Trace.finish_eq (constants_trace_eq_false hconstant hf id serial)
  rw [← size_tape hf id serial]
  unfold tape
  rw [hfinish]

variable {stop : Nat} (hstop : stop ≤ Handle.reservedLocation.toNat)
  (htarget : stop - k + f.locations x ≤ Handle.reservedLocation.toNat)

/-- The handles that `f` answers are those of fresh independents, moved. -/
theorem moved_after (hk : k ≤ stop) (idf idg idh : TapeId) (serialf serialg serialh : Nat) :
    (Trace.start idg serialg (f.outputs x)).Moved
      (.onto (f.trace (.start idf serialf x)).location stop (f.locations x) hstop htarget)
      (f.trace (.start idf serialf x)).tape.entries (f.trace (.start idh serialh x)) := by
  have hmoved := (Trace.moved_start idf idh serialf serialh x (Nat.le_refl _)).trace f (by
    rw [size_trace_eq hconstant hf]
    exact hf)
  have hsize : (Trace.start idg serialg (f.outputs x)).tape.values.size = k := Array.size_ofFn
  have hid : Entry.rename (F := F) id = id := funext Entry.rename_id
  constructor
  -- the fresh tape has no entry yet, so all entries are those of `f`, at the same locations
  · constructor
    · show _ = _ ++ Array.map _ #[]
      rw [hmoved.tape.entries, Array.map_empty, Array.append_empty, Array.empty_append]
      show Array.map (Entry.rename id) _ = _
      rw [hid, Array.map_id]
    · show _ = Array.map _ #[]
      rw [Array.map_empty]
      exact f.dependents_trace _
    · exact Nat.le_of_eq hsize.symm
    · show (f.trace _).tape.values.size = (Trace.start _ _ _).tape.values.size - k + f.locations x
      rw [hsize, size_trace_eq hconstant hf]
      omega
  -- the inputs of `g` were bound to the values that `f` answers
  · intro j
    rw [value_trace hf]
    exact (Handle.value_place ..).symm
  -- and the `j`-th of them is the `j`-th location, which is moved to that of the `j`-th answer
  · intro j
    have hlt : j.val < Handle.reservedLocation.toNat :=
      Nat.lt_of_lt_of_le j.isLt (Nat.le_trans hk hstop)
    have hreserved : j.val.toUInt32 ≠ Handle.reservedLocation := by
      intro heq
      have hnat := congrArg UInt32.toNat heq
      rw [Nat.toUInt32_eq, UInt32.toNat_ofNat_of_lt' (Nat.lt_trans hlt Tape.reserved_lt)] at hnat
      omega
    have hplace : ((Trace.start idg serialg (f.outputs x)).handles j).operand =
        .location j.val.toUInt32 := by
      show (Handle.place _ _ _ _).operand = _
      rw [Handle.place_eq hreserved]
      rfl
    obtain ⟨mark, -, -, hoperand⟩ :=
      Trace.mark_location (constants_trace_eq_false hconstant hf idf serialf j)
    rw [hmoved.operands, hoperand, hplace]
    show Operand.location _ = Operand.location _
    rw [Relocation.onto_outs (Nat.lt_of_le_of_lt (Nat.le_trans hk hstop) Tape.reserved_lt)]
    rfl

/-- The tape of `g` after `f` composes their tapes, and answers what `g` answers at the outputs of
    `f`. -/
theorem tape_composes (hg : g.locations (f.outputs x) ≤ Handle.reservedLocation.toNat)
    (hfit : g.locations (f.outputs x) - k + f.locations x ≤ Handle.reservedLocation.toNat)
    (idf idg idh : TapeId) (serialf serialg serialh : Nat) :
    ∃ ρ : Location → Location,
      (f.tape idf serialf x).Composes ρ (g.tape idg serialg (f.outputs x))
        (g.trace (f.trace (.start idh serialh x))).finish ∧
      (∀ e ∈ (g.tape idg serialg (f.outputs x)).entries,
        ρ e.result = (e.result.toNat - k + (f.tape idf serialf x).values.size).toUInt32) ∧
      (g.trace (f.trace (.start idh serialh x))).finish.values.size =
        g.locations (f.outputs x) - k + f.locations x ∧
      ∀ j, ((g.trace (f.trace (.start idh serialh x))).handles j).value =
        g.outputs (f.outputs x) j := by
  have hk : k ≤ g.locations (f.outputs x) := g.inputs_le_size_tape 0 0 _
  have hsize := size_tape hg idg serialg
  have hle := g.size_trace_le_tape idg serialg (f.outputs x)
  rw [hsize] at hle
  -- the same code on both sides: on the fresh tape, and after `f`
  have hmoved := (moved_after hconstant hf hg hfit hk idf idg idh serialf serialg serialh).trace g
    hle
  have htape := (hmoved.marked (Nat.le_refl m) (Nat.le_of_eq hsize)).tape
  have hsizef := (size_tape hf idf serialf).trans_le hf
  have hsizeg := hsize.trans_le hg
  obtain ⟨hrec, hfaithful⟩ := tape_sound hsizeg
  have hdep : (f.trace (.start idf serialf x)).tape.dependents = #[] :=
    f.dependents_trace _
  have hind : (g.trace (f.trace (.start idh serialh x))).finish.independents =
      (f.trace (.start idf serialf x)).tape.independents := by
    unfold Trace.finish
    rw [Trace.independents_marked, independents_trace, independents_trace, independents_trace]
    rfl
  have hcomposes := htape.composes (sound hsizef)
    (constants_trace_eq_false hconstant hf idf serialf) hdep hrec hfaithful
    (g.independents_tape ..) hind hsize (size_trace_eq hconstant hf idf serialf)
  refine ⟨_, hcomposes, fun e he => ?_, ?_, fun j => ?_⟩
  -- a result of `tg` is no independent, so it is moved as a block
  · have hnot := hfaithful.results_fresh e he
    have hlt := hrec.result_lt e he
    rw [independents_tape] at hnot
    rw [hsize] at hlt
    rw [size_tape hf]
    exact Relocation.onto_block (le_of_not_mem_range hnot) hlt
  · rw [← hsize]
    exact htape.size
  · rw [hmoved.values, value_trace hg]

end Compose

end Routine

/-! ## The chain rule -/

section Record

variable {C : Width → Type} {w : Width} [Scalar (C w)] [Elementary (C w)] {i : ThreadId}

/-- The room that `record` asks for can be had, as there is a location for every input. -/
theorem Routine.capacity_le {f : Routine (C w) m n} {x : Fin n → C w}
    (hfit : f.locations x ≤ Handle.reservedLocation.toNat) : n * 10 ≤ Tape.maxCapacity := by
  have hn : n ≤ f.locations x := f.inputs_le_size_tape 0 0 x
  have hreserved : Handle.reservedLocation.toNat = 4294967295 := rfl
  unfold Tape.maxCapacity
  omega

/-- On an idle recorder a routine is recorded, with the values and the tape of its trace. -/
theorem Routine.record_seals {f : Routine (C w) m n} {x : Fin n → C w}
    (hfit : f.locations x ≤ Handle.reservedLocation.toNat) {r : Recorder C} (hidle : r.Idle w i)
    (store : StoreName) (id : TapeId) :
    ∃ r', (record store id (Array.ofFn x) f.body).exec i r =
        (.ok (Array.ofFn (f.outputs x)), r') ∧
      r'.sealed? w store id = some (f.tape id r.nextSerial x) := by
  have hsize := (size_tape hfit id r.nextSerial).trans_le hfit
  have hbody := f.body_yields (i := i)
    (Trace.sound_start id r.nextSerial (Nat.le_trans (f.inputs_le_size_tape 0 0 x) hfit))
    (Nat.le_trans (f.size_trace_le_tape id r.nextSerial x) hsize)
  obtain ⟨r', hexec, hsealed⟩ := record_of_idle hidle store id (sound hsize)
    (f.id_trace _) (f.session_trace _) (capacity_le hfit)
    (Nat.lt_of_le_of_lt hsize Tape.reserved_lt) hbody
  refine ⟨r', ?_, hsealed⟩
  rw [hexec]
  have hvalues : (fun j => ((f.trace (.start id r.nextSerial x)).handles j).value) = f.outputs x :=
    funext (value_trace hfit id r.nextSerial)
  rw [hvalues]

/-- The recording that goes on from `f` to `g` is sound up to its end. -/
theorem Routine.sound_after {f : Routine (C w) k n} {g : Routine (C w) m k} {x : Fin n → C w}
    (hf : f.locations x ≤ Handle.reservedLocation.toNat) {id : TapeId} {serial : Nat}
    (hfit : (g.trace (f.trace (.start id serial x))).finish.values.size ≤
      Handle.reservedLocation.toNat) : (g.trace (f.trace (.start id serial x))).Sound :=
  g.trace_sound (sound ((size_tape hf id serial).trans_le hf))
    (Nat.le_trans (Trace.size_le_finish _) hfit)

/-- The recording of `g` after `f`: what the code of `f` answers is given to that of `g`. -/
theorem Routine.record_seals_after {f : Routine (C w) k n} {g : Routine (C w) m k}
    {x : Fin n → C w} (hf : f.locations x ≤ Handle.reservedLocation.toNat) {r : Recorder C}
    (hidle : r.Idle w i) (store : StoreName) (id : TapeId)
    (hfit : (g.trace (f.trace (.start id r.nextSerial x))).finish.values.size ≤
      Handle.reservedLocation.toNat) :
    ∃ r', (record store id (Array.ofFn x) fun xs => f.body xs >>= g.body).exec i r =
        (.ok (Array.ofFn fun j =>
          ((g.trace (f.trace (.start id r.nextSerial x))).handles j).value), r') ∧
      r'.sealed? w store id = some (g.trace (f.trace (.start id r.nextSerial x))).finish := by
  have hsize := (size_tape hf id r.nextSerial).trans_le hf
  have hbody := (f.body_yields (i := i)
    (Trace.sound_start id r.nextSerial (Nat.le_trans (f.inputs_le_size_tape 0 0 x) hf))
    (Nat.le_trans (f.size_trace_le_tape id r.nextSerial x) hsize)).bind
      (g.body_yields (sound hsize) (Nat.le_trans (Trace.size_le_finish _) hfit))
  exact record_of_idle hidle store id (sound_after hf hfit)
    ((g.id_trace _).trans (f.id_trace _)) ((g.session_trace _).trans (f.session_trace _))
    (capacity_le hf) (Nat.lt_of_le_of_lt hfit Tape.reserved_lt) hbody

/-- Composed code records a tape that does what the tapes of its parts do one after the other: at
    every input, in all directions and under either policy it has the values and the derivatives
    that the tape of `g` has at those of the tape of `f`, and it leaves the branches that the two
    leave.  The two bounds say that locations last: the handles that `f` answers are the `k` inputs
    of `g`, and draw no location a second time. -/
theorem tapes_compose (f : Routine (C w) k n) (g : Routine (C w) m k) (x₀ : Fin n → C w)
    (hconstant : ∀ j, f.constants x₀ j = false)
    (hg : g.locations (f.outputs x₀) < UInt32.size)
    (hfit : f.locations x₀ + g.locations (f.outputs x₀) < UInt32.size + k)
    {rf rg rh : Recorder C} {i j l : ThreadId} (hrf : rf.Idle w i) (hrg : rg.Idle w j)
    (hrh : rh.Idle w l) (storef storeg storeh : StoreName) (idf idg idh : TapeId) :
    ∃ y₀ z₀ rf' rg' rh' tf tg th,
      (record storef idf (Array.ofFn x₀) f.body).exec i rf = (.ok y₀, rf') ∧
      rf'.sealed? w storef idf = some tf ∧
      (record storeg idg y₀ g.body).exec j rg = (.ok z₀, rg') ∧
      rg'.sealed? w storeg idg = some tg ∧
      (record storeh idh (Array.ofFn x₀) fun xs => f.body xs >>= g.body).exec l rh =
        (.ok z₀, rh') ∧
      rh'.sealed? w storeh idh = some th ∧
      ∀ (p : Nat) (x : Array (C w)) (xd : Array (Array (C w))), x.size = n → IsMatrix xd n p →
      ∀ (outf outg outh : Outputs (C w)), outf.y.size = k → IsMatrix outf.yd k p →
        outg.y.size = m → IsMatrix outg.yd m p → outh.y.size = m → IsMatrix outh.yd m p →
      ∀ (policy : BranchPolicy) (sf sg sh : Scratch (C w)),
        let first := tf.forwardWithScratch policy p x xd outf sf
        let second := tg.forwardWithScratch policy p first.buffers.1.y first.buffers.1.yd outg sg
        let whole := th.forwardWithScratch policy p x xd outh sh
        ∃ switchesf switchesg, first.answer = .ok { switches := switchesf } ∧
          second.answer = .ok { switches := switchesg } ∧
          whole.answer = .ok { switches := switchesf ++ switchesg.map fun b =>
            { b with location := (b.location.toNat - k + tf.values.size).toUInt32 } } ∧
          whole.buffers.1 = second.buffers.1 := by
  have hreserved : UInt32.size = Handle.reservedLocation.toNat + 1 := rfl
  -- the bounds once more, in terms of what the recordings use
  have hk : k ≤ g.locations (f.outputs x₀) := g.inputs_le_size_tape 0 0 _
  rw [hreserved] at hg hfit
  have hf : f.locations x₀ ≤ Handle.reservedLocation.toNat := by omega
  have hle : g.locations (f.outputs x₀) - k + f.locations x₀ ≤ Handle.reservedLocation.toNat := by
    omega
  have hg' := Nat.le_of_lt_succ hg
  obtain ⟨ρ, hcomposes, hρ, hsizeh, hvalues⟩ := Routine.tape_composes hconstant hf hg' hle idf idg
    idh rf.nextSerial rg.nextSerial rh.nextSerial
  -- the three sessions, each on its own idle recorder
  obtain ⟨rf', hexecf, hsealedf⟩ := Routine.record_seals hf hrf storef idf
  obtain ⟨rg', hexecg, hsealedg⟩ := Routine.record_seals hg' hrg storeg idg
  obtain ⟨rh', hexech, hsealedh⟩ := Routine.record_seals_after hf hrh storeh idh
    (hsizeh.trans_le hle)
  refine ⟨_, _, rf', rg', rh', _, _, _, hexecf, hsealedf, hexecg, hsealedg, ?_, hsealedh, ?_⟩
  · rw [hexech, funext hvalues]
  -- from here on it is a matter of three tapes, all of which can be evaluated
  have htf := (Routine.tape_sound ((Routine.size_tape hf idf rf.nextSerial).trans_le hf)).1
  have htg := (Routine.tape_sound ((Routine.size_tape hg' idg rg.nextSerial).trans_le hg')).1
  have hth := ((Routine.sound_after hf (hsizeh.trans_le hle)).finish
    (Nat.lt_of_le_of_lt (hsizeh.trans_le hle) Tape.reserved_lt)).1
  intro p x xd hx hxd outf outg outh hyf hydf hyg hydg hyh hydh policy sf sg sh
  have hindf := f.size_independents_tape idf rf.nextSerial x₀
  have hdepf := f.size_dependents_tape idf rf.nextSerial x₀
  have hdepg := g.size_dependents_tape idg rg.nextSerial (f.outputs x₀)
  rw [← hindf] at hx hxd
  rw [← hdepf] at hyf hydf
  rw [← hdepg] at hyg hydg hyh hydh
  obtain ⟨switchesf, switchesg, hanswerf, hanswerg, hanswerh, hresults, hbuffers⟩ :=
    hcomposes.forwardWithScratch htf.toReplayable htg.toReplayable hth.toReplayable policy hx hxd
      hyf hydf hyg hydg hyh hydh sf sg sh
  refine ⟨switchesf, switchesg, hanswerf, hanswerg, ?_, hbuffers⟩
  -- a switch is at the result of an entry, where the other name is known
  have hrename : switchesg.map (BranchSwitch.rename ρ) = switchesg.map fun b => { b with
      location :=
        (b.location.toNat - k + (f.tape idf rf.nextSerial x₀).values.size).toUInt32 } := by
    refine Array.map_congr_left fun b hb => ?_
    obtain ⟨e, he, hloc⟩ := hresults b hb
    unfold BranchSwitch.rename
    rw [hloc, hρ e he]
  rw [← hrename]
  exact hanswerh

/-- The magnitude after a split, on the other side of its kink: one handle is answered twice, and
    the input is answered as well. -/
theorem tapes_compose_of_kink :
    let f : Routine (Width.Number .double) 3 1 :=
      .frexp (.handle 0) fun e => .apply (.ldexp e) (.handle 0)
        (.answer fun j => if j = 2 then 2 else 0)
    let g : Routine (Width.Number .double) 1 3 :=
      .apply .abs (.handle 0) (.combine .mul (.handle 0) (.handle 3) (.answer fun _ => 0))
    let x₀ : Fin 1 → Width.Number .double := fun _ => (1 : Float)
    let out : Nat → Outputs (Width.Number .double) := fun k =>
      ⟨Array.replicate k (0 : Float), Array.replicate k #[(0 : Float)]⟩
    ∃ (tf tg th : Tape (Width.Number .double)) (rf rg rh : Recorder Width.Number)
      (y₀ z₀ : Array (Width.Number .double)),
      (record "parts" 7 (Array.ofFn x₀) f.body).exec 0 {} = (.ok y₀, rf) ∧
      rf.sealed? .double "parts" 7 = some tf ∧
      (record "parts" 8 y₀ g.body).exec 0 {} = (.ok z₀, rg) ∧
      rg.sealed? .double "parts" 8 = some tg ∧
      (record "whole" 7 (Array.ofFn x₀) fun xs => f.body xs >>= g.body).exec 0 {} =
        (.ok z₀, rh) ∧
      rh.sealed? .double "whole" 7 = some th ∧
      let first := tf.forwardWithScratch .recorded 1 #[(-2 : Float)] #[#[(1 : Float)]] (out 3) {}
      (th.forwardWithScratch .recorded 1 #[(-2 : Float)] #[#[(1 : Float)]] (out 1) {}).buffers.1 =
        (tg.forwardWithScratch .recorded 1 first.buffers.1.y first.buffers.1.yd (out 1)
          {}).buffers.1 := by
  intro f g x₀ out
  have hidle : ({} : Recorder Width.Number).Idle .double 0 := ⟨rfl, rfl⟩
  have hconstant : ∀ j, f.constants x₀ j = false := by decide
  have hf : f.locations x₀ = 3 := by rfl
  have hg : g.locations (f.outputs x₀) = 5 := by rfl
  obtain ⟨y₀, z₀, rf, rg, rh, tf, tg, th, hexecf, hsealedf, hexecg, hsealedg, hexech, hsealedh,
    h⟩ :=
    tapes_compose f g x₀ hconstant (by rw [hg]; decide) (by rw [hf, hg]; decide) hidle hidle hidle
      "parts" "parts" "whole" 7 8 7
  have hrows : ∀ k, (out k).y.size = k ∧ IsMatrix (out k).yd k 1 :=
    fun k => ⟨Array.size_replicate, Array.size_replicate, by simp [out]⟩
  obtain ⟨-, -, -, -, -, hbuffers⟩ := h 1 #[(-2 : Float)] #[#[(1 : Float)]] rfl ⟨rfl, by simp⟩
    (out 3) (out 1) (out 1) (hrows 3).1 (hrows 3).2 (hrows 1).1 (hrows 1).2 (hrows 1).1 (hrows 1).2
    .recorded {} {} {}
  exact ⟨tf, tg, th, rf, rg, rh, y₀, z₀, hexecf, hsealedf, hexecg, hsealedg, hexech, hsealedh,
    hbuffers⟩

end Record

end DiffTape
