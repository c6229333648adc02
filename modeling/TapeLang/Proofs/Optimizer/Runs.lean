import TapeLang.Optimizer.Runs
import TapeLang.Proofs.Contexts

/-!
# Merging runs is an improvement

An operation without effect can be left out, and two adjacent operations can be joined: if both of
the two succeed, so does the one in their place, with the same effect. Merging a run is a series of
such replacements.
-/

set_option autoImplicit false

namespace TapeLang.Machine

variable {σ : Type} {D : Device σ}

/-- A move by zero and an addition of zero leave the bytes as they were. -/
theorem simulated_of_isNoOp {o : Op} (h : o.isNoOp = true) (rest : Program) :
    Simulated D (.op o rest) rest := by
  intro n K K' hK s s' hs
  cases o with
  | shift amount =>
      obtain rfl : amount = 0 := by simpa [Op.isNoOp] using h
      refine sim_shift hs.streams_eq fun i hi => ?_
      obtain ⟨hpointer, -⟩ := (Tape.index_eq_ok_iff _ _ _).1 hi
      obtain rfl : i = s.tape.pointer := by omega
      exact Simulated.refl D rest n K K' hK s s' hs
  | add amount offset =>
      obtain rfl : amount = 0 := by simpa [Op.isNoOp] using h
      refine sim_add hs.streams_eq fun i v hr => ?_
      obtain ⟨-, hv, -⟩ := (Tape.revise_eq_ok_iff _ _ _ _ _).1 hr
      refine Simulated.refl D rest n K K' hK _ s' ⟨hs.streams_eq, ?_, fun j hj => ?_⟩
      · rw [Tape.pointer_put, hs.tape.pointer_eq]
      · rw [Tape.cell_put, ← hs.tape.cell_eq j hj]
        split
        next hji => rw [hv, hji, show (0 : Int8).toUInt8 = 0 from rfl, UInt8.add_zero]
        next => rfl
  | input => simp [Op.isNoOp] at h
  | output => simp [Op.isNoOp] at h
  | setZero => simp [Op.isNoOp] at h
  | multiply factors => simp [Op.isNoOp] at h

theorem simulated_consEffective (o : Op) (rest : Program) :
    Simulated D (.op o rest) (Program.consEffective o rest) := by
  rw [Program.consEffective]
  split
  next h => exact simulated_of_isNoOp h rest
  next => exact Simulated.refl D (.op o rest)

/-- Two shifts reach the place that their sum reaches. -/
theorem simulated_shift_shift (a b : Int) (rest : Program) :
    Simulated D (.op (.shift a) (.op (.shift b) rest)) (.op (.shift (a + b)) rest) := by
  intro n K K' hK s s' hs
  refine sim_shift hs.streams_eq fun i hi => ?_
  obtain ⟨hpointer, -⟩ := (Tape.index_eq_ok_iff _ _ _).1 hi
  cases hj : Tape.index { s.tape with pointer := i } b with
  | error e => exact sim_crash (exec_shift_of_error hj) hs.streams_eq
  | ok j =>
      obtain ⟨hj', hfits⟩ := (Tape.index_eq_ok_iff _ _ _).1 hj
      have hsum : (s'.tape.pointer : Int) + (a + b) = i + b := by
        rw [← hs.tape.pointer_eq]
        omega
      -- the sum may skip over a place left of cell zero, but not the other way round
      have hright : s'.tape.index (a + b) = .ok j :=
        (Tape.index_eq_ok_iff _ _ _).2 ⟨hj'.trans hsum.symm, hsum ▸ hfits⟩
      exact sim_pair hs.streams_eq (exec_shift_of_ok hj) (exec_shift_of_ok hright)
        (Simulated.refl D rest n K K' hK _ _ ⟨hs.streams_eq, rfl, hs.tape.cell_eq⟩)

/-- Two additions at one offset add what their sum adds. -/
theorem simulated_add_add (a b : Int8) (offset : Int) (rest : Program) :
    Simulated D (.op (.add a offset) (.op (.add b offset) rest))
      (.op (.add (a + b) offset) rest) := by
  intro n K K' hK s s' hs
  refine sim_add hs.streams_eq fun i v hr => ?_
  obtain ⟨hi, rfl, -⟩ := (Tape.revise_eq_ok_iff _ _ _ _ _).1 hr
  cases hr' : (s.tape.put i (s.tape.cell i + a.toUInt8)).revise offset (· + b.toUInt8) with
  | error e => exact sim_crash (exec_add_of_error hr') hs.streams_eq
  | ok jw =>
      obtain ⟨j, w⟩ := jw
      obtain ⟨hj, hw, hroom⟩ := (Tape.revise_eq_ok_iff _ _ _ _ _).1 hr'
      have hji : j = i := by
        have hi' := ((Tape.index_eq_ok_iff _ _ _).1 hi).1
        have hj' := ((Tape.index_eq_ok_iff _ _ _).1 hj).1
        rw [Tape.pointer_put] at hj'
        omega
      subst hji
      have hsum : w = s'.tape.cell j + (a + b).toUInt8 := by
        rw [hw, Tape.cell_put, if_pos rfl, ← hs.tape.cell_eq j (Set.notMem_empty j),
          Int8.toUInt8_add, UInt8.add_assoc]
      have hright : s'.tape.revise offset (· + (a + b).toUInt8) = .ok (j, w) :=
        (Tape.revise_eq_ok_iff _ _ _ _ _).2 ⟨hs.tape.index_eq offset ▸ hi, hsum, hroom⟩
      refine sim_pair hs.streams_eq (exec_add_of_ok hr') (exec_add_of_ok hright)
        (Simulated.refl D rest n K K' hK _ _ ⟨hs.streams_eq, ?_, fun k hk => ?_⟩)
      · simp [hs.tape.pointer_eq]
      · rw [Tape.cell_put, Tape.cell_put, Tape.cell_put, hs.tape.cell_eq k hk]
        split <;> rfl

theorem simulated_of_join? {o first joined : Op} (h : o.join? first = some joined)
    (rest : Program) : Simulated D (.op o (.op first rest)) (.op joined rest) := by
  rcases Op.join?_eq_some h with ⟨a, b, rfl, rfl, rfl⟩ | ⟨a, b, i, rfl, rfl, rfl⟩
  · exact simulated_shift_shift a b rest
  · exact simulated_add_add a b i rest

theorem improves_consFused (o : Op) (p : Program) :
    Improves D (.op o p) (Program.consFused o p) := by
  cases p with
  | done => exact .single (simulated_consEffective o .done)
  | loop body rest => exact .single (simulated_consEffective o (.loop body rest))
  | op first rest =>
      cases hj : o.join? first with
      | none =>
          simp only [Program.consFused, hj]
          exact .single (simulated_consEffective o (.op first rest))
      | some joined =>
          simp only [Program.consFused, hj]
          exact Relation.ReflTransGen.tail (.single (simulated_of_join? hj rest))
            (simulated_consEffective joined rest)

theorem improves_fuse (p : Program) : Improves D p p.fuse := by
  induction p with
  | done => exact .refl
  | op o rest ih => exact (Improves.op o ih).trans (improves_consFused o rest.fuse)
  | loop body rest _ ih => exact Improves.loop_rest body ih

theorem improves_mergeRuns (p : Program) : Improves D p p.mergeRuns :=
  improves_everywhere improves_fuse p

end TapeLang.Machine
