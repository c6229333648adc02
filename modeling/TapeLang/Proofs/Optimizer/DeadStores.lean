import TapeLang.Optimizer.DeadStores
import TapeLang.Proofs.Contexts

/-!
# Removing dead stores is an improvement

While the two machines go through a straight run their tapes agree outside the positions that the
run will zero before anything reads them (`deadCells`). A store that is removed writes such a cell;
whatever reads a cell reads one that agrees; and the zeroing that made the stores dead is kept and
settles its cell. At the end of the run no such position is left, so the bytes are the same.

The position of a cell is its distance from the start of the run, `here` being the position of the
pointer. Both are kept through the run, so a cell keeps its position while the pointer wanders.
-/

set_option autoImplicit false

namespace TapeLang.Machine

variable {σ : Type} {D : Device σ}

/-- The cells at the positions `dead`, for a pointer at the position `here`. -/
def deadCells (pointer : Nat) (here : Int) (dead : List Int) : Set Nat :=
  {i | (i : Int) - pointer + here ∈ dead}

theorem deadCells_nil (pointer : Nat) (here : Int) : deadCells pointer here [] = ∅ := by
  ext i
  simp [deadCells]

theorem deadCells_mono {dead dead' : List Int} (h : dead ⊆ dead') (pointer : Nat) (here : Int) :
    deadCells pointer here dead ⊆ deadCells pointer here dead' :=
  fun _ hi => h hi

/-- A cell keeps its position when the pointer moves. -/
theorem deadCells_shift (dead : List Int) {pointer i : Nat} {amount : Int}
    (hi : (i : Int) = pointer + amount) (here : Int) :
    deadCells i (here + amount) dead = deadCells pointer here dead := by
  ext j
  have hposition : (j : Int) - i + (here + amount) = j - pointer + here := by omega
  simp only [deadCells, Set.mem_ofPred_eq, hposition]

theorem mem_deadCells {dead : List Int} {pointer i : Nat} {offset : Int}
    (hi : (i : Int) = pointer + offset) (here : Int) :
    i ∈ deadCells pointer here dead ↔ here + offset ∈ dead := by
  have hposition : (i : Int) - pointer + here = here + offset := by omega
  simp only [deadCells, Set.mem_ofPred_eq, hposition]

theorem deadCells_cons (pointer : Nat) (here : Int) (dead : List Int) :
    deadCells pointer here (here :: dead) = insert pointer (deadCells pointer here dead) := by
  ext i
  have hposition : (i : Int) - pointer + here = here ↔ i = pointer := by omega
  simp only [deadCells, Set.mem_ofPred_eq, List.mem_cons, hposition, Set.mem_insert_iff]

/-- An operation that is kept and does not move the pointer. What it uses is not dead before it, and
no cell comes alive at it. -/
theorem sim_kept {n : Nat} {K K' : List Program} {o : Op} {rest rest' : Program}
    {dead dead' : List Int} {here : Int} (hsub : dead ⊆ dead') {s s' : State σ}
    (hs : State.AgreeOff (deadCells s.tape.pointer here dead) s s')
    (huses : ∀ i ∈ o.uses s.tape.pointer, i ∉ deadCells s.tape.pointer here dead)
    (hpointer : ∀ t, exec D o s = .next t → t.tape.pointer = s.tape.pointer)
    (hrest : ∀ t t' : State σ, State.AgreeOff (deadCells t.tape.pointer here dead') t t' →
      Sim D n ⟨rest :: K, t⟩ ⟨rest' :: K', t'⟩) :
    Sim D n ⟨.op o rest :: K, s⟩ ⟨.op o rest' :: K', s'⟩ := by
  refine sim_op hs huses fun t t' ht _ hagree => hrest t t' ⟨hagree.streams_eq, ?_⟩
  rw [hpointer t ht]
  exact hagree.tape.mono (deadCells_mono hsub _ _)

/-- A sequence from a place in the middle of a straight run, on machines that agree outside the dead
cells, by induction on the sequence. -/
theorem sim_sweepFrom {n : Nat} {K K' : List Program} (hK : Resumes D n K K') (p : Program) :
    ∀ (here : Int) (s s' : State σ),
      State.AgreeOff (deadCells s.tape.pointer here (p.sweepFrom here).zeroed) s s' →
        Sim D n ⟨p :: K, s⟩ ⟨(p.sweepFrom here).program :: K', s'⟩ := by
  induction p with
  | done =>
      intro here s s' hs
      rw [Program.sweepFrom, deadCells_nil] at hs
      exact sim_done hK hs
  | loop body rest _ ih =>
      intro here s s' hs
      rw [Program.sweepFrom, deadCells_nil] at hs
      refine sim_loop (Simulated.refl D body) (fun t t' ht _ => ?_) s s' hs
      exact ih 0 t t' ⟨ht.streams_eq, ht.tape.mono (Set.empty_subset _)⟩
  | op o rest ih =>
      intro here s s' hs
      cases o with
      | input =>
          rw [Program.sweepFrom, deadCells_nil] at hs
          refine sim_op hs (fun i _ => Set.notMem_empty i) fun t t' _ _ ht => ?_
          exact ih 0 t t' ⟨ht.streams_eq, ht.tape.mono (Set.empty_subset _)⟩
      | shift amount =>
          refine sim_op hs (fun i hi => hi.elim) fun t t' ht _ hagree => ?_
          refine ih (here + amount) t t' ⟨hagree.streams_eq, ?_⟩
          cases hi : s.tape.index amount with
          | error e =>
              rw [exec_shift_of_error hi] at ht
              cases ht
          | ok i =>
              rw [exec_shift_of_ok hi] at ht
              cases ht
              rw [deadCells_shift _ ((Tape.index_eq_ok_iff _ _ _).1 hi).1]
              exact hagree.tape
      | add amount offset =>
          simp only [Program.sweepFrom] at hs ⊢
          split
          next hdead =>
            -- The store is dropped: it writes a dead cell, if it does not fail.
            rw [if_pos hdead] at hs
            refine sim_add hs.streams_eq fun i v hr => ih here _ s' ⟨hs.streams_eq, ?_⟩
            obtain ⟨hi, -, -⟩ := (Tape.revise_eq_ok_iff _ _ _ _ _).1 hr
            have hmem := (mem_deadCells ((Tape.index_eq_ok_iff _ _ _).1 hi).1 here).2 hdead
            rw [Tape.pointer_put]
            exact hs.tape.put_left hmem v
          next halive =>
            rw [if_neg halive] at hs
            exact sim_kept (List.Subset.refl _) hs
              (fun i hi hmem => halive ((mem_deadCells hi here).1 hmem))
              (fun t ht => pointer_of_exec_add ht) (ih here)
      | setZero =>
          simp only [Program.sweepFrom] at hs ⊢
          split
          next hdead =>
            rw [if_pos hdead] at hs
            refine sim_silent exec_setZero rfl (ih here _ s' ⟨hs.streams_eq, ?_⟩)
            have hmem :
                s.tape.pointer ∈ deadCells s.tape.pointer here (rest.sweepFrom here).zeroed := by
              rwa [mem_deadCells (Int.add_zero _).symm, Int.add_zero]
            rw [Tape.pointer_put]
            exact hs.tape.put_left hmem 0
          next halive =>
            -- The store is kept: it settles the current cell, whatever the tapes held there.
            rw [if_neg halive] at hs
            refine sim_pair hs.streams_eq exec_setZero exec_setZero
              (ih here _ _ ⟨hs.streams_eq, ?_⟩)
            have htape := hs.tape
            rw [deadCells_cons] at htape
            rw [Tape.pointer_put, ← htape.pointer_eq]
            exact htape.put_insert 0
      | output =>
          refine sim_kept (List.filter_subset_self _) hs (fun i hi hmem => ?_)
            (fun t ht => congrArg Tape.pointer (tape_of_exec_output ht)) (ih here)
          obtain rfl : i = s.tape.pointer := hi
          rw [mem_deadCells (Int.add_zero _).symm, Int.add_zero] at hmem
          simp at hmem
      | multiply factors =>
          refine sim_kept (List.filter_subset_self _) hs (fun i hi hmem => ?_)
            (fun t ht => pointer_of_exec_multiply ht) (ih here)
          rcases hi with rfl | ⟨k, hk, hi⟩
          · rw [mem_deadCells (Int.add_zero _).symm, Int.add_zero] at hmem
            simp at hmem
          · rw [mem_deadCells hi] at hmem
            simp [show here + k - here = k by omega, hk] at hmem

theorem simulated_sweep (p : Program) : Simulated D p p.sweep := by
  intro n K K' hK s s' hs
  exact sim_sweepFrom hK p 0 s s' ⟨hs.streams_eq, hs.tape.mono (Set.empty_subset _)⟩

theorem improves_removeDeadStores (p : Program) : Improves D p p.removeDeadStores :=
  improves_everywhere (fun q => .single (simulated_sweep q)) p

end TapeLang.Machine
