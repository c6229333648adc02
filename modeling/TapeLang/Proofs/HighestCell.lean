import TapeLang.Machine.Session
import TapeLang.Proofs.Budget
import TapeLang.Proofs.Extent
import TapeLang.Proofs.Touched

/-!
# The highest cell of a program is a bound

Where the highest cell of a program is known, no run of it on a new tape leads beyond that cell, and
none touches a cell beyond it: not a run that completes or fails, nor one that is cut off or never
ends (`run_stays_below_highest`). The cells that are stored lie below too.

The analysis goes through the body of a loop once, and a run any number of times. What carries over
from step to step is that each frame starts at a place that is known (`Program.Covered`), since a
loop that is entered comes back to where it was entered. `Config.Below` says this of a machine, and
every turn keeps it.
-/

set_option autoImplicit false

namespace TapeLang

/-- A byte stored below a bound leaves the stored cells below it. -/
theorem Tape.size_put_le {t : Tape} {i bound : Nat} (v : UInt8) (ht : t.cells.size ≤ bound)
    (hi : i < bound) : (t.put i v).cells.size ≤ bound := by
  rw [size_put]
  split
  · exact ht
  · omega

namespace Program.Covered

open Machine (next)

variable {length : Nat} {x : Int} {entered left frames : List Program} {o : Op}

/-- The frame whose operation comes next, when the frames with nothing left are popped. -/
theorem next_op : ∀ {K : List Program}, Covered length x K → next K = .op o frames →
    ∃ rest K', frames = rest :: K' ∧ Covered length x (.op o rest :: K') := by
  intro K
  induction K with
  | nil =>
      intro _ hnext
      cases hnext
  | cons p K ih =>
      intro h hnext
      cases p with
      | done => exact ih h.done hnext
      | op o' rest =>
          cases hnext
          exact ⟨rest, K, rfl, h⟩
      | loop body rest => cases hnext

theorem next_test : ∀ {K : List Program}, Covered length x K → next K = .test entered left →
    ∃ body rest K', entered = body :: .loop body rest :: K' ∧ left = rest :: K' ∧
      Covered length x (.loop body rest :: K') := by
  intro K
  induction K with
  | nil =>
      intro _ hnext
      cases hnext
  | cons p K ih =>
      intro h hnext
      cases p with
      | done => exact ih h.done hnext
      | op o' rest => cases hnext
      | loop body rest =>
          cases hnext
          exact ⟨body, rest, K, rfl, rfl, h⟩

/-- The cells that the next operation touches lie below. -/
theorem touched_lt {pointer : Nat} {rest : Program} {K : List Program}
    (h : Covered length pointer (.op o rest :: K)) : ∀ i ∈ o.touched pointer, i < length := by
  have hpointer : pointer < length := Int.ofNat_lt.1 h.start_lt
  have hoffsets : ∀ k ∈ o.offsets, (pointer : Int) + k < length := fun _ hk =>
    h.offset_lt hk
  intro i hi
  cases o with
  | shift amount =>
      -- the place that the shift leads to is where the rest starts
      obtain ⟨k, hk, hi⟩ := mem_cellsAt.1 hi
      cases List.mem_singleton.1 hk
      have hstart := h.op.start_lt
      simp only [Op.move] at hstart
      omega
  | add amount offset =>
      obtain ⟨k, hk, hi⟩ := mem_cellsAt.1 hi
      have hlt := hoffsets k hk
      omega
  | multiply factors =>
      rcases List.mem_cons.1 hi with rfl | hi
      · exact hpointer
      · obtain ⟨k, hk, hi⟩ := mem_cellsAt.1 hi
        have hlt := hoffsets k hk
        omega
  | input => rwa [List.mem_singleton.1 hi]
  | output => rwa [List.mem_singleton.1 hi]
  | setZero => rwa [List.mem_singleton.1 hi]

end Program.Covered

namespace Machine

variable {σ : Type} {D : Device σ}

/-- An operation that succeeds moves the pointer as far as it says. -/
theorem pointer_of_exec {o : Op} {s t : State σ} (h : exec D o s = .next t) :
    (t.tape.pointer : Int) = s.tape.pointer + o.move := by
  cases o with
  | shift amount =>
      cases hi : s.tape.index amount with
      | error e =>
          rw [exec_shift_of_error hi] at h
          cases h
      | ok i =>
          rw [exec_shift_of_ok hi] at h
          cases h
          exact ((Tape.index_eq_ok_iff _ _ _).1 hi).1
  | add amount offset => simp only [pointer_of_exec_add h, Op.move, Int.add_zero]
  | input =>
      simp only [exec] at h
      rcases hread : readByte D s.streams with ⟨result, streams⟩
      rw [hread] at h
      cases result with
      | error e => cases h
      | ok byte =>
          simp only at h
          split at h
          · cases h
            simp only [Tape.pointer_put, Op.move, Int.add_zero]
          · cases h
  | output => simp only [tape_of_exec_output h, Op.move, Int.add_zero]
  | setZero =>
      cases h
      simp only [Tape.pointer_put, Op.move, Int.add_zero]
  | multiply factors => simp only [pointer_of_exec_multiply h, Op.move, Int.add_zero]

/-! ## Machines below a bound -/

/-- The cells that the next step of a machine reads, writes or moves to. The test of a loop reads
the current cell. -/
def Config.touched (c : Config σ) : List Nat :=
  match next c.frames with
  | .finished => []
  | .test _ _ => [c.state.tape.pointer]
  | .op o _ => o.touched c.state.tape.pointer

/-- What is left to run leads from the pointer to no cell from `length` on, and no such cell is
stored. -/
structure Config.Below (length : Nat) (c : Config σ) : Prop where
  frames_ne : c.frames ≠ []
  covered : Program.Covered length c.state.tape.pointer c.frames
  size_le : c.state.tape.cells.size ≤ length

namespace Config.Below

variable {length : Nat} {c c' : Config σ}

theorem pointer_lt (h : c.Below length) : c.state.tape.pointer < length := by
  obtain ⟨p, K, hframes⟩ := List.exists_cons_of_ne_nil h.frames_ne
  have hcovered := h.covered
  rw [hframes] at hcovered
  exact Int.ofNat_lt.1 hcovered.start_lt

/-- The next step touches no cell from the bound on. -/
theorem touched_lt (h : c.Below length) : ∀ i ∈ c.touched, i < length := by
  intro i hi
  rw [touched] at hi
  cases hnext : next c.frames with
  | finished =>
      rw [hnext] at hi
      cases hi
  | test entered left =>
      rw [hnext] at hi
      rw [List.mem_singleton.1 hi]
      exact h.pointer_lt
  | op o frames =>
      rw [hnext] at hi
      obtain ⟨rest, K, -, hcovered⟩ := h.covered.next_op hnext
      exact hcovered.touched_lt i hi

/-- An operation leaves the pointer and the stored cells below, also where it fails. -/
theorem exec (h : c.Below length) {o : Op} {frames : List Program}
    (hnext : next c.frames = .op o frames) :
    (Machine.exec D o c.state).state.tape.pointer < length ∧
      (Machine.exec D o c.state).state.tape.cells.size ≤ length := by
  obtain ⟨rest, K, -, hcovered⟩ := h.covered.next_op hnext
  have htouched := hcovered.touched_lt
  apply exec_keeps (P := fun t => t.pointer < length ∧ t.cells.size ≤ length)
  · intro t i v hi _ ht
    rw [Tape.pointer_put]
    exact ⟨ht.1, Tape.size_put_le v ht.2 (htouched i hi)⟩
  · intro t i hi _ ht
    exact ⟨htouched i hi, ht.2⟩
  · exact ⟨h.pointer_lt, h.size_le⟩

/-- Every turn keeps a machine below. -/
theorem turn (h : c.Below length) (hturn : turn D c = .next c') : c'.Below length := by
  rcases cases_of_turn_next hturn with ⟨entered, left, hnext, rfl⟩ | ⟨o, frames, t, hnext, ht, rfl⟩
  · obtain ⟨body, rest, K, rfl, rfl, hcovered⟩ := h.covered.next_test hnext
    by_cases hzero : c.state.tape.current = 0
    · simp only [hzero, if_true]
      exact ⟨List.cons_ne_nil _ _, hcovered.leave, h.size_le⟩
    · -- the loop stays on the stack below its body, to be tested at the same place again
      simp only [hzero, if_false]
      exact ⟨List.cons_ne_nil _ _, hcovered.enter, h.size_le⟩
  · have hsize := (h.exec (D := D) hnext).2
    obtain ⟨rest, K, rfl, hcovered⟩ := h.covered.next_op hnext
    rw [ht] at hsize
    refine ⟨List.cons_ne_nil _ _, ?_, hsize⟩
    rw [pointer_of_exec ht]
    exact hcovered.op

theorem turns {n : Nat} (h : c.Below length) (hturns : Turns D n c c') : c'.Below length := by
  induction hturns with
  | refl c => exact h
  | head first _ ih => exact ih (h.turn first)

/-- Where a run stands after some steps, whether it has ended, has failed or goes on. -/
theorem advance (h : c.Below length) (m k : Nat) :
    (c.advance D m k).state.tape.pointer < length ∧
      (c.advance D m k).state.tape.cells.size ≤ length := by
  rcases advance_cases D m k c with ⟨n, c', -, hturns, -, heq⟩ |
    ⟨n, c', fault, s, -, hturns, hfail, heq⟩ | ⟨c', hturns, -, heq⟩
  · rw [heq]
    exact ⟨(h.turns hturns).pointer_lt, (h.turns hturns).size_le⟩
  · obtain ⟨o, frames, hnext, hexec⟩ := exec_of_turn_failed hfail
    have hbelow := (h.turns hturns).exec (D := D) hnext
    rw [hexec] at hbelow
    rw [heq]
    exact hbelow
  · rw [heq]
    exact ⟨(h.turns hturns).pointer_lt, (h.turns hturns).size_le⟩

/-- A program on a new tape, below the cell after its highest one. -/
theorem start {p : Program} {highest : Nat} (h : p.highestCell? = some highest) (streams : σ) :
    Config.Below (highest + 1) ⟨[p], .fresh streams⟩ := by
  rw [Program.highestCell?, Option.map_eq_some_iff] at h
  obtain ⟨position, hposition, rfl⟩ := h
  obtain ⟨d, hd⟩ := Program.netShift?_of_highestFrom? hposition
  exact ⟨List.cons_ne_nil _ _, ⟨⟨position, hposition, by omega⟩, d, hd, trivial⟩, Nat.zero_le _⟩

end Config.Below

/-- Where the highest cell of a program is known, a run on a new tape stays there, on every device
and so on every input. After any number of turns the pointer is no further to the right, nor is any
cell that the next step touches; and the tape stores no cell beyond. The same holds where the run
has ended, has failed or has been cut off. -/
theorem run_stays_below_highest (D : Device σ) (streams : σ) {p : Program} {highest : Nat}
    (h : p.highestCell? = some highest) :
    (∀ n c, Turns D n ⟨[p], .fresh streams⟩ c →
      c.state.tape.pointer ≤ highest ∧ (∀ i ∈ c.touched, i ≤ highest) ∧
        c.state.tape.cells.size ≤ highest + 1) ∧
    (∀ m, (advance D m 0 [p] (.fresh streams)).state.tape.pointer ≤ highest ∧
      (advance D m 0 [p] (.fresh streams)).state.tape.cells.size ≤ highest + 1) ∧
    ∀ fuel limit r, run D fuel limit p (.fresh streams) = some r →
      r.state.tape.pointer ≤ highest ∧ r.state.tape.cells.size ≤ highest + 1 := by
  have hstart := Config.Below.start h streams
  have hadvance : ∀ m, (advance D m 0 [p] (.fresh streams)).state.tape.pointer ≤ highest ∧
      (advance D m 0 [p] (.fresh streams)).state.tape.cells.size ≤ highest + 1 := by
    intro m
    obtain ⟨hpointer, hsize⟩ := hstart.advance (D := D) m 0
    exact ⟨Nat.le_of_lt_succ hpointer, hsize⟩
  refine ⟨?_, hadvance, ?_⟩
  · intro n c hturns
    have hbelow := hstart.turns hturns
    exact ⟨Nat.le_of_lt_succ hbelow.pointer_lt,
      fun i hi => Nat.le_of_lt_succ (hbelow.touched_lt i hi), hbelow.size_le⟩
  · intro fuel limit r hr
    -- the flush at the end leaves the tape alone
    rw [state_of_run hr]
    exact hadvance (limit.getD fuel)

/-- Two nested loops that leave the pointer where they found it, with an addition two cells to the
right of it in the inner one, and a move at the end. -/
def staying : Program :=
  .op (.add 2 0) (.loop (.op (.shift 1) (.op (.add 1 0)
    (.loop (.op (.add 1 2) (.op (.add (-1) 0) .done)) (.op (.shift (-1)) (.op (.add (-1) 0) .done)))))
      (.op (.shift 2) .done))

/-- The highest cell is the one that the inner loop changes, and the tape reaches up to it. -/
theorem run_stays_below_highest_staying :
    staying.highestCell? = some 3 ∧
      execute 30 none staying [] = some ⟨.ok (.completed 21), ⟨⟨#[0, 0, 0, 2], 2⟩, ⟨[], #[]⟩⟩⟩ ∧
      (⟨#[0, 0, 0, 2], 2⟩ : Tape).pointer ≤ 3 ∧ (⟨#[0, 0, 0, 2], 2⟩ : Tape).cells.size ≤ 3 + 1 := by
  have hhighest : staying.highestCell? = some 3 := by decide
  have hrun : execute 30 none staying [] =
      some ⟨.ok (.completed 21), ⟨⟨#[0, 0, 0, 2], 2⟩, ⟨[], #[]⟩⟩⟩ := rfl
  obtain ⟨-, -, hruns⟩ := run_stays_below_highest Buffers.device (.ofInput []) hhighest
  exact ⟨hhighest, hrun, hruns 30 none _ hrun⟩

end Machine

end TapeLang
