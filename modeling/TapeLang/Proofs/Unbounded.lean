import Mathlib.Logic.Function.Basic
import Mathlib.Logic.Function.Iterate
import TapeLang.Machine.Session
import TapeLang.Proofs.Steps
import TapeLang.Proofs.TapeView
import TapeLang.Proofs.Operations
import TapeLang.Proofs.WholeRuns

/-!
# A machine without a word

The same programs on an ideal machine: its tape is a function from cells to bytes, its pointer is a
natural number of any size, and the only way to fail is to leave the tape on the left. The machine
with a word follows it step by step (`follows_advance`) until a sum leaves the word, if one does.
What a program means without regard to the word is said by this machine, so it is what the code
generated for a program is compared with.
-/

set_option autoImplicit false

namespace TapeLang

/-- The next byte of the input, zero at its end, and the streams without it. -/
def Buffers.next (b : Buffers) : UInt8 × Buffers :=
  (b.input.headD 0, { b with input := b.input.tail })

/-- The two ways in which a program ends, the word left aside. -/
inductive End where
  /-- Nothing is left to run. -/
  | completed
  /-- An operation led left of cell zero. -/
  | underflowed

namespace Unbounded

/-- The bytes of all cells, the pointer, and the streams in memory. -/
structure State where
  cell : Nat → UInt8
  pointer : Nat
  streams : Buffers

namespace State

/-- A tape of zeros and some input. -/
def fresh (input : List UInt8) : State := ⟨fun _ => 0, 0, .ofInput input⟩

/-- The byte under the pointer. -/
def current (s : State) : UInt8 := s.cell s.pointer

/-- The cell at an offset from the pointer, unless that is left of cell zero. -/
def index? (s : State) (offset : Int) : Option Nat :=
  if (s.pointer : Int) + offset < 0 then none else some ((s.pointer : Int) + offset).toNat

/-- The state with a byte stored in a cell. -/
def put (s : State) (i : Nat) (v : UInt8) : State := { s with cell := Function.update s.cell i v }

@[simp] theorem pointer_put (s : State) (i : Nat) (v : UInt8) : (s.put i v).pointer = s.pointer :=
  rfl

theorem cell_put (s : State) (i j : Nat) (v : UInt8) :
    (s.put i v).cell j = if j = i then v else s.cell j :=
  Function.update_apply s.cell i v j

/-- Storing what a cell holds changes nothing. -/
theorem put_cell_eq {s : State} {i : Nat} {v : UInt8} (h : s.cell i = v) : s.put i v = s := by
  subst h
  simp only [put, Function.update_eq_self]

theorem index?_of_neg {s : State} {offset : Int} (h : (s.pointer : Int) + offset < 0) :
    s.index? offset = none :=
  if_pos h

theorem index?_of_eq {s : State} {offset : Int} {i : Nat} (h : (i : Int) = s.pointer + offset) :
    s.index? offset = some i := by
  have hi : ((s.pointer : Int) + offset).toNat = i := by omega
  rw [index?, if_neg (by omega), hi]

end State

/-- `origin` times its factor added to the cell of each entry, unless one is left of cell zero. -/
def spread (origin : UInt8) (s : State) : List (Int × Int8) → Option State
  | [] => some s
  | (offset, factor) :: rest =>
      match s.index? offset with
      | none => none
      | some i => spread origin (s.put i (s.cell i + origin * factor.toUInt8)) rest

/-- One operation, unless it leaves the tape on the left. -/
def exec : Op → State → Option State
  | .shift amount, s => (s.index? amount).map fun i => { s with pointer := i }
  | .add amount offset, s =>
      (s.index? offset).map fun i => s.put i (s.cell i + amount.toUInt8)
  | .input, s => some { s.put s.pointer s.streams.next.1 with streams := s.streams.next.2 }
  | .output, s =>
      some { s with streams := { s.streams with output := s.streams.output.push s.current } }
  | .setZero, s => some (s.put s.pointer 0)
  | .multiply factors, s =>
      if s.current = 0 then some s
      else (spread s.current s factors.entries).map fun t => t.put t.pointer 0

/-- Where a run stands: the frames that are left, or how it ended. -/
inductive Progress where
  | running (frames : List Program) (s : State)
  | ended (e : End) (s : State)

/-- One step. A run that has ended stays as it is. -/
def step : Progress → Progress
  | .running frames s =>
      match Machine.next frames with
      | .finished => .ended .completed s
      | .test entered left => .running (if s.current = 0 then left else entered) s
      | .op o frames =>
          match exec o s with
          | some t => .running frames t
          | none => .ended .underflowed s
  | .ended e s => .ended e s

/-- Some steps. -/
def run (n : Nat) (x : Progress) : Progress := step^[n] x

theorem run_succ (n : Nat) (x : Progress) : run (n + 1) x = run n (step x) :=
  Function.iterate_succ_apply step n x

theorem run_succ_eq_step (n : Nat) (x : Progress) : run (n + 1) x = step (run n x) :=
  Function.iterate_succ_apply' step n x

section Step

variable (K : List Program) (s : State)

theorem step_op_some {o : Op} {t : State} (rest : Program) (h : exec o s = some t) :
    step (.running (.op o rest :: K) s) = .running (rest :: K) t := by
  simp only [step, Machine.next, h]

theorem step_op_none {o : Op} (rest : Program) (h : exec o s = none) :
    step (.running (.op o rest :: K) s) = .ended .underflowed s := by
  simp only [step, Machine.next, h]

theorem step_loop_zero (body rest : Program) (h : s.current = 0) :
    step (.running (.loop body rest :: K) s) = .running (rest :: K) s := by
  simp only [step, Machine.next, h, if_true]

theorem step_loop_nonzero (body rest : Program) (h : s.current ≠ 0) :
    step (.running (.loop body rest :: K) s) = .running (body :: .loop body rest :: K) s := by
  simp only [step, Machine.next, h, if_false]

end Step

/-! ## Where an operation leaves the pointer -/

theorem pointer_of_spread {origin : UInt8} :
    ∀ {l : List (Int × Int8)} {s t : State}, spread origin s l = some t →
      t.pointer = s.pointer := by
  intro l
  induction l with
  | nil =>
      intro s t h
      cases h
      rfl
  | cons e rest ih =>
      intro s t h
      rcases e with ⟨offset, factor⟩
      simp only [spread] at h
      cases hi : s.index? offset with
      | none => simp [hi] at h
      | some i =>
          simp only [hi] at h
          rw [ih h, State.pointer_put]

/-! ## The machine with a word -/

/-- A machine with a word and one without have the same bytes, pointer and streams. -/
structure Agrees (s : Machine.State Buffers) (u : State) : Prop where
  cell : ∀ i, s.tape.cell i = u.cell i
  pointer : s.tape.pointer = u.pointer
  streams : s.streams = u.streams

namespace Agrees

variable {s : Machine.State Buffers} {u : State}

theorem fresh (input : List UInt8) : Agrees (.fresh (.ofInput input)) (.fresh input) :=
  ⟨fun _ => rfl, rfl, rfl⟩

theorem current (h : Agrees s u) : s.tape.current = u.current := by
  rw [Tape.current, h.cell, h.pointer, State.current]

theorem put (h : Agrees s u) (i : Nat) (v : UInt8) :
    Agrees { s with tape := s.tape.put i v } (u.put i v) where
  cell j := by
    rw [Tape.cell_put, State.cell_put, h.cell]
  pointer := by
    rw [Tape.pointer_put, h.pointer, State.pointer_put]
  streams := h.streams

/-- A cell that both can name is the same cell. -/
theorem index_ok (h : Agrees s u) {offset : Int} {i : Nat} (hi : s.tape.index offset = .ok i) :
    u.index? offset = some i := by
  apply State.index?_of_eq
  rw [← h.pointer]
  exact ((Tape.index_eq_ok_iff _ _ _).1 hi).1

/-- What is left of cell zero for one is so for the other. -/
theorem index_underflow (h : Agrees s u) {offset k : Int} {pointer : Nat}
    (hi : s.tape.index offset = .error (.underflow pointer k)) : u.index? offset = none := by
  apply State.index?_of_neg
  rw [← h.pointer]
  simp only [Tape.index] at hi
  split at hi
  next =>
    split at hi
    next hneg => exact hneg
    next => cases hi
  next => cases hi

end Agrees

/-- The end of an operation on a machine with a word, against the end of the same operation on one
without: it left the word, or the two ends are the same. -/
def StepFollows (u : State) (result : Option State) : Machine.Step Buffers → Prop
  | .next t => ∃ u', result = some u' ∧ Agrees t u'
  | .failed (.tape (.underflow _ _)) t => result = none ∧ t.streams = u.streams
  | .failed fault _ => fault.isFatal = true

/-- The same for a spread. -/
def SpreadFollows (streams : Buffers) (result : Option State) :
    Except (TapeFault × Tape) Tape → Prop
  | .ok t => ∃ u, result = some u ∧ Agrees ⟨t, streams⟩ u
  | .error (.underflow _ _, _) => result = none
  | .error (.overflow _, _) => True

section Follows

variable {s : Machine.State Buffers} {u : State}

/-- The entries are added one by one on both machines, by induction on the entries. -/
theorem spreadFollows (origin : UInt8) (streams : Buffers) :
    ∀ (l : List (Int × Int8)) {t : Tape} {u : State}, Agrees ⟨t, streams⟩ u →
      SpreadFollows streams (spread origin u l) (Machine.spread origin t l) := by
  intro l
  induction l with
  | nil =>
      intro t u h
      exact ⟨u, rfl, h⟩
  | cons e rest ih =>
      intro t u h
      rcases e with ⟨offset, factor⟩
      simp only [Machine.spread, Tape.revise, spread]
      cases hi : t.index offset with
      | error e =>
          cases e with
          | underflow pointer k =>
              rw [h.index_underflow hi]
              exact rfl
          | overflow e => exact trivial
      | ok i =>
          simp only [h.index_ok hi]
          split
          next hr =>
            -- the cell has no room for its new byte
            split at hr
            · cases hr
            · cases hr
              exact trivial
          next hr =>
            split at hr
            · cases hr
              have hcell : t.cell i = u.cell i := h.cell i
              rw [hcell]
              exact ih (h.put i _)
            · cases hr

theorem stepFollows_exec (h : Agrees s u) (o : Op) :
    StepFollows u (exec o u) (Machine.exec Buffers.device o s) := by
  cases o with
  | shift amount =>
      cases hi : s.tape.index amount with
      | ok i =>
          rw [Machine.exec_shift_of_ok hi, exec, h.index_ok hi]
          exact ⟨_, rfl, h.cell, rfl, h.streams⟩
      | error e =>
          rw [Machine.exec_shift_of_error hi]
          cases e with
          | underflow pointer k => exact ⟨by rw [exec, h.index_underflow hi]; rfl, h.streams⟩
          | overflow e => exact rfl
  | add amount offset =>
      cases hi : s.tape.index offset with
      | ok i =>
          simp only [Machine.exec, Tape.revise, hi, exec, h.index_ok hi, h.cell]
          by_cases hroom : Tape.hasRoom i (u.cell i + amount.toUInt8) = true
          · simp only [hroom, if_true]
            exact ⟨_, rfl, h.put i _⟩
          · simp only [hroom]
            exact rfl
      | error e =>
          simp only [Machine.exec, Tape.revise, hi]
          cases e with
          | underflow pointer k => exact ⟨by rw [exec, h.index_underflow hi]; rfl, h.streams⟩
          | overflow e => exact rfl
  | input =>
      -- the device never fails, and the byte it reads is the next one of the input
      have hread : Machine.readByte Buffers.device s.streams =
          (.ok u.streams.next.1, u.streams.next.2) := by
        rw [h.streams]
        rcases hb : u.streams with ⟨input, output⟩
        cases input <;> rfl
      simp only [Machine.exec, hread, h.pointer]
      split
      next =>
        have hput := h.put u.pointer u.streams.next.1
        exact ⟨_, rfl, hput.cell, hput.pointer, rfl⟩
      next => exact rfl
  | output =>
      refine ⟨_, rfl, h.cell, h.pointer, ?_⟩
      show Buffers.mk _ _ = Buffers.mk _ _
      rw [h.current, h.streams]
  | setZero =>
      rw [Machine.exec_setZero, h.pointer]
      exact ⟨_, rfl, h.put u.pointer 0⟩
  | multiply factors =>
      have hcurrent := h.current
      by_cases hzero : u.current = 0
      · rw [Machine.exec_multiply_of_zero (hcurrent.trans hzero), exec, if_pos hzero]
        exact ⟨u, rfl, h⟩
      · have hne : s.tape.current ≠ 0 := by rwa [hcurrent]
        have hspread := spreadFollows u.current s.streams factors.entries h
        rw [exec, if_neg hzero]
        rw [← hcurrent] at hspread ⊢
        cases hs : Machine.spread s.tape.current s.tape factors.entries with
        | ok t =>
            rw [hs] at hspread
            rcases hspread with ⟨u', hu, hagrees⟩
            rw [Machine.exec_multiply_of_ok hne hs, hu]
            have hput := hagrees.put u'.pointer 0
            have hpointer : t.pointer = u'.pointer := hagrees.pointer
            rw [hpointer]
            exact ⟨_, rfl, hput⟩
        | error e =>
            rcases e with ⟨e, t⟩
            rw [hs] at hspread
            rw [Machine.exec_multiply_of_error hne hs]
            cases e with
            | underflow pointer k =>
                have hnone : spread s.tape.current u factors.entries = none := hspread
                exact ⟨by rw [hnone]; rfl, h.streams⟩
            | overflow e => exact rfl

/-! ## Runs -/

/-- Where a machine with a word stands, against where one without stands after the same number of
steps. The end of a program is noticed one step later by the machine without a word. -/
def Follows (x : Progress) : Machine.Progress Buffers → Prop
  | .completed _ t => ∃ u, step x = .ended .completed u ∧ t.streams = u.streams
  | .failed (.tape (.underflow _ _)) _ t =>
      ∃ u, step x = .ended .underflowed u ∧ t.streams = u.streams
  | .failed fault _ _ => fault.isFatal = true
  | .suspended frames _ t => ∃ u, x = .running frames u ∧ Agrees t u

/-- What a machine with a word does next, against a step that a machine without takes from `u`. -/
def TurnFollows (u : State) (x : Progress) : Machine.Turn Buffers → Prop
  | .finished => x = .ended .completed u
  | .next c => ∃ u', x = .running c.frames u' ∧ Agrees c.state u'
  | .failed (.tape (.underflow _ _)) t => x = .ended .underflowed u ∧ t.streams = u.streams
  | .failed fault _ => fault.isFatal = true

theorem turnFollows_step (K : List Program) (h : Agrees s u) :
    TurnFollows u (step (.running K u)) (Machine.turn Buffers.device ⟨K, s⟩) := by
  simp only [Machine.turn, step]
  cases Machine.next K with
  | finished => exact rfl
  | test entered left =>
      rw [h.current]
      exact ⟨u, rfl, h⟩
  | op o frames =>
      have hexec := stepFollows_exec h o
      simp only
      cases hs : Machine.exec Buffers.device o s with
      | next t =>
          rw [hs] at hexec
          rcases hexec with ⟨u', hu, hagrees⟩
          rw [hu]
          exact ⟨u', rfl, hagrees⟩
      | failed fault t =>
          rw [hs] at hexec
          cases fault with
          | stream e => exact hexec
          | tape e =>
              cases e with
              | underflow pointer k =>
                  rcases hexec with ⟨hnone, hstreams⟩
                  rw [hnone]
                  exact ⟨rfl, hstreams⟩
              | overflow e => exact rfl

theorem run_ended (n : Nat) (e : End) (u : State) : run n (.ended e u) = .ended e u :=
  Function.iterate_fixed rfl n

/-- The two machines stand at the same place after every number of steps, unless the one with a word
has left it. -/
theorem follows_advance (m : Nat) : ∀ (k : Nat) (c : Machine.Config Buffers) {u : State},
    Agrees c.state u → Follows (run m (.running c.frames u)) (c.advance Buffers.device m k) := by
  -- one step of each machine, then the induction hypothesis where both of them go on
  induction m with
  | zero =>
      intro k c u h
      have hstep := turnFollows_step c.frames h
      by_cases ht : Machine.turn Buffers.device c = .finished
      · rw [ht] at hstep
        rw [Machine.advance_finished ht]
        exact ⟨u, hstep, h.streams⟩
      · rw [Machine.advance_zero ht]
        exact ⟨u, rfl, h⟩
  | succ m ih =>
      intro k c u h
      have hstep := turnFollows_step c.frames h
      rw [run_succ]
      cases ht : Machine.turn Buffers.device c with
      | finished =>
          rw [ht] at hstep
          rw [Machine.advance_finished ht, show step (.running c.frames u) = _ from hstep,
            run_ended]
          exact ⟨u, rfl, h.streams⟩
      | next c₁ =>
          rw [ht] at hstep
          rcases hstep with ⟨u₁, hu₁, h₁⟩
          rw [Machine.advance_next ht, hu₁]
          exact ih (k + 1) c₁ h₁
      | failed fault t =>
          rw [ht] at hstep
          rw [Machine.advance_failed ht]
          cases fault with
          | stream e => exact hstep
          | tape e =>
              cases e with
              | underflow pointer offset =>
                  rcases hstep with ⟨hu, hstreams⟩
                  rw [hu, run_ended]
                  exact ⟨u, rfl, hstreams⟩
              | overflow e => exact rfl

end Follows

end Unbounded

/-! ## How a run on a new tape ends -/

/-- The result of a run that ended in one of the two ways. -/
inductive End.Describes : End → Except Fault Machine.Outcome → Prop
  | completed (k : Nat) : Describes .completed (.ok (.completed k))
  | underflowed (pointer : Nat) (offset : Int) :
      Describes .underflowed (.error (.tape (.underflow pointer offset)))

theorem End.Describes.unique {e e' : End} {result : Except Fault Machine.Outcome}
    (h : e.Describes result) (h' : e'.Describes result) : e = e' := by
  cases h <;> cases h' <;> rfl

namespace Machine

/-- A program on an input ends in a way, and this is what it has written. -/
def Ends (e : End) (p : Program) (input : List UInt8) (output : Array UInt8) : Prop :=
  ∃ fuel r, execute fuel none p input = some r ∧ e.Describes r.result ∧
    r.state.streams.output = output

/-- A run of a program on an input ends because something has left the word. -/
def Overflows (p : Program) (input : List UInt8) : Prop :=
  ∃ fuel r, execute fuel none p input = some r ∧ r.isFatal = true

/-- A program ends in one way only. -/
theorem Ends.not_overflows {e : End} {p : Program} {input : List UInt8} {output : Array UInt8}
    (h : Ends e p input output) : ¬ Overflows p input := by
  rintro ⟨fuel', r', hr', hfatal⟩
  rcases h with ⟨fuel, r, hr, hdescribes, -⟩
  obtain rfl : r = r' := run_none_unique hr hr'
  rw [Run.isFatal] at hfatal
  generalize r.result = result at hdescribes hfatal
  cases hdescribes <;> cases hfatal

/-- A run in memory is its steps: the last flush does nothing. -/
theorem execute_eq (fuel : Nat) (p : Program) (input : List UInt8) :
    execute fuel none p input =
      match advance Buffers.device fuel 0 [p] (.fresh (.ofInput input)) with
      | .completed k t => some ⟨.ok (.completed k), t⟩
      | .failed fault _ t => some ⟨.error fault, t⟩
      | .suspended _ _ _ => none := by
  simp only [execute, run, Option.getD_none]
  cases advance Buffers.device fuel 0 [p] (.fresh (.ofInput input)) <;> rfl

end Machine

namespace Unbounded

variable {p : Program} {input : List UInt8}

/-- The two machines after the same number of steps from the start of a program. -/
theorem follows_start (m : Nat) (p : Program) (input : List UInt8) :
    Follows (run m (.running [p] (.fresh input)))
      (Machine.advance Buffers.device m 0 [p] (.fresh (.ofInput input))) :=
  follows_advance m 0 ⟨[p], .fresh (.ofInput input)⟩ (Agrees.fresh input)

/-- What a number of steps from the start leads to on the two machines if nothing leaves the word:
both have ended in the same way, or both are still running. -/
theorem execute_cases (hword : ¬ Machine.Overflows p input) (m : Nat) :
    (∃ e r u, Machine.execute m none p input = some r ∧ e.Describes r.result ∧
        run (m + 1) (.running [p] (.fresh input)) = .ended e u ∧ r.state.streams = u.streams) ∨
      Machine.execute m none p input = none ∧
        ∃ K u, run m (.running [p] (.fresh input)) = .running K u := by
  have hfollows := follows_start m p input
  have hr := Machine.execute_eq m p input
  rw [run_succ_eq_step]
  cases ha : Machine.advance Buffers.device m 0 [p] (.fresh (.ofInput input)) with
  | completed k t =>
      rw [ha] at hfollows hr
      rcases hfollows with ⟨u, hu, hstreams⟩
      exact Or.inl ⟨.completed, _, u, hr, .completed k, hu, hstreams⟩
  | failed fault k t =>
      rw [ha] at hfollows hr
      -- every other failure of the run would be one of the word
      have hfatal : fault.isFatal = true → False := fun h => hword ⟨m, _, hr, h⟩
      cases fault with
      | stream e => exact (hfatal hfollows).elim
      | tape e =>
          cases e with
          | underflow pointer offset =>
              rcases hfollows with ⟨u, hu, hstreams⟩
              exact Or.inl ⟨.underflowed, _, u, hr, .underflowed pointer offset, hu, hstreams⟩
          | overflow e => exact (hfatal rfl).elim
  | suspended K k t =>
      rw [ha] at hfollows hr
      rcases hfollows with ⟨u, hu, -⟩
      exact Or.inr ⟨hr, K, u, hu⟩

/-- A program ends in a way on one machine if and only if it does on the other, with the same
output, as long as nothing leaves the word. -/
theorem ends_iff (hword : ¬ Machine.Overflows p input) (e : End) (output : Array UInt8) :
    Machine.Ends e p input output ↔
      ∃ n u, run n (.running [p] (.fresh input)) = .ended e u ∧ u.streams.output = output := by
  constructor
  · rintro ⟨fuel, r, hr, hdescribes, rfl⟩
    rcases execute_cases hword fuel with ⟨e', r', u, hr', hdescribes', hu, hstreams⟩ | ⟨hr', -⟩
    · rw [hr] at hr'
      cases hr'
      rw [hdescribes'.unique hdescribes] at hu
      exact ⟨fuel + 1, u, hu, by rw [hstreams]⟩
    · rw [hr] at hr'
      cases hr'
  · rintro ⟨n, u, hn, rfl⟩
    rcases execute_cases hword n with ⟨e', r, u', hr, hdescribes, hu', hstreams⟩ | ⟨-, K, u', hu'⟩
    · rw [run_succ_eq_step, hn, step] at hu'
      cases hu'
      exact ⟨n, r, hr, hdescribes, by rw [hstreams]⟩
    · rw [hn] at hu'
      cases hu'

end Unbounded

end TapeLang
