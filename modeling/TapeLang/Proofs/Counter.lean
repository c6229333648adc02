import TapeLang.Machine.Session
import TapeLang.Proofs.Turns

/-!
# The step counter of a session

A session counts the steps of all its runs in one counter, and the steps of a run are a difference
of two counts. So a run is the same wherever the counter stands: it reports what a run of its own
reports, and the counter goes up by its steps (`Interpreter.run_eq`). A session is the same too
(`Interpreter.play_eq_play`), and its runs are those that start from the machine that the run before
has left, each with its own steps (`play_ok`).
-/

set_option autoImplicit false

namespace TapeLang.Machine

variable {σ ε : Type}

/-! ## Runs -/

/-- The steps that have been counted. -/
def Progress.steps : Progress σ → Nat
  | .completed steps _ => steps
  | .failed _ steps _ => steps
  | .suspended _ steps _ => steps

/-- The same standing of a run, if `k` steps had been counted before it began. -/
def Progress.countedFrom (k : Nat) : Progress σ → Progress σ
  | .completed steps s => .completed (k + steps) s
  | .failed fault steps s => .failed fault (k + steps) s
  | .suspended frames steps s => .suspended frames (k + steps) s

theorem advance_countedFrom (D : Device σ) (m k : Nat) (c : Config σ) :
    c.advance D m k = (c.advance D m 0).countedFrom k := by
  rcases advance_cases D m 0 c with ⟨n, c', hn, hturns, hend, heq⟩ |
    ⟨n, c', fault, t, hn, hturns, hend, heq⟩ | ⟨c', hturns, hmore, heq⟩
  · rw [heq, hturns.completed hend hn k, Nat.zero_add, Progress.countedFrom]
  · rw [heq, hturns.failed hend hn k, Nat.zero_add, Progress.countedFrom, Nat.add_assoc]
  · rw [heq, hturns.suspended hmore k, Nat.zero_add, Progress.countedFrom]

/-- Wherever the counter stands, a run ends as a run of its own does, and the counter goes up by its
steps. -/
theorem Interpreter.run_eq (D : Device σ) (fuel : Nat) (limit : Option Nat) (p : Program)
    (m : Interpreter σ) :
    m.run D fuel limit p = (Machine.run D fuel limit p m.state).map fun r =>
      (r, ⟨r.state, m.steps + (advance D (limit.getD fuel) 0 [p] m.state).steps⟩) := by
  have hcounted : advance D (limit.getD fuel) m.steps [p] m.state =
      (advance D (limit.getD fuel) 0 [p] m.state).countedFrom m.steps :=
    advance_countedFrom D _ m.steps ⟨[p], m.state⟩
  rw [Interpreter.run, hcounted, Machine.run]
  cases advance D (limit.getD fuel) 0 [p] m.state with
  | completed steps s =>
      simp only [Progress.countedFrom, Nat.add_sub_cancel_left]
      rfl
  | failed fault steps s => rfl
  | suspended frames steps s =>
      simp only [Progress.countedFrom, Nat.add_sub_cancel_left]
      cases limit.isSome <;> rfl

/-! ## Sessions -/

/-- Wherever the counter stands, the runs of a session are the same. -/
theorem Interpreter.play_eq_play (D : Device σ) (fuel : Nat) (jobs : List (Except ε Job)) :
    ∀ m : Interpreter σ, Interpreter.play D fuel jobs m = Machine.play D fuel jobs m.state := by
  induction jobs with
  | nil => exact fun _ => rfl
  | cons job jobs ih =>
      intro m
      rw [Machine.play]
      cases job with
      | error e => rw [Interpreter.play, Interpreter.play, ih m, ih ⟨m.state, 0⟩]
      | ok job =>
          rw [Interpreter.play, Interpreter.play, run_eq, run_eq]
          cases Machine.run D fuel job.limit job.program m.state with
          | none => rfl
          | some r =>
              -- the two counters differ, and by induction what follows does not
              simp only [Option.map_some, Option.bind_eq_bind, Option.bind_some, ih]

section Equations

variable (D : Device σ) (fuel : Nat) (jobs : List (Except ε Job)) (s : State σ)

theorem play_error (e : ε) :
    play D fuel (.error e :: jobs) s = (play D fuel jobs s).map (.error e :: ·) := by
  rw [play, Interpreter.play, Interpreter.play_eq_play]
  cases play D fuel jobs s <;> rfl

/-- A run of a session starts on the machine that the run before has left. -/
theorem play_ok (job : Job) :
    play D fuel (.ok job :: jobs) s = (run D fuel job.limit job.program s).bind fun r =>
      if r.isFatal then some [.ok r] else (play D fuel jobs r.state).map (.ok r :: ·) := by
  rw [play, Interpreter.play, Interpreter.run_eq]
  cases run D fuel job.limit job.program s with
  | none => rfl
  | some r =>
      simp only [Option.map_some, Option.bind_eq_bind, Option.bind_some,
        Interpreter.play_eq_play]
      split
      · rfl
      · cases play D fuel jobs r.state <;> rfl

end Equations

end TapeLang.Machine
