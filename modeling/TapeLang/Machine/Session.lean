import TapeLang.Device.Buffers
import TapeLang.Machine

/-!
# Sessions

A session runs programs one after the other on one machine: the tape and the device stay, and every
run begins at the start of its own program with its own step limit. The steps of all runs are
counted in one counter, and a run has taken as many as the counter has gone up since it began. A
program that could not be prepared is passed over. A run that fails does not end the session, unless
it overflows. `execute` is the shortest session, one run on a new tape with its input and output in
memory.
-/

set_option autoImplicit false

namespace TapeLang.Machine

variable {σ ε : Type}

/-- A program and its step limit. -/
structure Job where
  program : Program
  limit : Option Nat

/-- A machine between two runs of a session, and the steps that all runs so far have taken. -/
structure Interpreter (σ : Type) where
  state : State σ
  steps : Nat

/-- A run that goes on counting where the runs before it have stopped. Its limit and the steps that
it reports are counted from its own start. -/
def Interpreter.run (D : Device σ) (fuel : Nat) (limit : Option Nat) (p : Program)
    (m : Interpreter σ) : Option (Run σ × Interpreter σ) :=
  match advance D (limit.getD fuel) m.steps [p] m.state with
  | .completed steps s => some (ended steps (conclude D (.completed (steps - m.steps)) s))
  | .failed fault steps s => some (ended steps (abandon D fault s))
  | .suspended _ steps s =>
      if limit.isSome then some (ended steps (conclude D (.outOfSteps (steps - m.steps)) s))
      else none
where
  /-- What a run leaves behind, the counter standing at `steps`. -/
  ended (steps : Nat) (r : Run σ) : Run σ × Interpreter σ := (r, ⟨r.state, steps⟩)

/-- The runs of a session, in order. Nothing is returned if one of them has not ended after `fuel`
steps. -/
def Interpreter.play (D : Device σ) (fuel : Nat) :
    List (Except ε Job) → Interpreter σ → Option (List (Except ε (Run σ)))
  | [], _ => some []
  | .error e :: jobs, m => do
      let runs ← play D fuel jobs m
      return .error e :: runs
  | .ok job :: jobs, m => do
      let (r, m) ← m.run D fuel job.limit job.program
      if r.isFatal then return [.ok r]
      let runs ← play D fuel jobs m
      return .ok r :: runs

/-- The runs of a session that starts on the given tape and device. -/
def play (D : Device σ) (fuel : Nat) (jobs : List (Except ε Job)) (s : State σ) :
    Option (List (Except ε (Run σ))) :=
  Interpreter.play D fuel jobs ⟨s, 0⟩

/-- A run on a new tape, with its input and output in memory. -/
def execute (fuel : Nat) (limit : Option Nat) (p : Program) (input : List UInt8) :
    Option (Run Buffers) :=
  run Buffers.device fuel limit p (.fresh (.ofInput input))

end TapeLang.Machine
