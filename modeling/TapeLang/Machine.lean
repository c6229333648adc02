import TapeLang.Device
import TapeLang.Log
import TapeLang.Program
import TapeLang.Tape

/-!
# The machine

A machine has a tape and a device. It runs a program with a stack of frames, innermost first: the
rest of the sequence that is being run, then for each loop around it the rest of the sequence that
holds the loop, beginning with that loop. Entering a loop pushes its body; a frame that has nothing
left is popped, and the loop below it tests its cell again. Running an operation is one step, and so
is each test of a loop; popping a frame is none.

`advance` takes a number of steps at most and says where the machine stands then. `run` is a whole
run with or without a step limit: it flushes the device at the end, whatever the end was. Before a
run reads a byte it flushes too.

A run without a limit need not end. `run` takes the number of steps after which it stops looking
(`fuel`) and returns nothing if the run is still going on; a run that ends returns the same for
every `fuel` that is large enough.
-/

set_option autoImplicit false

namespace TapeLang

/-- Why an operation failed. -/
inductive Fault where
  | tape (e : TapeFault)
  | stream (e : StreamError)
  deriving DecidableEq, Repr

/-- The wording of a fault. -/
def Fault.message : Fault → String
  | .tape (.underflow pointer offset) =>
      "tape underflow: cell " ++ toString pointer ++ " offset by " ++ toString offset ++
        " is left of the first cell"
  | .tape (.overflow e) => e.message
  | .stream e => "I/O error: " ++ e.text

/-- A fault after which nothing more can be run: something has left the word. -/
def Fault.isFatal : Fault → Bool
  | .tape (.overflow _) => true
  | _ => false

namespace Machine

variable {σ : Type}

/-- The tape and the state of the device. -/
structure State (σ : Type) where
  tape : Tape
  streams : σ

/-- A new tape and a device. -/
def State.fresh (streams : σ) : State σ := ⟨.empty, streams⟩

/-- The end of one operation. -/
inductive Step (σ : Type) where
  | next (s : State σ)
  | failed (fault : Fault) (s : State σ)

/-- The next input byte, zero at the end of the input. Everything written goes out first. -/
def readByte (D : Device σ) (streams : σ) : Except StreamError UInt8 × σ :=
  match D.flush streams with
  | (.error e, streams) => (.error e, streams)
  | (.ok _, streams) =>
      match D.read streams with
      | (.ok byte, streams) => (.ok (byte.getD 0), streams)
      | (.error e, streams) =>
          if e.kind = .unexpectedEnd then (.ok 0, streams) else (.error e, streams)

/-- The tape with `origin` times its factor added to the cell of each entry, in order. If a cell
cannot be used the entries before it have been added. -/
def spread (origin : UInt8) (t : Tape) : List (Int × Int8) → Except (TapeFault × Tape) Tape
  | [] => .ok t
  | (offset, factor) :: rest =>
      match t.revise offset (· + origin * factor.toUInt8) with
      | .error e => .error (e, t)
      | .ok (i, v) => spread origin (t.put i v) rest

/-- One operation. -/
def exec (D : Device σ) : Op → State σ → Step σ
  | .shift amount, s =>
      match s.tape.index amount with
      | .error e => .failed (.tape e) s
      | .ok i => .next { s with tape := { s.tape with pointer := i } }
  | .add amount offset, s =>
      match s.tape.revise offset (· + amount.toUInt8) with
      | .error e => .failed (.tape e) s
      | .ok (i, v) => .next { s with tape := s.tape.put i v }
  | .input, s =>
      match readByte D s.streams with
      | (.error e, streams) => .failed (.stream e) { s with streams }
      | (.ok byte, streams) =>
          if Tape.hasRoom s.tape.pointer byte then
            .next ⟨s.tape.put s.tape.pointer byte, streams⟩
          else .failed (.tape (.overflow .capacity)) { s with streams }
  | .output, s =>
      match D.write s.tape.current s.streams with
      | (.error e, streams) => .failed (.stream e) { s with streams }
      | (.ok _, streams) => .next { s with streams }
  | .setZero, s => .next { s with tape := s.tape.put s.tape.pointer 0 }
  | .multiply factors, s =>
      if s.tape.current = 0 then .next s
      else
        match spread s.tape.current s.tape factors.entries with
        | .error (e, tape) => .failed (.tape e) { s with tape }
        | .ok tape => .next { s with tape := tape.put tape.pointer 0 }

/-- What a stack of frames does next. -/
inductive Next where
  /-- Nothing is left to run. -/
  | finished
  /-- An operation, and the frames after it. -/
  | op (o : Op) (frames : List Program)
  /-- The test of a loop, with the frames if the loop is entered and if it is left. -/
  | test (entered left : List Program)

/-- What a stack of frames does next. Frames with nothing left are popped. -/
def next : List Program → Next
  | [] => .finished
  | .done :: frames => next frames
  | .op o rest :: frames => .op o (rest :: frames)
  | .loop body rest :: frames =>
      .test (body :: .loop body rest :: frames) (rest :: frames)

/-- Where a machine stands after some steps. -/
inductive Progress (σ : Type) where
  /-- The program has ended. -/
  | completed (steps : Nat) (s : State σ)
  /-- The last step has failed. -/
  | failed (fault : Fault) (steps : Nat) (s : State σ)
  /-- The steps have run out, and these frames are left. -/
  | suspended (frames : List Program) (steps : Nat) (s : State σ)

/-- At most `fuel` more steps, `taken` having been taken before. -/
def advance (D : Device σ) : (fuel taken : Nat) → List Program → State σ → Progress σ
  | 0, taken, frames, s =>
      match next frames with
      | .finished => .completed taken s
      | _ => .suspended frames taken s
  | fuel + 1, taken, frames, s =>
      match next frames with
      | .finished => .completed taken s
      | .test entered left =>
          advance D fuel (taken + 1) (if s.tape.current = 0 then left else entered) s
      | .op o frames =>
          match exec D o s with
          | .next s => advance D fuel (taken + 1) frames s
          | .failed fault s => .failed fault (taken + 1) s

/-- How a run ended that did not fail. -/
inductive Outcome where
  | completed (steps : Nat)
  | outOfSteps (steps : Nat)
  deriving DecidableEq, Repr

/-- A run that has ended: how, and the machine after it. -/
structure Run (σ : Type) where
  result : Except Fault Outcome
  state : State σ

/-- The end of a run that did not fail in an operation. A flush that fails is a fault of the run. -/
def conclude (D : Device σ) (outcome : Outcome) (s : State σ) : Run σ :=
  match D.flush s.streams with
  | (.ok _, streams) => ⟨.ok outcome, { s with streams }⟩
  | (.error e, streams) => ⟨.error (.stream e), { s with streams }⟩

/-- The end of a run that failed in an operation. Whether the flush fails makes no difference. -/
def abandon (D : Device σ) (fault : Fault) (s : State σ) : Run σ :=
  ⟨.error fault, { s with streams := (D.flush s.streams).2 }⟩

/-- A run of a program with or without a step limit. Without one, nothing is returned if the program
has not ended after `fuel` steps. -/
def run (D : Device σ) (fuel : Nat) (limit : Option Nat) (p : Program) (s : State σ) :
    Option (Run σ) :=
  match advance D (limit.getD fuel) 0 [p] s with
  | .completed steps s => some (conclude D (.completed steps) s)
  | .failed fault _ s => some (abandon D fault s)
  | .suspended _ steps s =>
      if limit.isSome then some (conclude D (.outOfSteps steps) s) else none

/-- A run after which nothing more can be run. -/
def Run.isFatal (r : Run σ) : Bool :=
  match r.result with
  | .ok _ => false
  | .error fault => fault.isFatal

/-- What a run reports: nothing if it failed. -/
def Run.log (r : Run σ) : List Log.Record :=
  match r.result with
  | .ok (.completed steps) =>
      [⟨.debug, some "completed",
        [("steps", .number steps), ("pointer", .number r.state.tape.pointer)]⟩]
  | .ok (.outOfSteps steps) => [⟨.debug, some "out of steps", [("steps", .number steps)]⟩]
  | .error _ => []

end Machine

end TapeLang
