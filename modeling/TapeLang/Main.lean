import TapeLang.CommandLine.Report

/-!
# The command

The outer layer: it gathers what a command finds around it, lets `TapeLang.CommandLine` decide, and
writes what was decided. A program that is run is advanced one step at a time, so that its output
appears as it is written and its input is read when it is asked for.
-/

set_option autoImplicit false

namespace TapeLang.CommandLine

/-- Why a failed system call could not use a path as a file. -/
def FileFault.ofError (e : IO.Error) : FileFault :=
  match e with
  | .noFileOrDirectory .. => .missing
  | .permissionDenied .. => .other "Permission denied (os error 13)"
  | .inappropriateType _ code _ =>
      if code = 20 || code = 0 - 20 then .notDirectory else .isDirectory
  | .invalidArgument _ code details =>
      if code = 36 || code = 0 - 36 then .nameTooLong else .other details
  | e => .other (toString e)

/-- The content of a file, or why it cannot be read. -/
def readFile (path : String) : IO (Except FileFault ByteArray) := do
  try
    return .ok (← IO.FS.readBinFile path)
  catch e => return .error (.ofError e)

/-- Whether messages are coloured: on a terminal, unless the environment forbids it. -/
def wantsColour : IO Bool := do
  let forbidden ← IO.getEnv "NO_COLOR"
  if forbidden.isSome then return false
  (← IO.getStdout).isTty

/-- What a command finds around it. Of the files only its source is looked at, and nothing is known
about the one it will write. -/
def gather (o : Options) : IO World := do
  let source ←
    match o.sourceFile with
    | some path => readFile path
    | none => pure (.error .missing)
  return { colour := ← wantsColour, stdin := [], read := fun _ => source, refuses := fun _ => none }

/-- Writes a report, and returns its exit code. -/
def Report.write (w : World) (r : Report) : IO UInt32 := do
  let stdout ← IO.getStdout
  stdout.write r.stdout
  stdout.flush
  IO.eprint r.stderr
  if let some (path, content) := r.file then
    try
      IO.FS.writeBinFile path content
    catch e =>
      IO.eprint (Failure.text w.colour (.unwritable (.ofError e)))
      return 1
  return r.exit.toUInt32

/-- Writes out what a program has written so far. -/
def drain (s : Machine.State Buffers) : IO (Machine.State Buffers) := do
  if s.streams.output.isEmpty then return s
  let stdout ← IO.getStdout
  stdout.write ⟨s.streams.output⟩
  stdout.flush
  return { s with streams := { s.streams with output := #[] } }

/-- Hands a program that is about to read the next piece of the standard input. -/
def feed (s : Machine.State Buffers) : IO (Machine.State Buffers) := do
  let s ← drain s
  let piece ← (← IO.getStdin).read 4096
  return { s with streams := { s.streams with input := piece.toList } }

/-- Runs a program step by step to its end. -/
partial def interpret (o : Options) (taken : Nat) (frames : List Program)
    (s : Machine.State Buffers) : IO (Machine.Run Buffers) := do
  let s ←
    match Machine.next frames with
    | .op .input _ => if o.input.isNone && s.streams.input.isEmpty then feed s else drain s
    | _ => if s.streams.output.size < 4096 then pure s else drain s
  let fuel := if o.maxSteps.any (· ≤ taken) then 0 else 1
  match Machine.advance Buffers.device fuel taken frames s with
  | .completed steps s => return Machine.conclude Buffers.device (.completed steps) s
  | .failed fault _ s => return Machine.abandon Buffers.device fault s
  | .suspended frames steps s =>
      if fuel = 0 then return Machine.conclude Buffers.device (.outOfSteps steps) s
      else interpret o steps frames s

/-- Runs a command with the given options. -/
def perform (o : Options) : IO UInt32 := do
  let w ← gather o
  match o.prepare w with
  | .error f => (Report.failure w .empty f).write w
  | .ok (p, log) =>
      if o.verbose then
        for record in log.map Event.toRecord do
          if record.level = .debug then IO.eprintln record.line
      if o.generates then (o.generate w p).write w
      else
        let r ← interpret o 0 [p] (.fresh (.ofInput (o.programInput w)))
        (Report.interpreted w r).write w

end TapeLang.CommandLine

/-- Runs the command that the arguments describe. -/
def main (args : List String) : IO UInt32 := do
  match TapeLang.CommandLine.Options.parse args with
  | .ok o => TapeLang.CommandLine.perform o
  | .error .version =>
      IO.print TapeLang.CommandLine.versionText
      return 0
  | .error .usage =>
      IO.eprintln "usage: give a source with --src TEXT or --src-file PATH"
      return 2
