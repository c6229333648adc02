import TapeLang.Device

/-!
# Scripted devices

A device that follows a script. The reader's script is a list of chunks: bytes that are handed out
one at a time, and failures of one read each. The writer's plan can make one write call fail, one
flush call fail, and refuse bytes beyond a limit. Calls are counted from zero over the life of the
device, failed ones included, and what reaches the writer is recorded.

Reads and writes that are interrupted are repeated at once. The reader's script gets shorter with
each repetition, and of the write calls only one can be interrupted, so neither repeats for ever.
-/

set_option autoImplicit false

namespace TapeLang

/-- A part of a reader's script. -/
inductive Chunk where
  /-- Bytes, one per read. An empty chunk is an end of the input that lasts for one read. -/
  | bytes (bytes : List UInt8)
  /-- A read that fails. -/
  | failure (e : StreamError)
  deriving DecidableEq, Repr

namespace Chunk

/-- One read of a script, and the script that is left. After its last chunk the input has ended. -/
def read : List Chunk → Except StreamError (Option UInt8) × List Chunk
  | [] => (.ok none, [])
  | .bytes [] :: rest => (.ok none, rest)
  | .bytes [b] :: rest => (.ok (some b), rest)
  | .bytes (b :: more) :: rest => (.ok (some b), .bytes more :: rest)
  | .failure e :: rest => if e.kind = .interrupted then read rest else (.error e, rest)

end Chunk

/-- What a writer does out of the ordinary. -/
structure WriterPlan where
  /-- The number of bytes after which every write takes nothing. -/
  limit : Option Nat
  /-- The write call that fails. -/
  failWrite : Option Nat
  /-- The flush call that fails. -/
  failFlush : Option Nat
  /-- How these two fail. -/
  failure : StreamError
  deriving DecidableEq, Repr

/-- What a writer has seen succeed. -/
inductive WriterEvent where
  | byte (b : UInt8)
  | flush
  deriving DecidableEq, Repr

/-- The state of a scripted device. -/
structure Script where
  chunks : List Chunk
  plan : WriterPlan
  /-- The number of write calls so far. -/
  writes : Nat
  /-- The number of flush calls so far. -/
  flushes : Nat
  /-- The number of bytes written so far. -/
  written : Nat
  /-- What reached the writer so far. -/
  events : Array WriterEvent

namespace Script

/-- A device at the start of its script. -/
def start (chunks : List Chunk) (plan : WriterPlan) : Script := ⟨chunks, plan, 0, 0, 0, #[]⟩

/-- Reads a byte. -/
def read (s : Script) : Except StreamError (Option UInt8) × Script :=
  let r := Chunk.read s.chunks
  (r.1, { s with chunks := r.2 })

/-- One write call. -/
def writeCall (b : UInt8) (s : Script) : Except StreamError Unit × Script :=
  let called := { s with writes := s.writes + 1 }
  if s.plan.failWrite = some s.writes then (.error s.plan.failure, called)
  else if s.plan.limit.any (· ≤ s.written) then (.error .nothingWritten, called)
  else (.ok (), { called with written := s.written + 1, events := s.events.push (.byte b) })

/-- Writes a byte, with one more call if the first is interrupted. -/
def write (b : UInt8) (s : Script) : Except StreamError Unit × Script :=
  match s.writeCall b with
  | (.error e, s') => if e.kind = .interrupted then s'.writeCall b else (.error e, s')
  | r => r

/-- Flushes. -/
def flush (s : Script) : Except StreamError Unit × Script :=
  let called := { s with flushes := s.flushes + 1 }
  if s.plan.failFlush = some s.flushes then (.error s.plan.failure, called)
  else (.ok (), { called with events := s.events.push .flush })

/-- Following a script. -/
def device : Device Script where
  read := read
  write := write
  flush := flush

/-- What reached the writer between two states of a device. -/
def eventsSince (before after : Script) : List WriterEvent :=
  after.events.toList.drop before.events.size

end Script

end TapeLang
