/-!
# Devices

A device is what a running program reads from and writes to: three operations on a state. It reads
one byte, or finds the end of its input; it writes one byte; and it flushes. Each operation may
fail, and a failure too may change the state.

An operation is a whole exchange. A device whose underlying calls can be interrupted repeats such a
call itself, for a read or a write until it is no longer interrupted; an interrupted flush is a
failure like any other.
-/

set_option autoImplicit false

namespace TapeLang

/-- The kinds of failure that have a meaning of their own, and all others by name. -/
inductive StreamErrorKind where
  | interrupted
  | unexpectedEnd
  | writeZero
  | other (name : String)
  deriving DecidableEq, Repr

namespace StreamErrorKind

/-- The name of a kind. -/
def name : StreamErrorKind → String
  | interrupted => "Interrupted"
  | unexpectedEnd => "UnexpectedEof"
  | writeZero => "WriteZero"
  | other name => name

/-- The kind with a name. -/
def ofName (name : String) : StreamErrorKind :=
  if name = interrupted.name then interrupted
  else if name = unexpectedEnd.name then unexpectedEnd
  else if name = writeZero.name then writeZero
  else other name

end StreamErrorKind

/-- A failure of a device. -/
structure StreamError where
  kind : StreamErrorKind
  text : String
  deriving DecidableEq, Repr

/-- The failure of a write that takes no byte. -/
def StreamError.nothingWritten : StreamError := ⟨.writeZero, "failed to write whole buffer"⟩

/-- The operations of a device with states of type `σ`. -/
structure Device (σ : Type) where
  /-- The next byte, or nothing at the end of the input. -/
  read : σ → Except StreamError (Option UInt8) × σ
  /-- Writes a byte. -/
  write : UInt8 → σ → Except StreamError Unit × σ
  /-- Makes sure that everything written has gone out. -/
  flush : σ → Except StreamError Unit × σ

end TapeLang
