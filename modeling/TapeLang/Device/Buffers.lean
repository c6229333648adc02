import TapeLang.Device

/-!
# Input and output in memory

The device of a program that is run on a given input and whose output is collected. Nothing fails,
and a flush does nothing.
-/

set_option autoImplicit false

namespace TapeLang

/-- The input not read yet and the output written so far. -/
structure Buffers where
  input : List UInt8
  output : Array UInt8
  deriving DecidableEq, Repr

namespace Buffers

/-- Reads the first byte of the input. -/
def read : Buffers → Except StreamError (Option UInt8) × Buffers
  | ⟨[], output⟩ => (.ok none, ⟨[], output⟩)
  | ⟨b :: input, output⟩ => (.ok (some b), ⟨input, output⟩)

/-- Appends a byte to the output. -/
def write (b : UInt8) (s : Buffers) : Except StreamError Unit × Buffers :=
  (.ok (), { s with output := s.output.push b })

/-- Reading from and writing to memory. -/
def device : Device Buffers where
  read := read
  write := write
  flush := fun s => (.ok (), s)

/-- An input, and no output yet. -/
def ofInput (input : List UInt8) : Buffers := ⟨input, #[]⟩

end Buffers

end TapeLang
