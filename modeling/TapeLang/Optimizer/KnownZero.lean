import TapeLang.Program

/-!
# Loops on a zero cell

A loop, a `setZero` or a `multiply` does nothing while the current cell is zero. The tape starts out
all zero, so until the program writes a cell every cell it can reach is zero. After a loop, a
`setZero` or a `multiply` the current cell is zero, until something writes to it or the pointer
moves. `removeZeroLoops` drops what runs on a cell that is zero for one of these reasons.
-/

set_option autoImplicit false

namespace TapeLang

/-- What is known about the tape: that no cell has been written yet, and that the current cell is
zero. -/
structure Known where
  untouched : Bool
  zero : Bool
  deriving DecidableEq, Repr

namespace Known

/-- A new tape. -/
def fresh : Known := ⟨true, true⟩

/-- Nothing is known, as at the start of a loop body. -/
def nothing : Known := ⟨false, false⟩

/-- The current cell was left at zero. -/
def zeroed : Known := ⟨false, true⟩

/-- What is known after an operation. -/
def after (k : Known) : Op → Known
  | .shift _ => ⟨k.untouched, k.untouched⟩
  | .add _ offset => ⟨false, k.zero && offset ≠ 0⟩
  | .input => nothing
  | .output => k
  | .setZero => zeroed
  | .multiply _ => zeroed

end Known

/-- An operation that does nothing on a zero cell. -/
def Op.idleOnZero : Op → Bool
  | .setZero => true
  | .multiply _ => true
  | _ => false

namespace Program

/-- The program without what runs on a cell known to be zero. -/
def dropZeroLoops (k : Known) : Program → Program
  | done => done
  | op o rest =>
      if k.zero && o.idleOnZero then dropZeroLoops k rest
      else op o (dropZeroLoops (k.after o) rest)
  | loop body rest =>
      if k.zero then dropZeroLoops k rest
      else loop (dropZeroLoops .nothing body) (dropZeroLoops .zeroed rest)

/-- The number of operations and loops that `dropZeroLoops` drops as a whole. -/
def zeroLoopCount (k : Known) : Program → Nat
  | done => 0
  | op o rest =>
      if k.zero && o.idleOnZero then zeroLoopCount k rest + 1
      else zeroLoopCount (k.after o) rest
  | loop body rest =>
      if k.zero then zeroLoopCount k rest + 1
      else zeroLoopCount .nothing body + zeroLoopCount .zeroed rest

/-- Drops what runs on a zero cell, in a program that starts on a new tape. -/
def removeZeroLoops (p : Program) : Program := p.dropZeroLoops .fresh

end Program

end TapeLang
