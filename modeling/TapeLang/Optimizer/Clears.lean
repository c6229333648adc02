import TapeLang.Optimizer.Traversal

/-!
# Clear loops

A loop whose body adds an odd amount to the current cell, and does nothing else, ends with the cell
at zero whatever it held: an odd step reaches zero from every byte. `clearLoops` writes `setZero` in
its place.
-/

set_option autoImplicit false

namespace TapeLang.Program

/-- A body that adds an odd amount to the current cell and does nothing else. -/
def isClearBody : Program → Bool
  | op (.add amount offset) done => offset = 0 && amount.toInt % 2 ≠ 0
  | _ => false

/-- One sequence with its clear loops replaced. -/
def clearHere : Program → Program
  | done => done
  | op o rest => op o (clearHere rest)
  | loop body rest =>
      if body.isClearBody then op .setZero (clearHere rest) else loop body (clearHere rest)

/-- The number of clear loops of one sequence. -/
def clearCount : Program → Nat
  | done => 0
  | op _ rest => clearCount rest
  | loop body rest => if body.isClearBody then clearCount rest + 1 else clearCount rest

/-- Replaces the clear loops of every sequence. -/
def clearLoops (p : Program) : Program := everywhere clearHere p

end TapeLang.Program
