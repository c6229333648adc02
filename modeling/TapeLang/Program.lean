import TapeLang.Factors

/-!
# Programs

A program is a sequence of operations and loops. It is built from the front: `done` is the empty
sequence, `op o rest` runs `o` first, and `loop body rest` repeats `body` while the cell under the
pointer is not zero and then goes on with `rest`. A loop's body is a program again, so one recursion
covers sequences and nesting alike.

`setZero` and `multiply` have no character of their own in a source text; the optimiser puts them in
place of loops that have their effect.
-/

set_option autoImplicit false

namespace TapeLang

/-- An operation that is not a loop. -/
inductive Op where
  /-- Moves the pointer. -/
  | shift (amount : Int)
  /-- Adds to the cell at an offset from the pointer. -/
  | add (amount : Int8) (offset : Int)
  /-- Stores the next input byte in the current cell, zero at the end of the input. -/
  | input
  /-- Writes the current cell. -/
  | output
  /-- Zeroes the current cell. -/
  | setZero
  /-- Adds the current cell times each factor to the cell at that factor's offset, then zeroes the
  current cell. -/
  | multiply (factors : Factors)
  deriving DecidableEq

/-- A sequence of operations and loops. -/
inductive Program where
  | done
  | op (o : Op) (rest : Program)
  | loop (body rest : Program)
  deriving DecidableEq

namespace Program

/-- The sequence `p` followed by the sequence `q`. -/
def append : Program → Program → Program
  | done, q => q
  | op o rest, q => op o (append rest q)
  | loop body rest, q => loop body (append rest q)

instance : Append Program := ⟨append⟩

@[simp] theorem done_append (q : Program) : done ++ q = q := rfl

@[simp] theorem op_append (o : Op) (p q : Program) : op o p ++ q = op o (p ++ q) := rfl

@[simp] theorem loop_append (body p q : Program) : loop body p ++ q = loop body (p ++ q) := rfl

@[simp] theorem append_done (p : Program) : p ++ done = p := by
  induction p with
  | done => rfl
  | op o rest ih => rw [op_append, ih]
  | loop body rest _ ih => rw [loop_append, ih]

theorem append_assoc (p q r : Program) : p ++ q ++ r = p ++ (q ++ r) := by
  induction p with
  | done => rfl
  | op o rest ih => rw [op_append, op_append, op_append, ih]
  | loop body rest _ ih => rw [loop_append, loop_append, loop_append, ih]

/-- The number of operations and loops of the sequence itself. -/
def length : Program → Nat
  | done => 0
  | op _ rest => rest.length + 1
  | loop _ rest => rest.length + 1

/-- The number of operations and loops, those inside loop bodies included. -/
def nodeCount : Program → Nat
  | done => 0
  | op _ rest => 1 + rest.nodeCount
  | loop body rest => 1 + body.nodeCount + rest.nodeCount

@[simp] theorem length_append (p q : Program) : (p ++ q).length = p.length + q.length := by
  induction p with
  | done => simp [length]
  | op o rest ih => simp only [op_append, length, ih]; omega
  | loop body rest _ ih => simp only [loop_append, length, ih]; omega

@[simp] theorem nodeCount_append (p q : Program) :
    (p ++ q).nodeCount = p.nodeCount + q.nodeCount := by
  induction p with
  | done => simp [nodeCount]
  | op o rest ih => simp only [op_append, nodeCount, ih]; omega
  | loop body rest _ ih => simp only [loop_append, nodeCount, ih]; omega

end Program

end TapeLang
