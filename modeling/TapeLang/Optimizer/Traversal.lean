import TapeLang.Program

/-!
# Bottom-up traversal

Four of the five passes change one sequence at a time and are applied to every sequence of a
program, the bodies of its loops before the sequence that holds them. `walkBodies` is that traversal
for the bodies; it also returns each sequence as it was handed to the function, in order, so that a
pass can say what it found where. `everywhere` adds the program itself as the last sequence.
-/

set_option autoImplicit false

namespace TapeLang.Program

/-- The program with `f` applied to every loop body, innermost first, and the sequences that `f` was
applied to, in that order. -/
def walkBodies (f : Program → Program) : Program → Program × List Program
  | done => (done, [])
  | op o rest =>
      let r := walkBodies f rest
      (op o r.1, r.2)
  | loop body rest =>
      let b := walkBodies f body
      let r := walkBodies f rest
      (loop (f b.1) r.1, b.2 ++ b.1 :: r.2)

/-- The program with `f` applied to every loop body, innermost first. -/
def mapBodies (f : Program → Program) (p : Program) : Program := (walkBodies f p).1

@[simp] theorem mapBodies_done (f : Program → Program) : mapBodies f done = done := rfl

@[simp] theorem mapBodies_op (f : Program → Program) (o : Op) (rest : Program) :
    mapBodies f (op o rest) = op o (mapBodies f rest) := rfl

@[simp] theorem mapBodies_loop (f : Program → Program) (body rest : Program) :
    mapBodies f (loop body rest) = loop (f (mapBodies f body)) (mapBodies f rest) := rfl

/-- The sequences inside loops that `f` is applied to, innermost first. -/
def visitedBodies (f : Program → Program) (p : Program) : List Program := (walkBodies f p).2

@[simp] theorem visitedBodies_done (f : Program → Program) : visitedBodies f done = [] := rfl

@[simp] theorem visitedBodies_op (f : Program → Program) (o : Op) (rest : Program) :
    visitedBodies f (op o rest) = visitedBodies f rest := rfl

@[simp] theorem visitedBodies_loop (f : Program → Program) (body rest : Program) :
    visitedBodies f (loop body rest) =
      visitedBodies f body ++ mapBodies f body :: visitedBodies f rest := rfl

/-- The program with `f` applied to every sequence, innermost first. -/
def everywhere (f : Program → Program) (p : Program) : Program := f (mapBodies f p)

/-- The sequences that `everywhere` applies `f` to, innermost first. -/
def visited (f : Program → Program) (p : Program) : List Program :=
  let r := walkBodies f p
  r.2 ++ [r.1]

theorem visited_eq (f : Program → Program) (p : Program) :
    visited f p = visitedBodies f p ++ [mapBodies f p] := rfl

end TapeLang.Program
