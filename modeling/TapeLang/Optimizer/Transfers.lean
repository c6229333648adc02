import TapeLang.Optimizer.Traversal
import TapeLang.Word

/-!
# Multiply loops

A loop body that only moves and adds, comes back to where it started and takes exactly one from the
current cell runs as often as the current cell says. It adds the cell times a factor to each cell it
changes and leaves the current cell at zero. `multiplyLoops` writes a `multiply` in its place.

`tally?` adds up what a body does to each cell; it gives up at the first loop or operation that is
neither a shift nor an addition.
-/

set_option autoImplicit false

namespace TapeLang.Program

/-- What a body of shifts and additions adds to each cell, on top of `totals`, and where the pointer
ends if it starts at `here`. -/
def tally? (here : Int) (totals : Factors) : Program → Option (Int × Factors)
  | done => some (here, totals)
  | op (.shift amount) rest => tally? (here + amount) totals rest
  | op (.add amount offset) rest => tally? here (totals.bump (here + offset) amount) rest
  | _ => none

/-- The factors of a multiply loop with the given body. -/
def factors? (body : Program) : Option Factors :=
  match body.tally? 0 .empty with
  | some (stop, totals) =>
      if stop = 0 ∧ totals.get? 0 = some (-1) then
        some (totals.filter fun e => e.1 ≠ 0 && e.2 ≠ 0)
      else none
  | none => none

/-- A multiply loop comes back, takes one from the current cell and adds to other cells what is
left of the totals. -/
theorem factors?_eq_some_iff {body : Program} {factors : Factors} :
    body.factors? = some factors ↔
      ∃ totals : Factors, body.tally? 0 .empty = some (0, totals) ∧ totals.get? 0 = some (-1) ∧
        factors = totals.filter fun e => e.1 ≠ 0 && e.2 ≠ 0 := by
  rw [factors?]
  cases htally : body.tally? 0 .empty with
  | none => simp
  | some r =>
      obtain ⟨stop, totals⟩ := r
      simp only [Option.some.injEq, Prod.mk.injEq]
      constructor
      · intro h
        split at h
        next hends => exact ⟨totals, ⟨hends.1, rfl⟩, hends.2, (Option.some.inj h).symm⟩
        next => cases h
      · rintro ⟨totals, ⟨rfl, rfl⟩, htakes, rfl⟩
        rw [if_pos ⟨rfl, htakes⟩]

/-- One sequence with its multiply loops replaced. -/
def multiplyHere : Program → Program
  | done => done
  | op o rest => op o (multiplyHere rest)
  | loop body rest =>
      match body.factors? with
      | some factors => op (.multiply factors) (multiplyHere rest)
      | none => loop body (multiplyHere rest)

/-- The number of cells that each multiply loop of one sequence changes, the current cell apart. -/
def multiplyTargets : Program → List Nat
  | done => []
  | op _ rest => multiplyTargets rest
  | loop body rest =>
      match body.factors? with
      | some factors => factors.size :: multiplyTargets rest
      | none => multiplyTargets rest

/-- Replaces the multiply loops of every sequence. -/
def multiplyLoops (p : Program) : Program := everywhere multiplyHere p

/-- Every position that `tally?` forms fits in a word. -/
def tallyFits (here : Int) : Program → Bool
  | op (.shift amount) rest => Word.fits (here + amount) && tallyFits (here + amount) rest
  | op (.add _ offset) rest => Word.fits (here + offset) && tallyFits here rest
  | _ => true

/-- Every position formed while the loops of one sequence are examined fits in a word. -/
def multiplyFits : Program → Bool
  | done => true
  | op _ rest => multiplyFits rest
  | loop body rest => tallyFits 0 body && multiplyFits rest

/-- No position that `multiplyLoops` forms leaves the word. -/
def multiplyLoopsFits (p : Program) : Bool := (p.visited multiplyHere).all multiplyFits

end TapeLang.Program
