import TapeLang.Optimizer.Traversal
import TapeLang.Word

/-!
# Dead stores

A store to a cell is dead if the cell is zeroed later in the same straight run and nothing reads it
in between. Additions and zeroings are stores. An output reads the current cell, and a multiply
reads the current cell and every cell it changes. Inputs and loops end a straight run. An addition
also reads the cell it changes, but if its own result is dead the earlier store is dead with it.

Positions count from the start of the straight run, so a store is matched although the pointer
wanders off and comes back. One sequence is swept from its end to its start: `sweepFrom` returns,
beside the sequence that is left, the positions that are zeroed before anything reads them, and it
counts the stores that it leaves out.
-/

set_option autoImplicit false

namespace TapeLang.Program

/-- What sweeping one sequence gives: the sequence that is left, the positions that it zeroes before
it reads them, and the number of stores that were dead. -/
structure Swept where
  program : Program
  zeroed : List Int
  dead : Nat

/-- One sequence swept. The pointer starts at position `here` of the straight run. -/
def sweepFrom (here : Int) : Program → Swept
  | done => ⟨done, [], 0⟩
  | loop body rest =>
      let r := sweepFrom 0 rest
      ⟨loop body r.program, [], r.dead⟩
  | op .input rest =>
      let r := sweepFrom 0 rest
      ⟨op .input r.program, [], r.dead⟩
  | op (.shift amount) rest =>
      let r := sweepFrom (here + amount) rest
      ⟨op (.shift amount) r.program, r.zeroed, r.dead⟩
  | op (.add amount offset) rest =>
      let r := sweepFrom here rest
      if here + offset ∈ r.zeroed then ⟨r.program, r.zeroed, r.dead + 1⟩
      else ⟨op (.add amount offset) r.program, r.zeroed, r.dead⟩
  | op .setZero rest =>
      let r := sweepFrom here rest
      if here ∈ r.zeroed then ⟨r.program, r.zeroed, r.dead + 1⟩
      else ⟨op .setZero r.program, here :: r.zeroed, r.dead⟩
  | op .output rest =>
      let r := sweepFrom here rest
      ⟨op .output r.program, r.zeroed.filter (· ≠ here), r.dead⟩
  | op (.multiply factors) rest =>
      let r := sweepFrom here rest
      ⟨op (.multiply factors) r.program,
        r.zeroed.filter fun x => x ≠ here && !factors.offsets.contains (x - here), r.dead⟩

/-- One sequence without its dead stores. -/
def sweep (p : Program) : Program := (sweepFrom 0 p).program

/-- Removes the dead stores of every sequence. -/
def removeDeadStores (p : Program) : Program := everywhere sweep p

/-- The number of dead stores of one sequence. -/
def deadStoreCount (p : Program) : Nat := (sweepFrom 0 p).dead

/-- Every position formed while one sequence is swept fits in a word. -/
def sweepFits (here : Int) : Program → Bool
  | done => true
  | loop _ rest => sweepFits 0 rest
  | op .input rest => sweepFits 0 rest
  | op (.shift amount) rest => Word.fits (here + amount) && sweepFits (here + amount) rest
  | op (.add _ offset) rest => Word.fits (here + offset) && sweepFits here rest
  | op (.multiply factors) rest =>
      factors.offsets.all (fun k => Word.fits (here + k)) && sweepFits here rest
  | op _ rest => sweepFits here rest

/-- No position that `removeDeadStores` forms leaves the word. -/
def removeDeadStoresFits (p : Program) : Bool := (p.visited sweep).all (sweepFits 0)

end TapeLang.Program
