import TapeLang.Program
import TapeLang.Word

/-!
# How much tape a program needs

Three facts about a program that do not depend on its input. Its reach is the largest distance to
the right of the pointer at which a single operation changes a cell. Its net shift is how far one
run of it moves the pointer, if that is the same for every run: a loop whose body moves the pointer
ends at a place that depends on the data. Its highest cell is the rightmost cell that a run from
cell zero can touch, if no loop moves the pointer.

The second and the third add positions up. `shiftScan` and `highestFits` follow the additions in the
order in which they are made and stop where no answer is possible any more.
-/

set_option autoImplicit false

namespace TapeLang.Program

/-- The largest offset to the right of the pointer at which an operation changes a cell. -/
def reach : Program → Nat
  | done => 0
  | op (.add _ offset) rest => max offset.toNat rest.reach
  | op (.multiply factors) rest => max (factors.greatest?.getD 0).toNat rest.reach
  | op _ rest => rest.reach
  | loop body rest => max body.reach rest.reach

/-- How far a run moves the pointer, if no loop moves it. -/
def netShift? : Program → Option Int
  | done => some 0
  | op (.shift amount) rest => rest.netShift?.map (amount + ·)
  | op _ rest => rest.netShift?
  | loop body rest => if body.netShift? = some 0 then rest.netShift? else none

/-- The rightmost position that a run from position `here` touches, if no loop moves the pointer. -/
def highestFrom? (here : Int) : Program → Option Int
  | done => some here
  | op (.shift amount) rest => (highestFrom? (here + amount) rest).map (max here)
  | op (.add _ offset) rest => (highestFrom? here rest).map (max (here + offset))
  | op (.multiply factors) rest =>
      match factors.greatest? with
      | some offset => (highestFrom? here rest).map (max (here + offset))
      | none => highestFrom? here rest
  | op _ rest => highestFrom? here rest
  | loop body rest =>
      if body.netShift? = some 0 then
        match highestFrom? here body, highestFrom? here rest with
        | some a, some b => some (max a b)
        | _, _ => none
      else none

/-- The rightmost cell that a run from cell zero touches, if no loop moves the pointer. -/
def highestCell? (p : Program) : Option Nat := (p.highestFrom? 0).map Int.toNat

/-- The sums that `netShift?` forms, from left to right: the last one, if there is an answer, and
whether all of them fit in a word. The sum so far is `total`. -/
def shiftScan (total : Int) : Program → Option Int × Bool
  | done => (some total, true)
  | op (.shift amount) rest =>
      let r := shiftScan (total + amount) rest
      (r.1, Word.fits (total + amount) && r.2)
  | op _ rest => shiftScan total rest
  | loop body rest =>
      let b := shiftScan 0 body
      if b.1 = some 0 then
        let r := shiftScan total rest
        (r.1, b.2 && r.2)
      else (none, b.2)

/-- Every position that `highestFrom?` forms, and every sum that the net shifts of its loops form,
fits in a word. -/
def highestFits (here : Int) : Program → Bool
  | done => true
  | op (.shift amount) rest => Word.fits (here + amount) && highestFits (here + amount) rest
  | op (.add _ offset) rest => Word.fits (here + offset) && highestFits here rest
  | op (.multiply factors) rest =>
      factors.greatest?.all (fun offset => Word.fits (here + offset)) && highestFits here rest
  | op _ rest => highestFits here rest
  | loop body rest =>
      let b := shiftScan 0 body
      b.2 && (b.1 ≠ some 0 || (highestFits here body && highestFits here rest))

end TapeLang.Program
