import TapeLang.Word

/-!
# The tape

A tape is a row of byte cells that begins at cell zero and has no end, with a pointer at one of
them. Only the cells up to the last one that ever held a nonzero byte are stored; every cell beyond
them is zero (`Tape.cell`). Storing zero there, reading and moving store nothing.

Cells are named by their offset from the pointer. An offset that leads left of cell zero is an
underflow, and one that leads out of the word is an overflow; both leave the tape as it was. The
number of stored cells has to fit in a word, so a nonzero byte in the last cell that a word can name
is an overflow too.
-/

set_option autoImplicit false

namespace TapeLang

/-- Why a cell cannot be used. -/
inductive TapeFault where
  /-- The offset leads left of cell zero. -/
  | underflow (pointer : Nat) (offset : Int)
  /-- The position of the cell, or the number of cells up to it, is too large. -/
  | overflow (e : Overflow)
  deriving DecidableEq, Repr

/-- The stored cells and the pointer. -/
structure Tape where
  cells : Array UInt8
  pointer : Nat
  deriving DecidableEq, Repr

namespace Tape

/-- A new tape. -/
def empty : Tape := ⟨#[], 0⟩

/-- The byte of a cell. -/
def cell (t : Tape) (i : Nat) : UInt8 := t.cells.getD i 0

/-- The byte under the pointer. -/
def current (t : Tape) : UInt8 := t.cell t.pointer

/-- The stored cells without the zeros at their end. -/
def trimmed (t : Tape) : Array UInt8 := t.cells.popWhile (· = 0)

/-- The cell at an offset from the pointer. -/
def index (t : Tape) (offset : Int) : Except TapeFault Nat :=
  let i := (t.pointer : Int) + offset
  if Word.fits i then
    if i < 0 then .error (.underflow t.pointer offset) else .ok i.toNat
  else .error (.overflow .addition)

/-- Whether a byte can be stored in a cell. -/
def hasRoom (i : Nat) (v : UInt8) : Bool := v = 0 || (i : Int) < Word.greatest

/-- The tape with a byte stored in a cell that has room for it. -/
def put (t : Tape) (i : Nat) (v : UInt8) : Tape :=
  if h : i < t.cells.size then { t with cells := t.cells.set i v h }
  else if v = 0 then t
  else { t with cells := (t.cells ++ Array.replicate (i - t.cells.size) 0).push v }

/-- The byte at an offset from the pointer. -/
def get (t : Tape) (offset : Int) : Except TapeFault UInt8 :=
  match t.index offset with
  | .ok i => .ok (t.cell i)
  | .error e => .error e

/-- The cell at an offset from the pointer, and the byte that `f` makes of the one in it. -/
def revise (t : Tape) (offset : Int) (f : UInt8 → UInt8) : Except TapeFault (Nat × UInt8) :=
  match t.index offset with
  | .error e => .error e
  | .ok i =>
      let v := f (t.cell i)
      if hasRoom i v then .ok (i, v) else .error (.overflow .capacity)

/-- The tape with a byte stored at an offset from the pointer. -/
def set (t : Tape) (offset : Int) (v : UInt8) : Except TapeFault Tape :=
  match t.revise offset fun _ => v with
  | .ok (i, v) => .ok (t.put i v)
  | .error e => .error e

/-- The tape with the pointer moved. -/
def shift (t : Tape) (amount : Int) : Except TapeFault Tape :=
  match t.index amount with
  | .ok i => .ok { t with pointer := i }
  | .error e => .error e

/-- Every cell of a new tape is zero. -/
@[simp] theorem cell_empty (i : Nat) : empty.cell i = 0 := rfl

/-- A write changes the cell it names and no other, whether that cell was stored before or not. -/
theorem cell_put (t : Tape) (i j : Nat) (v : UInt8) :
    (t.put i v).cell j = if j = i then v else t.cell j := by
  unfold put cell
  split
  next h =>
    simp only [Array.getD_eq_getD_getElem?, Array.getElem?_set]
    by_cases hij : i = j
    · simp [hij]
    · simp [hij, Ne.symm hij]
  next h =>
    split
    next hv =>
      by_cases hij : j = i
      · subst hij
        simp [Array.getD_eq_getD_getElem?, Array.getElem?_eq_none (Nat.le_of_not_lt h), hv]
      · simp [hij]
    next =>
      simp only [Array.getD_eq_getD_getElem?, Array.getElem?_push, Array.getElem?_append,
        Array.getElem?_replicate, Array.size_append, Array.size_replicate]
      grind

/-- A write never moves the pointer. -/
@[simp] theorem pointer_put (t : Tape) (i : Nat) (v : UInt8) : (t.put i v).pointer = t.pointer := by
  unfold put
  split
  · rfl
  · split <;> rfl

end Tape

end TapeLang
