import TapeLang.Optimizer.Traversal
import TapeLang.Word

/-!
# Merging runs

Adjacent shifts become one shift, and adjacent additions at one offset become one addition. What
nets to nothing is dropped, and its neighbours may then merge in turn. `fuse` does this for one
sequence, from its end to its start, and `mergeRuns` for every sequence of a program.

Cell amounts wrap, but shift amounts are words. The sums are formed from left to right: `fuseFits`
follows that order, with the operations kept so far to the left of the current one, nearest first.
-/

set_option autoImplicit false

namespace TapeLang

/-- An operation without effect. -/
def Op.isNoOp : Op → Bool
  | .shift amount => amount = 0
  | .add amount _ => amount = 0
  | _ => false

/-- Two adjacent operations as one, if one operation has their effect. -/
def Op.join? : Op → Op → Option Op
  | .shift a, .shift b => some (.shift (a + b))
  | .add a i, .add b j => if i = j then some (.add (a + b) i) else none
  | _, _ => none

/-- Two shifts can be joined, and two additions at one offset. -/
theorem Op.join?_eq_some {o o' joined : Op} (h : o.join? o' = some joined) :
    (∃ a b, o = .shift a ∧ o' = .shift b ∧ joined = .shift (a + b)) ∨
      ∃ a b i, o = .add a i ∧ o' = .add b i ∧ joined = .add (a + b) i := by
  simp only [join?] at h
  split at h
  next a b => exact Or.inl ⟨a, b, rfl, rfl, (Option.some.inj h).symm⟩
  next a i b j =>
    split at h
    next hij => exact Or.inr ⟨a, b, i, rfl, by rw [hij], (Option.some.inj h).symm⟩
    next => cases h
  next => cases h

namespace Program

/-- An operation in front of a program, unless it has no effect. -/
def consEffective (o : Op) (rest : Program) : Program := if o.isNoOp then rest else op o rest

/-- An operation in front of a merged sequence, joined with the first operation of the sequence where
that is possible. -/
def consFused (o : Op) : Program → Program
  | op first rest =>
      match o.join? first with
      | some joined => consEffective joined rest
      | none => consEffective o (op first rest)
  | rest => consEffective o rest

/-- One sequence with its runs merged. Loop bodies stay as they are. -/
def fuse : Program → Program
  | done => done
  | op o rest => consFused o (fuse rest)
  | loop body rest => loop body (fuse rest)

/-- Merges the runs of every sequence. -/
def mergeRuns (p : Program) : Program := everywhere fuse p

/-- The operations kept to the left, nearest first, after one more operation. -/
def pushFused (left : List Op) (o : Op) : List Op :=
  match left with
  | last :: left' =>
      match last.join? o with
      | some joined => if joined.isNoOp then left' else joined :: left'
      | none => if o.isNoOp then left else o :: left
  | [] => if o.isNoOp then [] else [o]

/-- The sum that joining an operation with its left neighbour forms fits in a word. -/
def joinFits : List Op → Op → Bool
  | .shift a :: _, .shift b => Word.fits (a + b)
  | _, _ => true

/-- Every sum of shifts that merging forms, from left to right, fits in a word. Nothing merges
across a loop. -/
def fuseFits (left : List Op) : Program → Bool
  | done => true
  | op o rest => joinFits left o && fuseFits (pushFused left o) rest
  | loop _ rest => fuseFits [] rest

/-- No sum that `mergeRuns` forms leaves the word. -/
def mergeRunsFits (p : Program) : Bool := (p.visited fuse).all (fuseFits [])

end Program

end TapeLang
