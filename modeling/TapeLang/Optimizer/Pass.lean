import TapeLang.Log
import TapeLang.Optimizer.Runs
import TapeLang.Optimizer.Clears
import TapeLang.Optimizer.Transfers
import TapeLang.Optimizer.DeadStores
import TapeLang.Optimizer.KnownZero

/-!
# Passes and sets of passes

The five passes in the order in which they run, what each does to a program (`Pass.apply`), when it
stays in the word (`Pass.inRange`) and what it reports about the program it is given
(`Pass.findings`). A set of passes says which of them are enabled.
-/

set_option autoImplicit false

namespace TapeLang

/-- The passes, in the order in which they run. -/
inductive Pass where
  | merge
  | clear
  | multiply
  | dead
  | zero
  deriving DecidableEq, Repr

/-- What the optimiser reports. -/
inductive Event where
  /-- No pass is enabled. -/
  | disabled
  /-- A pass has run on a program of `before` nodes and left `after`. -/
  | ran (pass : Pass) (before after : Nat)
  /-- A clear loop was replaced. -/
  | clearLoop
  /-- A multiply loop that changes `targets` other cells was replaced. -/
  | multiplyLoop (targets : Nat)
  /-- A sequence lost `removed` dead stores. -/
  | deadStores (removed : Nat)
  /-- Something that ran on a zero cell was dropped. -/
  | zeroLoop
  /-- A round changed nothing. -/
  | fixedPoint (round nodes : Nat)
  /-- The program that is returned. -/
  | settled (summary : String)
  /-- The last of the allowed rounds has run. -/
  | gaveUp (rounds : Nat)
  deriving DecidableEq, Repr

namespace Pass

/-- All passes, in the order in which they run. -/
def all : List Pass := [merge, clear, multiply, dead, zero]

/-- The word by which a user names a pass. -/
def word : Pass → String
  | merge => "merge"
  | clear => "clear"
  | multiply => "multiply"
  | dead => "dead"
  | zero => "zero"

/-- The pass that a word names. -/
def ofWord? (w : String) : Option Pass := all.find? fun pass => pass.word == w

/-- The name of a pass in the log. -/
def name : Pass → String
  | merge => "merge_runs"
  | clear => "clear_loops"
  | multiply => "multiply_loops"
  | dead => "dead_stores"
  | zero => "dead_loops"

/-- The name of a pass in the text of a set. -/
def label : Pass → String
  | merge => "MERGE_RUNS"
  | clear => "CLEAR_LOOPS"
  | multiply => "MULTIPLY_LOOPS"
  | dead => "DEAD_STORES"
  | zero => "DEAD_LOOPS"

/-- The number that stands for a pass in the number of a set. -/
def bit : Pass → Nat
  | merge => 1
  | clear => 2
  | multiply => 4
  | dead => 8
  | zero => 16

/-- What a pass makes of a program. -/
def apply : Pass → Program → Program
  | merge, p => p.mergeRuns
  | clear, p => p.clearLoops
  | multiply, p => p.multiplyLoops
  | dead, p => p.removeDeadStores
  | zero, p => p.removeZeroLoops

/-- Every sum that a pass forms on a program fits in a word. -/
def inRange : Pass → Program → Bool
  | merge, p => p.mergeRunsFits
  | clear, _ => true
  | multiply, p => p.multiplyLoopsFits
  | dead, p => p.removeDeadStoresFits
  | zero, _ => true

/-- What a pass reports about a program. Reports about inner sequences come first. -/
def findings : Pass → Program → List Event
  | merge, _ => []
  | clear, p =>
      (p.visited Program.clearHere).flatMap fun s => List.replicate s.clearCount .clearLoop
  | multiply, p =>
      (p.visited Program.multiplyHere).flatMap fun s => s.multiplyTargets.map .multiplyLoop
  | dead, p =>
      (p.visited Program.sweep).flatMap fun s =>
        if s.deadStoreCount = 0 then [] else [.deadStores s.deadStoreCount]
  | zero, p => List.replicate (p.zeroLoopCount .fresh) .zeroLoop

end Pass

/-- A set of passes. -/
structure PassSet where
  merge : Bool
  clear : Bool
  multiply : Bool
  dead : Bool
  zero : Bool
  deriving DecidableEq, Repr

namespace PassSet

/-- No pass. -/
def empty : PassSet := ⟨false, false, false, false, false⟩

/-- Every pass. -/
def all : PassSet := ⟨true, true, true, true, true⟩

/-- Membership. -/
def contains (s : PassSet) : Pass → Bool
  | .merge => s.merge
  | .clear => s.clear
  | .multiply => s.multiply
  | .dead => s.dead
  | .zero => s.zero

/-- The set with one more pass. -/
def insert (s : PassSet) : Pass → PassSet
  | .merge => { s with merge := true }
  | .clear => { s with clear := true }
  | .multiply => { s with multiply := true }
  | .dead => { s with dead := true }
  | .zero => { s with zero := true }

/-- The enabled passes, in the order in which they run. -/
def passes (s : PassSet) : List Pass := Pass.all.filter s.contains

/-- The set of a list of passes. -/
def ofList (passes : List Pass) : PassSet := passes.foldl insert empty

/-- The set that a list of words names, or the first word that names no pass. -/
def ofWords (words : List String) : Except String PassSet := do
  let passes ← words.mapM fun w =>
    match Pass.ofWord? w with
    | some pass => .ok pass
    | none => .error w
  return ofList passes

/-- The number of a set: the sum of the numbers of its passes. -/
def bits (s : PassSet) : Nat := s.passes.foldr (fun pass n => pass.bit + n) 0

/-- The text of a set. -/
def text (s : PassSet) : String :=
  match s.passes with
  | [] => "(empty)"
  | passes => " | ".intercalate (passes.map Pass.label)

end PassSet

/-- The record of an event. -/
def Event.toRecord : Event → Log.Record
  | .disabled => ⟨.debug, some "optimisations disabled", []⟩
  | .ran pass before after =>
      ⟨.debug, none,
        [("pass", .text pass.name), ("before", .number before), ("after", .number after)]⟩
  | .clearLoop => ⟨.trace, some "clear loop", []⟩
  | .multiplyLoop targets => ⟨.trace, some "multiply loop", [("targets", .number targets)]⟩
  | .deadStores removed => ⟨.trace, some "dead stores", [("removed", .number removed)]⟩
  | .zeroLoop => ⟨.trace, some "loop on a zero cell", []⟩
  | .fixedPoint round nodes =>
      ⟨.debug, some "reached fixed point", [("round", .number round), ("nodes", .number nodes)]⟩
  | .settled summary => ⟨.trace, none, [("program", .text summary)]⟩
  | .gaveUp rounds => ⟨.debug, some ("gave up after " ++ toString rounds ++ " rounds"), []⟩

end TapeLang
