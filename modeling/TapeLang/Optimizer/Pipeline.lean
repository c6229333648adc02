import TapeLang.Optimizer.Pass
import TapeLang.Program.Text

/-!
# The optimiser

A round runs the enabled passes once, in order. `optimize` runs rounds until one of them changes
nothing, at most `maxRounds` of them. The last allowed round is not compared with the program it was
given, so a program that needs all of them is reported as given up even if that round changed
nothing.

Every function here returns the program together with the log, or the overflow of a pass that would
have left the word.
-/

set_option autoImplicit false

namespace TapeLang

/-- The largest number of rounds. -/
def maxRounds : Nat := 40

namespace Pass

/-- One pass over a program, with its log. -/
def run (pass : Pass) (p : Program) : Except Overflow (Program × List Event) :=
  if pass.inRange p then
    let q := pass.apply p
    .ok (q, pass.findings p ++ [.ran pass p.nodeCount q.nodeCount])
  else .error .addition

end Pass

/-- Several passes one after the other, with their log. -/
def runPasses : List Pass → Program → Except Overflow (Program × List Event)
  | [], p => .ok (p, [])
  | pass :: passes, p => do
      let (q, log) ← pass.run p
      let (r, log') ← runPasses passes q
      return (r, log ++ log')

namespace PassSet

/-- One round. -/
def round (s : PassSet) (p : Program) : Except Overflow (Program × List Event) :=
  runPasses s.passes p

/-- Rounds until one changes nothing. The current round has the number `number`, and at most `more`
follow it. -/
def settle (s : PassSet) : (more number : Nat) → Program → Except Overflow (Program × List Event)
  | 0, _, p => do
      let (q, log) ← s.round p
      return (q, log ++ [.gaveUp maxRounds])
  | more + 1, number, p => do
      let (q, log) ← s.round p
      if q = p then
        return (q, log ++ [.fixedPoint number q.nodeCount, .settled q.summary])
      else
        let (r, log') ← s.settle more (number + 1) q
        return (r, log ++ log')

/-- The program that the enabled passes make of a program, and the log of how. -/
def optimize (s : PassSet) (p : Program) : Except Overflow (Program × List Event) :=
  if s = empty then .ok (p, [.disabled]) else s.settle (maxRounds - 1) 1 p

end PassSet

end TapeLang
