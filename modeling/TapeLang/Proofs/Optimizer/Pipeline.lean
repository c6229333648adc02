import TapeLang.Proofs.Optimizer.Clears
import TapeLang.Proofs.Optimizer.DeadStores
import TapeLang.Proofs.Optimizer.KnownZero
import TapeLang.Proofs.Optimizer.Rounds
import TapeLang.Proofs.Optimizer.Runs
import TapeLang.Proofs.Optimizer.Transfers

/-!
# The optimiser refines

Each pass refines the program it is given, and refinement composes, so what the optimiser makes of a
program refines it too (`refines_optimize`). The pass that drops what runs on a zero cell needs a
blank tape; a set of passes without it refines on every tape.
-/

set_option autoImplicit false

namespace TapeLang.Machine

variable {σ : Type} {D : Device σ} {s s' : State σ}

/-- One pass refines, the last one on a blank tape only. -/
theorem refines_apply (pass : Pass) (p : Program) (hs : s.Same s')
    (hblank : pass = .zero → s.tape.Blank) : Refines D ⟨[p], s⟩ ⟨[pass.apply p], s'⟩ := by
  cases pass with
  | merge => exact Improves.refines (improves_mergeRuns p) hs
  | clear => exact Improves.refines (improves_clearLoops p) hs
  | multiply => exact Improves.refines (improves_multiplyLoops p) hs
  | dead => exact Improves.refines (improves_removeDeadStores p) hs
  | zero => exact refines_removeZeroLoops p hs (hblank rfl)

/-- What the optimiser makes of a program refines the program: on a blank tape with any passes, and
on every tape without the pass that relies on a blank one. -/
theorem refines_optimize {F : PassSet} {p q : Program} {log : List Event}
    (h : F.optimize p = .ok (q, log)) (hs : s.Same s')
    (hblank : F.zero = true → s.tape.Blank) : Refines D ⟨[p], s⟩ ⟨[q], s'⟩ := by
  have hpasses : Refines D ⟨[p], s⟩ ⟨[q], s⟩ := by
    -- pass by pass, each one started on the machine that the program was started on
    have hchain := F.applies_optimize h
    clear h
    induction hchain with
    | refl => exact (Simulated.refl D p).refines (State.Same.refl s)
    | tail _ happlies ih =>
        rcases happlies with ⟨pass, henabled, rfl⟩
        refine ih.trans (refines_apply pass _ (State.Same.refl s) ?_)
        rintro rfl
        exact hblank henabled
  exact hpasses.trans ((Simulated.refl D q).refines hs)

end TapeLang.Machine
