import Mathlib.Logic.Relation
import TapeLang.Optimizer.Pipeline

/-!
# What the optimiser returns

Whatever the optimiser returns has been made of the program by enabled passes, one after the other
(`applies_optimize`): rounds only decide when it stops, and the log takes no part. A property that
every pass keeps is therefore kept by the optimiser.
-/

set_option autoImplicit false

namespace TapeLang

open Relation (ReflTransGen)

theorem Pass.eq_apply_of_run {pass : Pass} {p q : Program} {log : List Event}
    (h : pass.run p = .ok (q, log)) : q = pass.apply p := by
  rw [Pass.run] at h
  split at h
  next => exact (Prod.mk.inj (Except.ok.inj h)).1.symm
  next => cases h

/-- A computation that may fail gives a result if both of its parts do. -/
theorem bind_eq_ok_iff {ε α β : Type} {x : Except ε α} {f : α → Except ε β} {b : β} :
    (x >>= f) = .ok b ↔ ∃ a, x = .ok a ∧ f a = .ok b := by
  cases x with
  | error e => simp [bind, Except.bind]
  | ok a => simp [bind, Except.bind]

/-- Several passes give a result if the first does and the others do on what the first has made. -/
theorem runPasses_cons_eq_ok_iff {pass : Pass} {passes : List Pass} {p q : Program}
    {log : List Event} :
    runPasses (pass :: passes) p = .ok (q, log) ↔
      ∃ p₁ log₁ log₂, pass.run p = .ok (p₁, log₁) ∧ runPasses passes p₁ = .ok (q, log₂) ∧
        log = log₁ ++ log₂ := by
  simp only [runPasses, bind_eq_ok_iff, pure, Except.pure, Except.ok.injEq, Prod.mk.injEq,
    Prod.exists]
  constructor
  · rintro ⟨p₁, log₁, hrun, q, log₂, hrest, rfl, rfl⟩
    exact ⟨p₁, log₁, log₂, hrun, hrest, rfl⟩
  · rintro ⟨p₁, log₁, log₂, hrun, hrest, rfl⟩
    exact ⟨p₁, log₁, hrun, q, log₂, hrest, rfl, rfl⟩

namespace PassSet

/-- An enabled pass makes one program of another. -/
def Applies (F : PassSet) (p q : Program) : Prop :=
  ∃ pass, F.contains pass = true ∧ q = pass.apply p

theorem contains_of_mem_passes {F : PassSet} {pass : Pass} (h : pass ∈ F.passes) :
    F.contains pass = true :=
  (List.mem_filter.1 h).2

theorem applies_runPasses (F : PassSet) (passes : List Pass) :
    ∀ {p q : Program} {log : List Event}, runPasses passes p = .ok (q, log) →
      (∀ pass ∈ passes, F.contains pass = true) → ReflTransGen F.Applies p q := by
  induction passes with
  | nil =>
      intro p q log h _
      cases h
      exact .refl
  | cons pass passes ih =>
      intro p q log h henabled
      obtain ⟨p₁, log₁, log₂, hrun, hrest, -⟩ := runPasses_cons_eq_ok_iff.1 h
      have hfirst : F.Applies p p₁ :=
        ⟨pass, henabled pass List.mem_cons_self, Pass.eq_apply_of_run hrun⟩
      exact .head hfirst (ih hrest fun pass' hmem => henabled pass' (List.mem_cons_of_mem _ hmem))

theorem applies_round {F : PassSet} {p q : Program} {log : List Event}
    (h : F.round p = .ok (q, log)) : ReflTransGen F.Applies p q :=
  applies_runPasses F F.passes h fun _ hmem => contains_of_mem_passes hmem

/-- The last allowed round is not compared with the program it is given. -/
theorem settle_zero_eq_ok_iff {F : PassSet} {number : Nat} {p q : Program} {log : List Event} :
    F.settle 0 number p = .ok (q, log) ↔
      ∃ log₁, F.round p = .ok (q, log₁) ∧ log = log₁ ++ [.gaveUp maxRounds] := by
  simp only [settle, bind_eq_ok_iff, pure, Except.pure, Except.ok.injEq, Prod.mk.injEq,
    Prod.exists]
  constructor
  · rintro ⟨q, log₁, hround, rfl, rfl⟩
    exact ⟨log₁, hround, rfl⟩
  · rintro ⟨log₁, hround, rfl⟩
    exact ⟨q, log₁, hround, rfl, rfl⟩

/-- A round that changes nothing is the last one; after any other the rounds go on. -/
theorem settle_succ_eq_ok_iff {F : PassSet} {more number : Nat} {p q : Program}
    {log : List Event} :
    F.settle (more + 1) number p = .ok (q, log) ↔
      ∃ p₁ log₁, F.round p = .ok (p₁, log₁) ∧
        (p₁ = p ∧ q = p ∧ log = log₁ ++ [.fixedPoint number p.nodeCount, .settled p.summary] ∨
          p₁ ≠ p ∧ ∃ log₂, F.settle more (number + 1) p₁ = .ok (q, log₂) ∧ log = log₁ ++ log₂) := by
  simp only [settle, bind_eq_ok_iff, Prod.exists]
  refine exists₂_congr fun p₁ log₁ => and_congr_right fun _ => ?_
  by_cases heq : p₁ = p
  · subst heq
    simp [pure, Except.pure, eq_comm]
  · simp only [heq, if_false, false_and, false_or, not_false_eq_true, true_and, ne_eq]
    rw [bind_eq_ok_iff]
    constructor
    · rintro ⟨⟨q, log₂⟩, hrest, hlog⟩
      cases hlog
      exact ⟨log₂, hrest, rfl⟩
    · rintro ⟨log₂, hrest, rfl⟩
      exact ⟨(q, log₂), hrest, rfl⟩

/-- Rounds until one changes nothing, by induction on the rounds that are left. -/
theorem applies_settle (F : PassSet) (more : Nat) :
    ∀ {number : Nat} {p q : Program} {log : List Event}, F.settle more number p = .ok (q, log) →
      ReflTransGen F.Applies p q := by
  induction more with
  | zero =>
      intro number p q log h
      obtain ⟨log₁, hround, -⟩ := settle_zero_eq_ok_iff.1 h
      exact applies_round hround
  | succ more ih =>
      intro number p q log h
      obtain ⟨p₁, log₁, hround, hlast | hrest⟩ := settle_succ_eq_ok_iff.1 h
      · obtain ⟨-, rfl, -⟩ := hlast
        exact .refl
      · obtain ⟨-, log₂, hrest, -⟩ := hrest
        exact (applies_round hround).trans (ih hrest)

theorem applies_optimize {F : PassSet} {p q : Program} {log : List Event}
    (h : F.optimize p = .ok (q, log)) : ReflTransGen F.Applies p q := by
  rw [optimize] at h
  split at h
  next =>
    cases h
    exact .refl
  next => exact applies_settle F _ h

end PassSet

end TapeLang
