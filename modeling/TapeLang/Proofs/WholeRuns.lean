import TapeLang.Proofs.Simulation

/-!
# Whole runs

A whole run is some steps and a last flush. What refinement says about steps therefore holds of
whole runs: a run that completes is matched by one that completes, a run that ends with a failure of
the device by one that ends with the same failure, and a run that never ends by one that never ends.
The last flush meets equal devices, so that it ends in the same way too.
-/

set_option autoImplicit false

namespace TapeLang.Machine

variable {σ : Type} {D : Device σ}

/-! ## Runs and steps -/

theorem run_of_completed {fuel k : Nat} {limit : Option Nat} {p : Program} {s t : State σ}
    (h : advance D (limit.getD fuel) 0 [p] s = .completed k t) :
    run D fuel limit p s = some (conclude D (.completed k) t) := by
  simp only [run, h]

theorem run_of_failed {fuel k : Nat} {limit : Option Nat} {p : Program} {s t : State σ}
    {fault : Fault} (h : advance D (limit.getD fuel) 0 [p] s = .failed fault k t) :
    run D fuel limit p s = some (abandon D fault t) := by
  simp only [run, h]

theorem run_some_of_suspended {fuel m k : Nat} {p : Program} {s t : State σ}
    {frames : List Program} (h : advance D m 0 [p] s = .suspended frames k t) :
    run D fuel (some m) p s = some (conclude D (.outOfSteps k) t) := by
  simp only [run, Option.getD_some, h, Option.isSome_some, if_true]

theorem run_none_eq_none_iff (fuel : Nat) (p : Program) (s : State σ) :
    run D fuel none p s = none ↔ (advance D fuel 0 [p] s).Suspended := by
  rw [run, Option.getD_none]
  cases advance D fuel 0 [p] s <;> simp [Progress.Suspended]

/-- A run without a limit ends in one way only. -/
theorem run_none_unique {m n : Nat} {p : Program} {s : State σ} {r r' : Run σ}
    (h : run D m none p s = some r) (h' : run D n none p s = some r') : r = r' := by
  have hmono : ∀ {m n : Nat} {r : Run σ}, m ≤ n → run D m none p s = some r →
      run D n none p s = some r := by
    intro m n r hmn hm
    have hended : ¬ (advance D m 0 [p] s).Suspended := by
      rw [← run_none_eq_none_iff, hm]
      exact Option.some_ne_none r
    have hadvance : advance D n 0 [p] s = advance D m 0 [p] s :=
      advance_mono D hmn 0 ⟨[p], s⟩ hended
    rw [← hm, run, run, Option.getD_none, Option.getD_none, hadvance]
  rcases Nat.le_total m n with hmn | hnm
  · exact Option.some.inj ((hmono hmn h).symm.trans h')
  · exact Option.some.inj (h.symm.trans (hmono hnm h'))

/-- The last flush decides whether a run that did not fail before is a success. -/
theorem conclude_result (outcome : Outcome) (s : State σ) :
    (conclude D outcome s).result = .ok outcome ∨
      ∃ e, (conclude D outcome s).result = .error (.stream e) := by
  rw [conclude]
  rcases D.flush s.streams with ⟨result, streams⟩
  cases result with
  | ok _ => exact Or.inl rfl
  | error e => exact Or.inr ⟨e, rfl⟩

theorem tape_conclude (outcome : Outcome) (t : State σ) :
    (conclude D outcome t).state.tape = t.tape := by
  rw [conclude]
  split <;> rfl

/-- The last flush meets equal devices in the same way. -/
theorem conclude_same {s s' : State σ} (h : s.Same s') (outcome outcome' : Outcome) :
    (conclude D outcome s).state.Same (conclude D outcome' s').state ∧
      ∀ fault, (conclude D outcome s).result = .error fault ↔
        (conclude D outcome' s').result = .error fault := by
  rw [conclude, conclude, ← h.streams_eq]
  rcases D.flush s.streams with ⟨result, streams⟩
  cases result with
  | ok _ => exact ⟨⟨rfl, h.tape⟩, fun fault => by simp⟩
  | error e => exact ⟨⟨rfl, h.tape⟩, fun fault => Iff.rfl⟩

theorem conclude_completed {s s' : State σ} (h : s.Same s') {k n : Nat} (k' : Nat)
    (hk : (conclude D (.completed k) s).result = .ok (.completed n)) :
    k = n ∧ (conclude D (.completed k') s').result = .ok (.completed k') := by
  have hsame := (conclude_same (D := D) h (.completed k) (.completed k')).2
  rcases conclude_result (D := D) (.completed k) s with hresult | ⟨e, hresult⟩
  · rcases conclude_result (D := D) (.completed k') s' with hresult' | ⟨e, hresult'⟩
    · rw [hresult] at hk
      cases hk
      exact ⟨rfl, hresult'⟩
    · rw [(hsame (.stream e)).2 hresult'] at hk
      cases hk
  · rw [hresult] at hk
    cases hk

/-! ## Refinement of runs -/

namespace Refines

variable {p q : Program} {s s' : State σ}

/-- A run that completes within a limit is matched by one within the same limit. -/
theorem run_completed (h : Refines D ⟨[p], s⟩ ⟨[q], s'⟩) {fuel n : Nat} {limit : Option Nat}
    {r : Run σ} (hr : run D fuel limit p s = some r) (hn : r.result = .ok (.completed n)) :
    ∃ n' r', run D fuel limit q s' = some r' ∧ r'.result = .ok (.completed n') ∧ n' ≤ n ∧
      r.state.Same r'.state := by
  have hmatched := h.matched (limit.getD fuel)
  cases hp : advance D (limit.getD fuel) 0 [p] s with
  | completed k t =>
      rw [Config.advance, hp] at hmatched
      obtain ⟨k', t', hq, hk, ht⟩ := hmatched
      rw [run_of_completed hp, Option.some.injEq] at hr
      subst hr
      obtain ⟨rfl, hn'⟩ := conclude_completed ht k' hn
      exact ⟨k', _, run_of_completed hq, hn', hk, (conclude_same ht _ _).1⟩
  | failed fault k t =>
      rw [run_of_failed hp, Option.some.injEq] at hr
      subst hr
      cases hn
  | suspended frames k t =>
      -- such a run has no result, or one that says that the steps have run out
      cases limit with
      | none =>
          rw [(run_none_eq_none_iff fuel p s).2 (by
            rw [Option.getD_none] at hp
            rw [hp]
            trivial)] at hr
          cases hr
      | some m =>
          rw [Option.getD_some] at hp
          rw [run_some_of_suspended hp, Option.some.injEq] at hr
          subst hr
          rcases conclude_result (D := D) (.outOfSteps k) t with hresult | ⟨e, hresult⟩
          · rw [hresult] at hn
            cases hn
          · rw [hresult] at hn
            cases hn

/-- A run that ends with a failure of the device is matched by one that ends with the same. -/
theorem run_stream (h : Refines D ⟨[p], s⟩ ⟨[q], s'⟩) {fuel : Nat} {e : StreamError} {r : Run σ}
    (hr : run D fuel none p s = some r) (he : r.result = .error (.stream e)) :
    ∃ r', run D fuel none q s' = some r' ∧ r'.result = .error (.stream e) ∧
      r.state.streams = r'.state.streams := by
  have hmatched := h.matched fuel
  cases hp : advance D fuel 0 [p] s with
  | completed k t =>
      rw [Config.advance, hp] at hmatched
      obtain ⟨k', t', hq, -, ht⟩ := hmatched
      rw [run_of_completed hp, Option.some.injEq] at hr
      subst hr
      obtain ⟨hsame, hfault⟩ := conclude_same (D := D) ht (.completed k) (.completed k')
      exact ⟨_, run_of_completed hq, (hfault (.stream e)).1 he, hsame.streams_eq⟩
  | failed fault k t =>
      rw [run_of_failed hp, Option.some.injEq] at hr
      subst hr
      cases he
      rw [Config.advance, hp] at hmatched
      obtain ⟨k', t', hq, -, ht⟩ := hmatched
      refine ⟨_, run_of_failed hq, rfl, ?_⟩
      show (D.flush t.streams).2 = (D.flush t'.streams).2
      rw [ht]
  | suspended frames k t =>
      rw [(run_none_eq_none_iff fuel p s).2 (by rw [hp]; trivial)] at hr
      cases hr

/-- A run that never ends is matched by one that never ends. -/
theorem run_endless (h : Refines D ⟨[p], s⟩ ⟨[q], s'⟩)
    (hp : ∀ fuel, run D fuel none p s = none) (m : Nat) :
    run D m none q s' = none ∧ ∃ m', D.Later (advance D m 0 [q] s').state.streams
      (advance D m' 0 [p] s).state.streams := by
  have hsuspended : ∀ fuel, (advance D fuel 0 [p] s).Suspended :=
    fun fuel => (run_none_eq_none_iff fuel p s).1 (hp fuel)
  obtain ⟨hq, m', hlater⟩ := h.endless hsuspended m
  exact ⟨(run_none_eq_none_iff m q s').2 hq, m', hlater⟩

end Refines

end TapeLang.Machine
