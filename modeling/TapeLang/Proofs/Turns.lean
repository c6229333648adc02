import TapeLang.Proofs.WholeRuns

/-!
# Counted turns

`Turns D n c c'` says that exactly `n` turns lead from `c` to `c'`. A run is some turns and then an
end: nothing is left, the next turn fails, or the steps have run out (`advance_cases`). So where a
run stands is said by a number of turns and by what comes after them, without the function that
counts steps down.
-/

set_option autoImplicit false

namespace TapeLang.Machine

variable {σ : Type} {D : Device σ}

/-- Exactly `n` turns lead from the one configuration to the other. -/
inductive Turns (D : Device σ) : Nat → Config σ → Config σ → Prop
  | refl (c : Config σ) : Turns D 0 c c
  | head {n : Nat} {c c₁ c₂ : Config σ} (first : turn D c = .next c₁) (later : Turns D n c₁ c₂) :
      Turns D (n + 1) c c₂

namespace Turns

variable {n : Nat} {a b : Config σ}

/-- A run goes on from where its first turns have led. -/
theorem advance_add (h : Turns D n a b) :
    ∀ m k, a.advance D (n + m) k = b.advance D m (k + n) := by
  induction h with
  | refl a =>
      intro m k
      rw [Nat.zero_add, Nat.add_zero]
  | @head n a a₁ b first _ ih =>
      intro m k
      rw [Nat.add_right_comm, advance_next first, ih]
      congr 1
      omega

end Turns

section Ends

variable {n : Nat} {c c' : Config σ} {fault : Fault} {s : State σ}

theorem Turns.completed (h : Turns D n c c') (hover : turn D c' = .finished) {m : Nat}
    (hm : n ≤ m) (k : Nat) : c.advance D m k = .completed (k + n) c'.state := by
  obtain ⟨extra, rfl⟩ := Nat.exists_eq_add_of_le hm
  rw [h.advance_add, advance_finished hover]

theorem Turns.failed (h : Turns D n c c') (hfail : turn D c' = .failed fault s) {m : Nat}
    (hm : n < m) (k : Nat) : c.advance D m k = .failed fault (k + n + 1) s := by
  obtain ⟨extra, rfl⟩ := Nat.exists_eq_add_of_lt hm
  rw [Nat.add_assoc, h.advance_add, advance_failed hfail]

theorem Turns.suspended (h : Turns D n c c') (hmore : turn D c' ≠ .finished) (k : Nat) :
    c.advance D n k = .suspended c'.frames (k + n) c'.state := by
  have hadd := h.advance_add 0 k
  rwa [Nat.add_zero, advance_zero hmore] at hadd

end Ends

/-- Where a run stands after at most `m` steps: it has ended after some turns, the turn after some
turns has failed, or it has taken `m` turns and is not over. -/
theorem advance_cases (D : Device σ) (m : Nat) : ∀ (k : Nat) (c : Config σ),
    (∃ n c', n ≤ m ∧ Turns D n c c' ∧ turn D c' = .finished ∧
        c.advance D m k = .completed (k + n) c'.state) ∨
      (∃ n c' fault s, n < m ∧ Turns D n c c' ∧ turn D c' = .failed fault s ∧
        c.advance D m k = .failed fault (k + n + 1) s) ∨
      ∃ c', Turns D m c c' ∧ turn D c' ≠ .finished ∧
        c.advance D m k = .suspended c'.frames (k + m) c'.state := by
  induction m with
  | zero =>
      intro k c
      by_cases hover : turn D c = .finished
      · exact Or.inl ⟨0, c, Nat.le_refl 0, .refl c, hover, advance_finished hover 0 k⟩
      · exact Or.inr (Or.inr ⟨c, .refl c, hover, advance_zero hover k⟩)
  | succ m ih =>
      intro k c
      cases hturn : turn D c with
      | finished =>
          exact Or.inl ⟨0, c, Nat.zero_le _, .refl c, hturn, advance_finished hturn _ k⟩
      | failed fault s =>
          exact Or.inr (Or.inl ⟨0, c, fault, s, Nat.zero_lt_succ m, .refl c, hturn,
            advance_failed hturn m k⟩)
      | next c₁ =>
          -- one turn, and then the run of what is left
          rw [advance_next hturn]
          rcases ih (k + 1) c₁ with ⟨n, c', hn, hturns, hend, heq⟩ |
            ⟨n, c', fault, s, hn, hturns, hend, heq⟩ | ⟨c', hturns, hend, heq⟩
          · refine Or.inl ⟨n + 1, c', Nat.succ_le_succ hn, .head hturn hturns, hend, ?_⟩
            rw [heq, Nat.add_right_comm, Nat.add_assoc]
          · refine Or.inr (Or.inl ⟨n + 1, c', fault, s, Nat.succ_lt_succ hn, .head hturn hturns,
              hend, ?_⟩)
            rw [heq, Nat.add_right_comm k 1 n, Nat.add_assoc k n 1]
          · refine Or.inr (Or.inr ⟨c', .head hturn hturns, hend, ?_⟩)
            rw [heq, Nat.add_right_comm, Nat.add_assoc]

/-! ## Runs without a limit -/

/-- A run without a limit ends in this way. -/
def Halts (D : Device σ) (p : Program) (s : State σ) (r : Run σ) : Prop :=
  ∃ fuel, run D fuel none p s = some r

/-- The machine after a flush of its device. -/
def State.flushed (D : Device σ) (s : State σ) : State σ :=
  { s with streams := (D.flush s.streams).2 }

theorem conclude_of_flush {s : State σ} (h : (D.flush s.streams).1 = .ok ()) (outcome : Outcome) :
    conclude D outcome s = ⟨.ok outcome, s.flushed D⟩ := by
  rw [conclude, State.flushed]
  rcases hf : D.flush s.streams with ⟨result, streams⟩
  rw [hf] at h
  cases h
  rfl

/-- A run without a limit ends after some turns, or in the turn after some turns. -/
theorem halts_iff (p : Program) (s : State σ) (r : Run σ) :
    Halts D p s r ↔
      (∃ n c, Turns D n ⟨[p], s⟩ c ∧ turn D c = .finished ∧
        r = conclude D (.completed n) c.state) ∨
      ∃ n c fault t, Turns D n ⟨[p], s⟩ c ∧ turn D c = .failed fault t ∧ r = abandon D fault t := by
  constructor
  · rintro ⟨fuel, hr⟩
    rcases advance_cases D fuel 0 ⟨[p], s⟩ with ⟨n, c, -, hturns, hend, heq⟩ |
      ⟨n, c, fault, t, -, hturns, hend, heq⟩ | ⟨c, -, -, heq⟩
    · rw [run_of_completed heq, Option.some.injEq, Nat.zero_add] at hr
      exact Or.inl ⟨n, c, hturns, hend, hr.symm⟩
    · rw [run_of_failed heq, Option.some.injEq] at hr
      exact Or.inr ⟨n, c, fault, t, hturns, hend, hr.symm⟩
    · have hsuspended : (advance D fuel 0 [p] s).Suspended := by
        rw [show advance D fuel 0 [p] s = _ from heq]
        trivial
      rw [(run_none_eq_none_iff fuel p s).2 hsuspended] at hr
      cases hr
  · rintro (⟨n, c, hturns, hend, rfl⟩ | ⟨n, c, fault, t, hturns, hend, rfl⟩)
    · have heq := hturns.completed hend (Nat.le_refl n) 0
      rw [Nat.zero_add] at heq
      exact ⟨n, run_of_completed heq⟩
    · exact ⟨n + 1, run_of_failed (hturns.failed hend (Nat.lt_succ_self n) 0)⟩

/-- A run that never ends takes every number of turns. -/
theorem turns_of_endless {p : Program} {s : State σ} (h : ∀ r, ¬ Halts D p s r) (m : Nat) :
    ∃ c, Turns D m ⟨[p], s⟩ c ∧ turn D c ≠ .finished := by
  rcases advance_cases D m 0 ⟨[p], s⟩ with ⟨n, c, -, hturns, hend, -⟩ |
    ⟨n, c, fault, t, -, hturns, hend, -⟩ | ⟨c, hturns, hmore, -⟩
  · exact absurd ((halts_iff p s _).2 (Or.inl ⟨n, c, hturns, hend, rfl⟩)) (h _)
  · exact absurd ((halts_iff p s _).2 (Or.inr ⟨n, c, fault, t, hturns, hend, rfl⟩)) (h _)
  · exact ⟨c, hturns, hmore⟩

end TapeLang.Machine
