import TapeLang.Proofs.Steps
import TapeLang.Proofs.TapeView

/-!
# Simulation

`Refines D c c'` says that running `c'` on the device `D` is as good as running `c` and not slower.
If `c` completes, `c'` completes with the same tape and device, in no more steps; if `c` ends with a
failure of the device, so does `c'`. After any number of steps the calls that `c` has made are among
the first calls that `c'` has made in as many steps, and if `c` runs for ever then so does `c'`, and
it makes no calls that `c` does not make. Only if the tape fails under `c` is `c'` free to go on.

Refinement follows from a simulation that pairs the turns of the two machines (`Sim`). A turn of `c`
may be paired with a turn of `c'`, or with none if it leaves the device alone; a turn of `c'` is
never paired with none. `Sim D n` is a simulation for `n` paired turns, so a simulation for ever is
one for every `n`, and its construction for a loop is an induction on `n`.
-/

set_option autoImplicit false

namespace TapeLang.Machine

variable {σ : Type}

/-- The same device, and tapes that agree outside the cells in `X`. -/
structure State.AgreeOff (X : Set Nat) (s u : State σ) : Prop where
  streams_eq : s.streams = u.streams
  tape : s.tape.AgreeOff X u.tape

/-- The same device, and tapes with the same bytes. -/
abbrev State.Same (s u : State σ) : Prop := State.AgreeOff ∅ s u

theorem State.Same.refl (s : State σ) : s.Same s := ⟨rfl, Tape.Same.refl s.tape⟩

theorem State.Same.trans {s t u : State σ} (h : s.Same t) (h' : t.Same u) : s.Same u :=
  ⟨h.streams_eq.trans h'.streams_eq, Tape.Same.trans h.tape h'.tape⟩

theorem State.Same.symm {s u : State σ} (h : s.Same u) : u.Same s :=
  ⟨h.streams_eq.symm, h.tape.pointer_eq.symm, fun i hi => (h.tape.cell_eq i hi).symm⟩

theorem State.Same.current_eq {s u : State σ} (h : s.Same u) : s.tape.current = u.tape.current :=
  h.tape.current_eq (Set.notMem_empty _)

/-! ## Refinement -/

/-- Where the second machine has to stand if the first one stands where it does. -/
def Progress.Matched (D : Device σ) : Progress σ → Progress σ → Prop
  | .completed k s, q => ∃ k' s', q = .completed k' s' ∧ k' ≤ k ∧ s.Same s'
  | .failed (.stream e) k s, q =>
      ∃ k' s', q = .failed (.stream e) k' s' ∧ k' ≤ k ∧ s.streams = s'.streams
  | p, q => D.Later p.state.streams q.state.streams

/-- The second configuration does what the first one does, in no more steps. -/
structure Refines (D : Device σ) (c c' : Config σ) : Prop where
  matched : ∀ m, (c.advance D m 0).Matched D (c'.advance D m 0)
  endless : (∀ m, (c.advance D m 0).Suspended) → ∀ m, (c'.advance D m 0).Suspended ∧
    ∃ m', D.Later (c'.advance D m 0).state.streams (c.advance D m' 0).state.streams

namespace Progress.Matched

variable {D : Device σ} {p q r : Progress σ}

theorem later (h : p.Matched D q) : D.Later p.state.streams q.state.streams := by
  cases p with
  | completed k s =>
      obtain ⟨k', s', rfl, -, hs⟩ := h
      have hstreams := hs.streams_eq
      simp only [Progress.state, hstreams]
      exact .refl
  | failed fault k s =>
      cases fault with
      | tape e => exact h
      | stream e =>
          obtain ⟨k', s', rfl, -, hs⟩ := h
          simp only [Progress.state, hs]
          exact .refl
  | suspended frames k s => exact h

theorem trans (h : p.Matched D q) (h' : q.Matched D r) : p.Matched D r := by
  cases p with
  | completed k s =>
      obtain ⟨k', s', rfl, hk, hs⟩ := h
      obtain ⟨k'', s'', rfl, hk', hs'⟩ := h'
      exact ⟨k'', s'', rfl, hk'.trans hk, hs.trans hs'⟩
  | failed fault k s =>
      -- a failure of the tape leaves the other two free, except for the calls made before
      cases fault with
      | tape e => exact Relation.ReflTransGen.trans h h'.later
      | stream e =>
          obtain ⟨k', s', rfl, hk, hs⟩ := h
          obtain ⟨k'', s'', rfl, hk', hs'⟩ := h'
          exact ⟨k'', s'', rfl, hk'.trans hk, hs.trans hs'⟩
  | suspended frames k s => exact Relation.ReflTransGen.trans h h'.later

/-- The second machine may take one step more. -/
theorem advance_succ {c : Config σ} {m k : Nat} (h : p.Matched D (c.advance D m k)) :
    p.Matched D (c.advance D (m + 1) k) := by
  have hlater := later_advance_succ D m k c
  cases p with
  | completed j s =>
      obtain ⟨j', s', hq, hj, hs⟩ := h
      rw [Machine.advance_succ D m k c (by rw [hq]; exact id)]
      exact ⟨j', s', hq, hj, hs⟩
  | failed fault j s =>
      cases fault with
      | tape e => exact Relation.ReflTransGen.trans h hlater
      | stream e =>
          obtain ⟨j', s', hq, hj, hs⟩ := h
          rw [Machine.advance_succ D m k c (by rw [hq]; exact id)]
          exact ⟨j', s', hq, hj, hs⟩
  | suspended frames j s => exact Relation.ReflTransGen.trans h hlater

end Progress.Matched

namespace Refines

variable {D : Device σ} {c c' c'' : Config σ}

theorem trans (h : Refines D c c') (h' : Refines D c' c'') : Refines D c c'' := by
  refine ⟨fun m => (h.matched m).trans (h'.matched m), fun hc m => ?_⟩
  have hc' : ∀ m, (c'.advance D m 0).Suspended := fun m => (h.endless hc m).1
  obtain ⟨hsuspended, m', hlater⟩ := h'.endless hc' m
  obtain ⟨-, m'', hlater'⟩ := h.endless hc m'
  exact ⟨hsuspended, m'', hlater.trans hlater'⟩

end Refines

/-! ## Simulation of turns -/

/-- The turns of the two machines can be paired `n` times. -/
inductive Sim (D : Device σ) : Nat → Config σ → Config σ → Prop
  /-- No turn is left to be paired. -/
  | stop {c c' : Config σ} (streams : c.state.streams = c'.state.streams) : Sim D 0 c c'
  /-- Both are finished. -/
  | finish {n : Nat} {c c' : Config σ} (left : turn D c = .finished)
      (right : turn D c' = .finished) (same : c.state.Same c'.state) : Sim D n c c'
  /-- The tape fails under the first. -/
  | crash {n : Nat} {c c' : Config σ} {e : TapeFault} {s : State σ}
      (left : turn D c = .failed (.tape e) s) (silent : s.streams = c.state.streams)
      (streams : c.state.streams = c'.state.streams) : Sim D n c c'
  /-- Both fail in the same way. -/
  | fail {n : Nat} {c c' : Config σ} {fault : Fault} {s s' : State σ}
      (left : turn D c = .failed fault s) (right : turn D c' = .failed fault s')
      (streams : c.state.streams = c'.state.streams) (failed : s.streams = s'.streams) :
      Sim D n c c'
  /-- The first takes a turn without its device. -/
  | skip {n : Nat} {c c₁ c' : Config σ} (left : turn D c = .next c₁)
      (silent : c₁.state.streams = c.state.streams) (sim : Sim D n c₁ c') : Sim D n c c'
  /-- Both take a turn. -/
  | both {n : Nat} {c c₁ c' c₁' : Config σ} (left : turn D c = .next c₁)
      (right : turn D c' = .next c₁') (streams : c.state.streams = c'.state.streams)
      (sim : Sim D n c₁ c₁') : Sim D (n + 1) c c'

namespace Sim

variable {D : Device σ} {n : Nat} {c c₂ c' c₂' : Config σ}

theorem streams_eq (h : Sim D n c c') : c.state.streams = c'.state.streams := by
  induction h with
  | stop streams => exact streams
  | finish _ _ same => exact same.streams_eq
  | crash _ _ streams => exact streams
  | fail _ _ streams _ => exact streams
  | skip _ silent _ ih => exact silent.symm.trans ih
  | both _ _ streams _ _ => exact streams

/-- A simulation sees of the first configuration only its turn and its state. -/
theorem congr_left (ht : turn D c₂ = turn D c) (hs : c₂.state = c.state) (h : Sim D n c c') :
    Sim D n c₂ c' := by
  cases h with
  | stop streams => exact .stop (hs ▸ streams)
  | finish left right same => exact .finish (ht.trans left) right (hs ▸ same)
  | crash left silent streams => exact .crash (ht.trans left) (hs ▸ silent) (hs ▸ streams)
  | fail left right streams failed => exact .fail (ht.trans left) right (hs ▸ streams) failed
  | skip left silent sim => exact .skip (ht.trans left) (hs ▸ silent) sim
  | both left right streams sim => exact .both (ht.trans left) right (hs ▸ streams) sim

/-- A simulation sees of the second configuration only its turn and its state. -/
theorem congr_right (ht : turn D c₂' = turn D c') (hs : c₂'.state = c'.state)
    (h : Sim D n c c') : Sim D n c c₂' := by
  induction h with
  | stop streams => exact .stop (hs ▸ streams)
  | finish left right same => exact .finish left (ht.trans right) (hs ▸ same)
  | crash left silent streams => exact .crash left silent (hs ▸ streams)
  | fail left right streams failed => exact .fail left (ht.trans right) (hs ▸ streams) failed
  | skip left silent _ ih => exact .skip left silent (ih ht hs)
  | both left right streams sim _ => exact .both left (ht.trans right) (hs ▸ streams) sim

/-- Turns that can be paired `n` times can be paired fewer times. -/
theorem mono (h : Sim D n c c') : ∀ {m : Nat}, m ≤ n → Sim D m c c' := by
  induction h with
  | stop streams =>
      intro m hm
      obtain rfl : m = 0 := by omega
      exact .stop streams
  | finish left right same =>
      intro m _
      exact .finish left right same
  | crash left silent streams =>
      intro m _
      exact .crash left silent streams
  | fail left right streams failed =>
      intro m _
      exact .fail left right streams failed
  | skip left silent _ ih =>
      intro m hm
      exact .skip left silent (ih hm)
  | both left right streams _ ih =>
      -- only here does the index go down
      intro m hm
      cases m with
      | zero => exact .stop streams
      | succ m => exact .both left right streams (ih (by omega))

/-- The forward half: where the first machine stands after fewer than `n` steps, the second one
stands as it has to. -/
theorem matched (h : Sim D n c c') : ∀ {m k k' : Nat}, m < n → k' ≤ k →
    (c.advance D m k).Matched D (c'.advance D m k') := by
  induction h with
  | stop _ =>
      intro m k k' hm _
      exact absurd hm (Nat.not_lt_zero m)
  | finish left right same =>
      intro m k k' _ hk
      rw [advance_finished left, advance_finished right]
      exact ⟨k', _, rfl, hk, same⟩
  | @crash n c c' e s left silent streams =>
      -- the first run has called nothing in its last turn, so the second one is not behind
      intro m k k' _ _
      have hlater := later_advance D m k' c'
      rw [← streams] at hlater
      cases m with
      | zero =>
          rw [advance_zero (by simp [left])]
          exact hlater
      | succ m =>
          rw [advance_failed left]
          rw [← silent] at hlater
          exact hlater
  | @fail n c c' fault s s' left right streams failed =>
      intro m k k' _ hk
      cases m with
      | zero =>
          rw [advance_zero (by simp [left]), advance_zero (by simp [right])]
          show D.Later c.state.streams c'.state.streams
          rw [streams]
      | succ m =>
          rw [advance_failed left, advance_failed right]
          cases fault with
          | tape e =>
              show D.Later s.streams s'.streams
              rw [failed]
          | stream e => exact ⟨k' + 1, s', rfl, by omega, failed⟩
  | @skip n c c₁ c' left silent sim ih =>
      intro m k k' hm hk
      cases m with
      | zero =>
          have hlater := later_advance D 0 k' c'
          rw [← sim.streams_eq, silent] at hlater
          rw [advance_zero (by simp [left])]
          exact hlater
      | succ m =>
          -- the second machine has one step more left than it needs
          rw [advance_next left]
          exact (ih (by omega) (by omega)).advance_succ
  | @both n c c₁ c' c₁' left right streams sim ih =>
      intro m k k' hm hk
      cases m with
      | zero =>
          rw [advance_zero (by simp [left]), advance_zero (by simp [right])]
          show D.Later c.state.streams c'.state.streams
          rw [streams]
      | succ m =>
          rw [advance_next left, advance_next right]
          exact ih (by omega) (by omega)

/-- The backward half: what the second machine has done after fewer than `n` steps the first one
does at some time, unless its run is over by then. -/
theorem reached (h : Sim D n c c') : ∀ {m : Nat} (k k' : Nat), m < n →
    ∃ m', ¬ (c.advance D m' k).Suspended ∨ (c'.advance D m k').Suspended ∧
      D.Later (c'.advance D m k').state.streams (c.advance D m' k).state.streams := by
  induction h with
  | stop _ =>
      intro m k k' hm
      exact absurd hm (Nat.not_lt_zero m)
  | finish left _ _ =>
      intro m k k' _
      refine ⟨0, Or.inl ?_⟩
      rw [advance_finished left]
      exact id
  | crash left _ _ =>
      intro m k k' _
      refine ⟨1, Or.inl ?_⟩
      rw [advance_failed left]
      exact id
  | fail left _ _ _ =>
      intro m k k' _
      refine ⟨1, Or.inl ?_⟩
      rw [advance_failed left]
      exact id
  | skip left _ _ ih =>
      -- the turn that only the first machine takes is made up for by one more step
      intro m k k' hm
      obtain ⟨m', h⟩ := ih (k + 1) k' hm
      refine ⟨m' + 1, ?_⟩
      rw [advance_next left]
      exact h
  | @both n c c₁ c' c₁' left right streams sim ih =>
      intro m k k' hm
      cases m with
      | zero =>
          refine ⟨0, Or.inr ?_⟩
          rw [advance_zero (by simp [right]), advance_zero (by simp [left])]
          refine ⟨trivial, ?_⟩
          show D.Later c'.state.streams c.state.streams
          rw [streams]
      | succ m =>
          obtain ⟨m', h⟩ := ih (k + 1) (k' + 1) (Nat.lt_of_succ_lt_succ hm)
          refine ⟨m' + 1, ?_⟩
          rw [advance_next left, advance_next right]
          exact h

end Sim

/-- A simulation for every number of turns gives refinement. -/
theorem refines_of_sim {D : Device σ} {c c' : Config σ} (h : ∀ n, Sim D n c c') :
    Refines D c c' := by
  refine ⟨fun m => (h (m + 1)).matched (Nat.lt_succ_self m) (Nat.le_refl 0), fun hc m => ?_⟩
  -- an endless first run is never over, so it makes every call of the second one
  obtain ⟨m', hend | hgoing⟩ := (h (m + 1)).reached 0 0 (Nat.lt_succ_self m)
  · exact absurd (hc m') hend
  · exact ⟨hgoing.1, m', hgoing.2⟩

end TapeLang.Machine
