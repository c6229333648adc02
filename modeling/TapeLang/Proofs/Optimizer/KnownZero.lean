import TapeLang.Optimizer.KnownZero
import TapeLang.Proofs.Contexts

/-!
# Dropping what runs on a zero cell

What the pass knows is true of the tape (`Known.Holds`), and stays true through every operation
(`holds_after`). So whatever is dropped would have done nothing. The pass begins with a claim
about the whole tape, and its simulation therefore holds on a blank tape only
(`refines_removeZeroLoops`), unlike those of the other passes.
-/

set_option autoImplicit false

namespace TapeLang

/-- Every cell is zero. -/
def Tape.Blank (t : Tape) : Prop := ∀ i, t.cell i = 0

theorem Tape.blank_empty : Tape.empty.Blank := Tape.cell_empty

/-- What is known is true of a tape. -/
structure Known.Holds (k : Known) (t : Tape) : Prop where
  blank : k.untouched = true → t.Blank
  current_eq : k.zero = true → t.current = 0

theorem Known.holds_nothing (t : Tape) : Known.nothing.Holds t := ⟨nofun, nofun⟩

theorem Known.holds_zeroed {t : Tape} (h : t.current = 0) : Known.zeroed.Holds t :=
  ⟨nofun, fun _ => h⟩

theorem Known.holds_fresh {t : Tape} (h : t.Blank) : Known.fresh.Holds t :=
  ⟨fun _ => h, fun _ => h t.pointer⟩

theorem Tape.current_put_pointer (t : Tape) (v : UInt8) : (t.put t.pointer v).current = v := by
  rw [current, pointer_put, cell_put, if_pos rfl]

namespace Machine

variable {σ : Type} {D : Device σ}

/-- What is known after an operation is true after it. -/
theorem holds_after {k : Known} {o : Op} {s t : State σ} (h : k.Holds s.tape)
    (ht : exec D o s = .next t) : (k.after o).Holds t.tape := by
  cases o with
  | shift amount =>
      cases hi : s.tape.index amount with
      | error e =>
          rw [exec_shift_of_error hi] at ht
          cases ht
      | ok i =>
          rw [exec_shift_of_ok hi] at ht
          cases ht
          exact ⟨h.blank, fun huntouched => h.blank huntouched i⟩
  | add amount offset =>
      cases hr : s.tape.revise offset (· + amount.toUInt8) with
      | error e =>
          rw [exec_add_of_error hr] at ht
          cases ht
      | ok iv =>
          rw [exec_add_of_ok hr] at ht
          cases ht
          refine ⟨nofun, fun hzero => ?_⟩
          obtain ⟨hi, -, -⟩ := (Tape.revise_eq_ok_iff _ _ _ _ _).1 hr
          obtain ⟨hzero, hoffset⟩ : k.zero = true ∧ offset ≠ 0 := by
            simpa [Known.after] using hzero
          have hi' := ((Tape.index_eq_ok_iff _ _ _).1 hi).1
          show (s.tape.put iv.1 iv.2).cell (s.tape.put iv.1 iv.2).pointer = 0
          rw [Tape.pointer_put, Tape.cell_put, if_neg (by omega)]
          exact h.current_eq hzero
  | input => exact Known.holds_nothing t.tape
  | output =>
      rw [tape_of_exec_output ht]
      exact h
  | setZero =>
      rw [exec_setZero] at ht
      cases ht
      exact Known.holds_zeroed (Tape.current_put_pointer s.tape 0)
  | multiply factors =>
      refine Known.holds_zeroed ?_
      by_cases hzero : s.tape.current = 0
      · rw [exec_multiply_of_zero hzero] at ht
        cases ht
        exact hzero
      · cases hs : spread s.tape.current s.tape factors.entries with
        | error e =>
            rw [exec_multiply_of_error hzero hs] at ht
            cases ht
        | ok u =>
            rw [exec_multiply_of_ok hzero hs] at ht
            cases ht
            exact Tape.current_put_pointer u 0

/-- On a zero cell such an operation does nothing. -/
theorem exec_of_idleOnZero {o : Op} {s : State σ} (ho : o.idleOnZero = true)
    (hzero : s.tape.current = 0) : ∃ t, exec D o s = .next t ∧ t.Same s := by
  cases o with
  | setZero =>
      refine ⟨_, exec_setZero, rfl, Tape.pointer_put _ _ _, fun i _ => ?_⟩
      rw [Tape.cell_put]
      split
      next hi =>
        rw [hi]
        exact hzero.symm
      next => rfl
  | multiply factors => exact ⟨s, exec_multiply_of_zero hzero, State.Same.refl s⟩
  | shift amount => cases ho
  | add amount offset => cases ho
  | input => cases ho
  | output => cases ho

/-- A program on machines with the same bytes of which something is known, by induction on the
program. Inside a loop nothing is known, so that a body is simulated on every tape. -/
theorem sim_dropZeroLoops (p : Program) :
    ∀ (k : Known) (n : Nat) (K K' : List Program), Resumes D n K K' → ∀ s s' : State σ,
      s.Same s' → k.Holds s.tape → Sim D n ⟨p :: K, s⟩ ⟨p.dropZeroLoops k :: K', s'⟩ := by
  induction p with
  | done => exact fun k n K K' hK s s' hs _ => sim_done hK hs
  | op o rest ih =>
      intro k n K K' hK s s' hs hk
      rw [Program.dropZeroLoops]
      split
      next hidle =>
        -- what is dropped would have changed no byte, so everything known stays true
        obtain ⟨hzero, ho⟩ := Bool.and_eq_true_iff.1 hidle
        obtain ⟨t, ht, hsame⟩ := exec_of_idleOnZero (D := D) ho (hk.current_eq hzero)
        refine sim_silent ht hsame.streams_eq (ih k n K K' hK t s' (hsame.trans hs) ?_)
        exact ⟨fun huntouched i => (hsame.tape.cell_eq i (Set.notMem_empty i)).trans
          (hk.blank huntouched i), fun hzero => hsame.current_eq.trans (hk.current_eq hzero)⟩
      next =>
        exact sim_op hs (fun i _ => Set.notMem_empty i) fun t t' ht _ hsame =>
          ih (k.after o) n K K' hK t t' hsame (holds_after hk ht)
  | loop body rest ihbody ihrest =>
      intro k n K K' hK s s' hs hk
      rw [Program.dropZeroLoops]
      split
      next hzero =>
        exact .skip (turn_loop_zero D K s body rest (hk.current_eq hzero)) rfl
          (ihrest k n K K' hK s s' hs hk)
      next =>
        -- a body runs on tapes of which nothing is known, and after the loop its cell is zero
        have hbody : Simulated D body (body.dropZeroLoops .nothing) :=
          fun n K K' hK s s' hs => ihbody .nothing n K K' hK s s' hs (Known.holds_nothing s.tape)
        exact sim_loop hbody (fun t t' ht hzero =>
          ihrest .zeroed n K K' hK t t' ht (Known.holds_zeroed hzero)) s s' hs

/-- On a blank tape, what the pass leaves refines the program. -/
theorem refines_removeZeroLoops (p : Program) {s s' : State σ} (hs : s.Same s')
    (hblank : s.tape.Blank) : Refines D ⟨[p], s⟩ ⟨[p.removeZeroLoops], s'⟩ := by
  refine refines_of_sim fun n => sim_dropZeroLoops p .fresh n [] [] (fun t t' ht => ?_) s s' hs
    (Known.holds_fresh hblank)
  exact .finish (turn_nil D t) (turn_nil D t') ht

end Machine

end TapeLang
