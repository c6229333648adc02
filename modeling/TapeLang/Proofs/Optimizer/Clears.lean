import TapeLang.Optimizer.Clears
import TapeLang.Proofs.Contexts

/-!
# Replacing clear loops is an improvement

Bytes are counted modulo 256, where an odd number has an inverse. From every byte some number of odd
steps therefore leads to zero (`exists_rounds_of_odd`), so that a clear loop ends, with the current
cell at zero and every other cell as it was.
-/

set_option autoImplicit false

namespace TapeLang.Machine

variable {σ : Type} {D : Device σ} {n : Nat} {K K' : List Program}

/-- An odd signed byte is odd as a byte. -/
theorem toUInt8_toNat_odd {a : Int8} (h : a.toInt % 2 ≠ 0) : a.toUInt8.toNat % 2 = 1 := by
  have hint : a.toInt = a.toUInt8.toBitVec.toInt := rfl
  have hnat : a.toUInt8.toNat = a.toUInt8.toBitVec.toNat := rfl
  rw [hint, BitVec.toInt_eq_toNat_cond] at h
  rw [hnat]
  split at h <;> omega

theorem exists_mul_eq_one_of_odd {b : UInt8} (h : b.toNat % 2 = 1) : ∃ x : UInt8, x * b = 1 := by
  have hpow : ∀ k < 128, (2 * k + 1) ^ 63 * (2 * k + 1) % 256 = 1 := by decide
  have hb := UInt8.toNat_lt b
  have hk := hpow (b.toNat / 2) (by omega)
  have hodd : 2 * (b.toNat / 2) + 1 = b.toNat := by omega
  rw [hodd] at hk
  refine ⟨UInt8.ofNat (b.toNat ^ 63), UInt8.toNat_inj.1 ?_⟩
  rw [UInt8.toNat_mul, UInt8.toNat_ofNat', Nat.mod_mul_mod]
  exact hk

/-- Some number of odd steps leads from a byte to zero. -/
theorem exists_rounds_of_odd {a : Int8} (h : a.toInt % 2 ≠ 0) (c : UInt8) :
    ∃ j : Nat, c + UInt8.ofNat j * a.toUInt8 = 0 := by
  obtain ⟨x, hx⟩ := exists_mul_eq_one_of_odd (toUInt8_toNat_odd h)
  refine ⟨(-c * x).toNat, ?_⟩
  rw [UInt8.ofNat_toNat, UInt8.mul_assoc, hx, UInt8.mul_one, UInt8.add_right_neg]

/-- The last test of a loop that has left the current cell at zero, beside the `setZero` that stands
in its place. -/
theorem sim_clear_exit {body rest : Program} (hK : Resumes D n K K') {s s' : State σ}
    (hs : State.AgreeOff {s.tape.pointer} s s') (hzero : s.tape.current = 0) :
    Sim D n ⟨.loop body rest :: K, s⟩ ⟨.op .setZero rest :: K', s'⟩ := by
  have right : turn D ⟨.op .setZero rest :: K', s'⟩ =
      .next ⟨rest :: K', { s' with tape := s'.tape.put s'.tape.pointer 0 }⟩ := rfl
  refine (Sim.both (turn_loop_zero D K s body rest hzero) right hs.streams_eq
    (Simulated.refl D rest n K K' hK _ _ ⟨hs.streams_eq, ?_, fun i _ => ?_⟩)).mono (Nat.le_succ n)
  · rw [Tape.pointer_put, hs.tape.pointer_eq]
  · rw [Tape.cell_put, ← hs.tape.pointer_eq]
    by_cases hi : i = s.tape.pointer
    · rw [if_pos hi, hi]
      exact hzero
    · rw [if_neg hi]
      exact hs.tape.cell_eq i hi

/-- The rounds of a clear loop, by induction on the number of steps that lead to zero. Meanwhile the
`setZero` waits, and the tapes agree outside the current cell. -/
theorem sim_clear_rounds {a : Int8} {rest : Program} (hK : Resumes D n K K') (j : Nat) :
    ∀ s s', State.AgreeOff {s.tape.pointer} s s' →
      s.tape.current + UInt8.ofNat j * a.toUInt8 = 0 →
        Sim D n ⟨.loop (.op (.add a 0) .done) rest :: K, s⟩ ⟨.op .setZero rest :: K', s'⟩ := by
  induction j with
  | zero =>
      intro s s' hs hj
      refine sim_clear_exit hK hs ?_
      simpa using hj
  | succ j ih =>
      intro s s' hs hj
      by_cases hzero : s.tape.current = 0
      · exact sim_clear_exit hK hs hzero
      · refine .skip (turn_loop_nonzero D K s _ rest hzero) rfl
          (sim_add hs.streams_eq fun i v hr => ?_)
        obtain ⟨hi, hv, -⟩ := (Tape.revise_eq_ok_iff _ _ _ _ _).1 hr
        obtain rfl : i = s.tape.pointer := by
          have hpointer := ((Tape.index_eq_ok_iff _ _ _).1 hi).1
          omega
        refine Sim.congr_left (turn_done D _ _) rfl (ih _ s' ⟨hs.streams_eq, ?_⟩ ?_)
        · rw [Tape.pointer_put]
          exact hs.tape.put_left rfl v
        · show (s.tape.put s.tape.pointer v).cell (s.tape.put s.tape.pointer v).pointer +
            UInt8.ofNat j * a.toUInt8 = 0
          rw [Tape.pointer_put, Tape.cell_put, if_pos rfl, hv, ← hj, UInt8.ofNat_add, Tape.current]
          grind

theorem simulated_clear {body : Program} (h : body.isClearBody = true) (rest : Program) :
    Simulated D (.loop body rest) (.op .setZero rest) := by
  intro n K K' hK s s' hs
  simp only [Program.isClearBody] at h
  split at h
  next a offset =>
    obtain ⟨rfl, hodd⟩ : offset = 0 ∧ a.toInt % 2 ≠ 0 := by simpa using h
    obtain ⟨j, hj⟩ := exists_rounds_of_odd hodd s.tape.current
    exact sim_clear_rounds hK j s s' ⟨hs.streams_eq, hs.tape.mono (Set.empty_subset _)⟩ hj
  next => cases h

theorem improves_clearHere (p : Program) : Improves D p p.clearHere := by
  induction p with
  | done => exact .refl
  | op o rest ih => exact Improves.op o ih
  | loop body rest _ ih =>
      rw [Program.clearHere]
      split
      next h => exact (Improves.loop_rest body ih).tail (simulated_clear h rest.clearHere)
      next => exact Improves.loop_rest body ih

theorem improves_clearLoops (p : Program) : Improves D p p.clearLoops :=
  improves_everywhere improves_clearHere p

end TapeLang.Machine
