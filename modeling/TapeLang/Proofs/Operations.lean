import TapeLang.Proofs.Simulation

/-!
# Operations on tapes that agree

An operation does the same on two machines with one device whose tapes agree in the cells that the
operation uses (`exec_agreeOff`): it fails on both or on neither, with the same fault, and leaves
devices that are equal and tapes that agree in as many cells as before. On two machines that have
the same bytes everywhere it leaves the same bytes everywhere.
-/

set_option autoImplicit false

namespace TapeLang

/-- The cells whose bytes decide what an operation does, for a pointer. -/
def Op.uses (pointer : Nat) : Op → Set Nat
  | .add _ offset => {i | (i : Int) = pointer + offset}
  | .output => {pointer}
  | .multiply factors => {i | i = pointer ∨ ∃ k ∈ factors.offsets, (i : Int) = pointer + k}
  | _ => ∅

namespace Machine

variable {σ : Type}

/-! ## The end of each operation -/

section Ends

variable {D : Device σ} {s : State σ}

theorem exec_shift_of_ok {amount : Int} {i : Nat} (h : s.tape.index amount = .ok i) :
    exec D (.shift amount) s = .next { s with tape := { s.tape with pointer := i } } := by
  simp only [exec, h]

theorem exec_shift_of_error {amount : Int} {e : TapeFault} (h : s.tape.index amount = .error e) :
    exec D (.shift amount) s = .failed (.tape e) s := by
  simp only [exec, h]

theorem exec_add_of_ok {amount : Int8} {offset : Int} {i : Nat} {v : UInt8}
    (h : s.tape.revise offset (· + amount.toUInt8) = .ok (i, v)) :
    exec D (.add amount offset) s = .next { s with tape := s.tape.put i v } := by
  simp only [exec, h]

theorem exec_add_of_error {amount : Int8} {offset : Int} {e : TapeFault}
    (h : s.tape.revise offset (· + amount.toUInt8) = .error e) :
    exec D (.add amount offset) s = .failed (.tape e) s := by
  simp only [exec, h]

theorem exec_setZero : exec D .setZero s = .next { s with tape := s.tape.put s.tape.pointer 0 } :=
  rfl

theorem exec_multiply_of_zero {factors : Factors} (h : s.tape.current = 0) :
    exec D (.multiply factors) s = .next s := by
  simp only [exec, h, if_true]

theorem exec_multiply_of_ok {factors : Factors} {t : Tape} (h : s.tape.current ≠ 0)
    (ht : spread s.tape.current s.tape factors.entries = .ok t) :
    exec D (.multiply factors) s = .next { s with tape := t.put t.pointer 0 } := by
  simp only [exec, h, if_false, ht]

theorem exec_multiply_of_error {factors : Factors} {e : TapeFault} {t : Tape}
    (h : s.tape.current ≠ 0) (ht : spread s.tape.current s.tape factors.entries = .error (e, t)) :
    exec D (.multiply factors) s = .failed (.tape e) { s with tape := t } := by
  simp only [exec, h, if_false, ht]

end Ends

/-! ## Agreement -/

/-- Two operations have ended in the same way, with tapes that agree outside `X`. -/
def Step.AgreeOff (X : Set Nat) : Step σ → Step σ → Prop
  | .next s, .next u => State.AgreeOff X s u
  | .failed fault s, .failed fault' u => fault = fault' ∧ s.streams = u.streams
  | _, _ => False

/-- Two spreads over the same entries have ended in the same way. -/
def SpreadAgree (X : Set Nat) : Except (TapeFault × Tape) Tape → Except (TapeFault × Tape) Tape →
    Prop
  | .ok t, .ok u => t.AgreeOff X u
  | .error e, .error e' => e.1 = e'.1
  | _, _ => False

theorem spread_agreeOff {X : Set Nat} (origin : UInt8) :
    ∀ (l : List (Int × Int8)) {t u : Tape}, t.AgreeOff X u →
      (∀ e ∈ l, ∀ i : Nat, (i : Int) = t.pointer + e.1 → i ∉ X) →
        SpreadAgree X (spread origin t l) (spread origin u l) := by
  intro l
  induction l with
  | nil =>
      intro t u h _
      exact h
  | cons e rest ih =>
      intro t u h hX
      obtain ⟨offset, factor⟩ := e
      have hrevise := h.revise_eq offset (· + origin * factor.toUInt8)
        (hX (offset, factor) List.mem_cons_self)
      simp only [spread, ← hrevise]
      cases hr : t.revise offset (· + origin * factor.toUInt8) with
      | error e => exact rfl
      | ok iv =>
          refine ih (h.put iv.1 iv.2) fun e he i hi => ?_
          rw [Tape.pointer_put] at hi
          exact hX e (List.mem_cons_of_mem _ he) i hi

/-- A spread does not move the pointer. -/
theorem pointer_of_spread {origin : UInt8} :
    ∀ {l : List (Int × Int8)} {t u : Tape}, spread origin t l = .ok u → u.pointer = t.pointer := by
  intro l
  induction l with
  | nil =>
      intro t u h
      simp only [spread, Except.ok.injEq] at h
      rw [h]
  | cons e rest ih =>
      intro t u h
      obtain ⟨offset, factor⟩ := e
      simp only [spread] at h
      cases hr : t.revise offset (· + origin * factor.toUInt8) with
      | error e => simp [hr] at h
      | ok iv =>
          simp only [hr] at h
          rw [ih h, Tape.pointer_put]

/-! ## What an operation keeps -/

theorem pointer_of_exec_add {D : Device σ} {amount : Int8} {offset : Int} {s t : State σ}
    (h : exec D (.add amount offset) s = .next t) : t.tape.pointer = s.tape.pointer := by
  cases hr : s.tape.revise offset (· + amount.toUInt8) with
  | error e =>
      rw [exec_add_of_error hr] at h
      cases h
  | ok iv =>
      rw [exec_add_of_ok hr] at h
      cases h
      exact Tape.pointer_put _ _ _

theorem tape_of_exec_output {D : Device σ} {s t : State σ} (h : exec D .output s = .next t) :
    t.tape = s.tape := by
  simp only [exec] at h
  rcases hw : D.write s.tape.current s.streams with ⟨result, streams⟩
  rw [hw] at h
  cases result with
  | error e => cases h
  | ok _ =>
      cases h
      rfl

theorem pointer_of_exec_multiply {D : Device σ} {factors : Factors} {s t : State σ}
    (h : exec D (.multiply factors) s = .next t) : t.tape.pointer = s.tape.pointer := by
  by_cases hzero : s.tape.current = 0
  · rw [exec_multiply_of_zero hzero] at h
    cases h
    rfl
  · cases hs : spread s.tape.current s.tape factors.entries with
    | error e =>
        rw [exec_multiply_of_error hzero hs] at h
        cases h
    | ok u =>
        rw [exec_multiply_of_ok hzero hs] at h
        cases h
        exact (Tape.pointer_put _ _ _).trans (pointer_of_spread hs)

/-! ## Operations -/

/-- An operation does the same where the cells that it uses agree. -/
theorem exec_agreeOff (D : Device σ) (o : Op) {X : Set Nat} {s u : State σ}
    (h : State.AgreeOff X s u) (hX : ∀ i ∈ o.uses s.tape.pointer, i ∉ X) :
    Step.AgreeOff X (exec D o s) (exec D o u) := by
  obtain ⟨hstreams, htape⟩ := h
  cases o with
  | shift amount =>
      have hindex := htape.index_eq amount
      cases hi : s.tape.index amount with
      | error e =>
          rw [exec_shift_of_error hi, exec_shift_of_error (hindex ▸ hi)]
          exact ⟨rfl, hstreams⟩
      | ok i =>
          rw [exec_shift_of_ok hi, exec_shift_of_ok (hindex ▸ hi)]
          exact ⟨hstreams, htape.move i⟩
  | add amount offset =>
      have hrevise := htape.revise_eq offset (· + amount.toUInt8) hX
      cases hr : s.tape.revise offset (· + amount.toUInt8) with
      | error e =>
          rw [exec_add_of_error hr, exec_add_of_error (hrevise ▸ hr)]
          exact ⟨rfl, hstreams⟩
      | ok iv =>
          rw [exec_add_of_ok hr, exec_add_of_ok (hrevise ▸ hr)]
          exact ⟨hstreams, htape.put iv.1 iv.2⟩
  | input =>
      simp only [exec, ← hstreams, ← htape.pointer_eq]
      rcases readByte D s.streams with ⟨result, streams⟩
      cases result with
      | error e => exact ⟨rfl, rfl⟩
      | ok byte =>
          by_cases hroom : Tape.hasRoom s.tape.pointer byte = true
          · simp only [hroom, if_true]
            exact ⟨rfl, htape.put s.tape.pointer byte⟩
          · simp only [hroom, Bool.false_eq_true, if_false]
            exact ⟨rfl, rfl⟩
  | output =>
      have hcurrent := htape.current_eq (hX s.tape.pointer rfl)
      simp only [exec, ← hstreams, ← hcurrent]
      rcases D.write s.tape.current s.streams with ⟨result, streams⟩
      cases result with
      | error e => exact ⟨rfl, rfl⟩
      | ok _ => exact ⟨rfl, htape⟩
  | setZero =>
      rw [exec_setZero, exec_setZero, ← htape.pointer_eq]
      exact ⟨hstreams, htape.put s.tape.pointer 0⟩
  | multiply factors =>
      have hcurrent := htape.current_eq (hX s.tape.pointer (Or.inl rfl))
      by_cases hzero : s.tape.current = 0
      · rw [exec_multiply_of_zero hzero, exec_multiply_of_zero (hcurrent ▸ hzero)]
        exact ⟨hstreams, htape⟩
      · have hspread := spread_agreeOff s.tape.current factors.entries htape fun e he i hi =>
          hX i (Or.inr ⟨e.1, List.mem_map_of_mem he, hi⟩)
        have hzero' : u.tape.current ≠ 0 := hcurrent ▸ hzero
        cases hs : spread s.tape.current s.tape factors.entries with
        | error e =>
            cases hu : spread s.tape.current u.tape factors.entries with
            | error e' =>
                rw [hs, hu] at hspread
                rw [exec_multiply_of_error hzero hs, exec_multiply_of_error hzero' (hcurrent ▸ hu)]
                exact ⟨congrArg Fault.tape hspread, hstreams⟩
            | ok u' =>
                rw [hs, hu] at hspread
                exact hspread.elim
        | ok t' =>
            cases hu : spread s.tape.current u.tape factors.entries with
            | error e' =>
                rw [hs, hu] at hspread
                exact hspread.elim
            | ok u' =>
                rw [hs, hu] at hspread
                rw [exec_multiply_of_ok hzero hs, exec_multiply_of_ok hzero' (hcurrent ▸ hu),
                  ← hspread.pointer_eq]
                exact ⟨hstreams, hspread.put t'.pointer 0⟩

/-- An operation does the same on machines with the same bytes. -/
theorem exec_same (D : Device σ) (o : Op) {s u : State σ} (h : s.Same u) :
    Step.AgreeOff ∅ (exec D o s) (exec D o u) :=
  exec_agreeOff D o h fun i _ => Set.notMem_empty i

end Machine

end TapeLang
