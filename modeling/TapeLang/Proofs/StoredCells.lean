import TapeLang.Device.Buffers
import TapeLang.Proofs.Operations

/-!
# How many cells are stored is never seen

Two tapes with the same pointer and the same bytes may store different numbers of cells: a zero that
is stored inside the tape stays there, and one that is stored beyond its end does not. A program
cannot tell such tapes apart. An operation ends on both in the same way and leaves the same bytes,
also where it fails (`exec_ends_same`); so do some steps (`advance_same`) and whole runs
(`run_sees_bytes_only`).
-/

set_option autoImplicit false

namespace TapeLang.Machine

variable {σ : Type} {D : Device σ} {s u : State σ}

/-! ## One operation -/

/-- Two operations have ended in the same way and have left the same bytes. -/
inductive Step.Same : Step σ → Step σ → Prop
  | next {s u : State σ} (h : s.Same u) : Step.Same (.next s) (.next u)
  | failed {fault : Fault} {s u : State σ} (h : s.Same u) :
      Step.Same (.failed fault s) (.failed fault u)

/-- A spread that stops at a cell has treated the entries before it alike. -/
theorem same_of_spread_error {origin : UInt8} : ∀ {l : List (Int × Int8)} {t u t' u' : Tape}
    {e e' : TapeFault}, t.Same u → spread origin t l = .error (e, t') →
      spread origin u l = .error (e', u') → t'.Same u' := by
  intro l
  induction l with
  | nil =>
      intro t u t' u' e e' _ ht
      cases ht
  | cons entry rest ih =>
      intro t u t' u' e e' h ht hu
      obtain ⟨offset, factor⟩ := entry
      have hrevise := h.revise_eq offset (· + origin * factor.toUInt8) fun i _ => Set.notMem_empty i
      simp only [spread, ← hrevise] at ht hu
      cases hr : t.revise offset (· + origin * factor.toUInt8) with
      | error fault =>
          rw [hr] at ht hu
          cases ht
          cases hu
          exact h
      | ok iv =>
          rw [hr] at ht hu
          exact ih (h.put iv.1 iv.2) ht hu

/-- Where an operation that fails is not a multiplication it has left the tape alone. -/
theorem tape_of_exec_failed {o : Op} {fault : Fault} {t : State σ}
    (h : exec D o s = .failed fault t) (ho : ∀ factors, o ≠ .multiply factors) :
    t.tape = s.tape := by
  cases o with
  | shift amount =>
      cases hi : s.tape.index amount with
      | error e =>
          rw [exec_shift_of_error hi] at h
          cases h
          rfl
      | ok i =>
          rw [exec_shift_of_ok hi] at h
          cases h
  | add amount offset =>
      cases hr : s.tape.revise offset (· + amount.toUInt8) with
      | error e =>
          rw [exec_add_of_error hr] at h
          cases h
          rfl
      | ok iv =>
          rw [exec_add_of_ok hr] at h
          cases h
  | input =>
      simp only [exec] at h
      rcases hread : readByte D s.streams with ⟨result, streams⟩
      rw [hread] at h
      cases result with
      | error e =>
          cases h
          rfl
      | ok byte =>
          simp only at h
          split at h
          · cases h
          · cases h
            rfl
  | output =>
      simp only [exec] at h
      rcases hwrite : D.write s.tape.current s.streams with ⟨result, streams⟩
      rw [hwrite] at h
      cases result with
      | error e =>
          cases h
          rfl
      | ok _ => cases h
  | setZero => cases h
  | multiply factors => exact absurd rfl (ho factors)

/-- A multiplication that fails has failed in its spread. -/
theorem spread_of_exec_failed {factors : Factors} {fault : Fault} {t : State σ}
    (h : exec D (.multiply factors) s = .failed fault t) :
    ∃ e, spread s.tape.current s.tape factors.entries = .error (e, t.tape) := by
  by_cases hzero : s.tape.current = 0
  · rw [exec_multiply_of_zero hzero] at h
    cases h
  · cases hspread : spread s.tape.current s.tape factors.entries with
    | ok tape =>
        rw [exec_multiply_of_ok hzero hspread] at h
        cases h
    | error failure =>
        obtain ⟨e, tape⟩ := failure
        rw [exec_multiply_of_error hzero hspread] at h
        cases h
        exact ⟨e, rfl⟩

theorem same_of_exec_failed {o : Op} {fault fault' : Fault} {t v : State σ} (h : s.Same u)
    (hs : exec D o s = .failed fault t) (hu : exec D o u = .failed fault' v) :
    t.tape.Same v.tape := by
  by_cases ho : ∃ factors, o = .multiply factors
  · obtain ⟨factors, rfl⟩ := ho
    obtain ⟨e, hspread⟩ := spread_of_exec_failed hs
    obtain ⟨e', hspread'⟩ := spread_of_exec_failed hu
    rw [← h.current_eq] at hspread'
    exact same_of_spread_error h.tape hspread hspread'
  · have hother : ∀ factors, o ≠ .multiply factors := fun factors heq => ho ⟨factors, heq⟩
    rw [tape_of_exec_failed hs hother, tape_of_exec_failed hu hother]
    exact h.tape

/-- An operation ends in the same way on tapes with the same bytes and leaves the same bytes. -/
theorem exec_ends_same (o : Op) (h : s.Same u) : (exec D o s).Same (exec D o u) := by
  have hends := exec_same D o h
  cases hs : exec D o s with
  | next t =>
      cases hu : exec D o u with
      | next v =>
          rw [hs, hu] at hends
          exact .next hends
      | failed fault v =>
          rw [hs, hu] at hends
          exact hends.elim
  | failed fault t =>
      cases hu : exec D o u with
      | next v =>
          rw [hs, hu] at hends
          exact hends.elim
      | failed fault' v =>
          rw [hs, hu] at hends
          obtain ⟨rfl, hstreams⟩ := hends
          exact .failed ⟨hstreams, same_of_exec_failed h hs hu⟩

/-! ## Runs -/

/-- Two runs stand in the same place, with the same bytes. -/
inductive Progress.Same : Progress σ → Progress σ → Prop
  | completed {k : Nat} {s u : State σ} (h : s.Same u) :
      Progress.Same (.completed k s) (.completed k u)
  | failed {fault : Fault} {k : Nat} {s u : State σ} (h : s.Same u) :
      Progress.Same (.failed fault k s) (.failed fault k u)
  | suspended {K : List Program} {k : Nat} {s u : State σ} (h : s.Same u) :
      Progress.Same (.suspended K k s) (.suspended K k u)

/-- Some steps lead to the same place, by induction on the steps. -/
theorem advance_same (D : Device σ) (m : Nat) : ∀ (k : Nat) (K : List Program) {s u : State σ},
    s.Same u → (advance D m k K s).Same (advance D m k K u) := by
  induction m with
  | zero =>
      intro k K s u h
      simp only [advance]
      split
      · exact .completed h
      · exact .suspended h
  | succ m ih =>
      intro k K s u h
      simp only [advance]
      cases hnext : next K with
      | finished => exact .completed h
      | test entered left =>
          -- the test sees the current byte, and this is the same
          simp only [← h.current_eq]
          exact ih (k + 1) _ h
      | op o frames =>
          have hends := exec_ends_same (D := D) o h
          simp only
          generalize exec D o s = x, exec D o u = y at hends ⊢
          cases hends with
          | next ht => exact ih (k + 1) frames ht
          | failed ht => exact .failed ht

/-- What is seen of a run that has ended: how it has ended and after how many steps, the device, the
pointer, and the bytes of the tape. -/
def Run.seen (r : Run σ) : Except Fault Outcome × σ × Nat × Array UInt8 :=
  (r.result, r.state.streams, r.state.tape.pointer, r.state.tape.trimmed)

theorem conclude_seen (outcome : Outcome) (h : s.Same u) :
    (conclude D outcome s).seen = (conclude D outcome u).seen := by
  simp only [conclude, ← h.streams_eq]
  rcases D.flush s.streams with ⟨result, streams⟩
  cases result <;> simp only [Run.seen, h.tape.pointer_eq, Tape.Same.trimmed_eq h.tape]

theorem abandon_seen (fault : Fault) (h : s.Same u) :
    (abandon D fault s).seen = (abandon D fault u).seen := by
  simp only [abandon, Run.seen, h.streams_eq, h.tape.pointer_eq, Tape.Same.trimmed_eq h.tape]

theorem run_seen (D : Device σ) (fuel : Nat) (limit : Option Nat) (p : Program) (h : s.Same u) :
    (run D fuel limit p s).map Run.seen = (run D fuel limit p u).map Run.seen := by
  have hend := advance_same D (limit.getD fuel) 0 [p] h
  simp only [run]
  generalize advance D (limit.getD fuel) 0 [p] s = x, advance D (limit.getD fuel) 0 [p] u = y
    at hend ⊢
  cases hend with
  | completed ht => exact congrArg some (conclude_seen _ ht)
  | failed ht => exact congrArg some (abandon_seen _ ht)
  | suspended ht =>
      cases limit with
      | none => rfl
      | some m => exact congrArg some (conclude_seen _ ht)

/-- The trimmed bytes are the bytes of all cells, and they are all that a program sees of a tape
beside the pointer. From machines with equal pointers, equal trimmed bytes and equal devices, a
program ends in the same way or on neither machine, under every limit: with the same number of steps
or the same fault, with equal pointers and equal trimmed bytes, and with equal devices. The device
may be one that takes down its calls, so that the same bytes have been written and read. -/
theorem run_sees_bytes_only (D : Device σ) :
    (∀ t u : Tape, t.trimmed = u.trimmed ↔ ∀ i, t.cell i = u.cell i) ∧
    ∀ (fuel : Nat) (limit : Option Nat) (p : Program) (s u : State σ),
      s.tape.pointer = u.tape.pointer → s.tape.trimmed = u.tape.trimmed → s.streams = u.streams →
        (run D fuel limit p s).map Run.seen = (run D fuel limit p u).map Run.seen := by
  refine ⟨Tape.trimmed_eq_iff, ?_⟩
  intro fuel limit p s u hpointer htrimmed hstreams
  have hcells := (Tape.trimmed_eq_iff s.tape u.tape).1 htrimmed
  exact run_seen D fuel limit p ⟨hstreams, hpointer, fun i _ => hcells i⟩

/-- Adds three times the current cell to the next one, writes the sum, and reads a byte into its
place. -/
def tripling : Program :=
  .op (.multiply (.ofList [(1, 3)])) (.op (.shift 1) (.op .output (.op .input .done)))

/-- The cell that is written is stored on the one tape and not on the other. The tapes that are left
store different numbers of cells. -/
theorem run_sees_bytes_only_tripling :
    (⟨#[2], 0⟩ : Tape).trimmed = (⟨#[2, 0, 0], 0⟩ : Tape).trimmed ∧
      run Buffers.device 4 none tripling ⟨⟨#[2], 0⟩, ⟨[5], #[]⟩⟩ =
        some ⟨.ok (.completed 4), ⟨⟨#[0, 5], 1⟩, ⟨[], #[6]⟩⟩⟩ ∧
      run Buffers.device 4 none tripling ⟨⟨#[2, 0, 0], 0⟩, ⟨[5], #[]⟩⟩ =
        some ⟨.ok (.completed 4), ⟨⟨#[0, 5, 0], 1⟩, ⟨[], #[6]⟩⟩⟩ ∧
      (run Buffers.device 4 none tripling ⟨⟨#[2], 0⟩, ⟨[5], #[]⟩⟩).map Run.seen =
        (run Buffers.device 4 none tripling ⟨⟨#[2, 0, 0], 0⟩, ⟨[5], #[]⟩⟩).map Run.seen := by
  obtain ⟨hiff, hruns⟩ := run_sees_bytes_only Buffers.device
  have htrimmed : (⟨#[2], 0⟩ : Tape).trimmed = (⟨#[2, 0, 0], 0⟩ : Tape).trimmed := by
    simp [Tape.trimmed]
  exact ⟨htrimmed, rfl, rfl, hruns 4 none tripling _ _ rfl htrimmed rfl⟩

end TapeLang.Machine
