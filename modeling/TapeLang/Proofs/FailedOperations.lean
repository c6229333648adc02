import TapeLang.Device.Script
import TapeLang.Proofs.FactorTables
import TapeLang.Proofs.StoredCells

/-!
# Operations that fail

An operation that fails, for any reason but an overflow, leaves its tape as it was
(`failure_leaves_tape`). Most operations use one cell, so that there is nothing to undo. A
multiplication changes one cell after the other, and one of its cells may lie left of cell zero. It
never stops halfway for that reason: its offsets ascend, and if any of them leads left of cell zero
the first one does, before a byte has been stored (`spread_eq_underflow_iff`).

`Op.LeadsLeft` says which operations underflow, and what they report.
-/

set_option autoImplicit false

namespace TapeLang

/-- The operation uses a cell left of cell zero, and `offset` is what it reports: its amount, its
offset, or the least offset of its factors. A multiplication on a zero cell uses no other cell. -/
def Op.LeadsLeft (t : Tape) (offset : Int) : Op → Prop
  | .shift amount => offset = amount ∧ (t.pointer : Int) + amount < 0
  | .add _ k => offset = k ∧ (t.pointer : Int) + k < 0
  | .multiply factors =>
      t.current ≠ 0 ∧ (∃ k ∈ factors.offsets, (t.pointer : Int) + k < 0) ∧
        offset ∈ factors.offsets ∧ ∀ k ∈ factors.offsets, offset ≤ k
  | _ => False

/-! ## Cells -/

namespace Tape

variable {t : Tape} {offset k : Int} {pointer : Nat}

theorem index_eq_underflow_iff :
    t.index offset = .error (.underflow pointer k) ↔
      pointer = t.pointer ∧ k = offset ∧ (t.pointer : Int) + offset < 0 ∧
        Word.fits ((t.pointer : Int) + offset) = true := by
  rw [index]
  by_cases hfits : Word.fits ((t.pointer : Int) + offset) = true
  · by_cases hneg : (t.pointer : Int) + offset < 0
    · simp only [hfits, hneg, if_true, Except.error.injEq, TapeFault.underflow.injEq, and_true]
      exact and_congr eq_comm eq_comm
    · simp [hfits, hneg]
  · simp [hfits]

/-- Whether a cell lies left of cell zero does not depend on the byte that is to be stored. -/
theorem revise_eq_underflow_iff {f : UInt8 → UInt8} :
    t.revise offset f = .error (.underflow pointer k) ↔
      t.index offset = .error (.underflow pointer k) := by
  rw [revise]
  cases t.index offset with
  | error e => simp
  | ok i =>
      simp only [reduceCtorEq, iff_false]
      split <;> simp

theorem revise_of_index_error {e : TapeFault} (h : t.index offset = .error e)
    (f : UInt8 → UInt8) : t.revise offset f = .error e := by
  simp only [revise, h]

/-- A sum that fits in no word is an overflow. -/
theorem index_of_not_fits (h : ¬ Word.fits ((t.pointer : Int) + offset) = true) :
    t.index offset = .error (.overflow .addition) := by
  simp only [index, h, Bool.false_eq_true, if_false]

end Tape

namespace Machine

/-! ## Multiplications -/

section Spread

variable {origin : UInt8} {t u : Tape} {pointer : Nat} {k : Int}

/-- A spread that underflows does so at one of its entries. -/
theorem neg_of_spread_underflow : ∀ {l : List (Int × Int8)} {t : Tape},
    spread origin t l = .error (.underflow pointer k, u) →
      ∃ e ∈ l, e.1 = k ∧ (t.pointer : Int) + k < 0 := by
  intro l
  induction l with
  | nil =>
      intro t h
      cases h
  | cons entry rest ih =>
      intro t h
      obtain ⟨offset, factor⟩ := entry
      rw [spread] at h
      cases hr : t.revise offset (· + origin * factor.toUInt8) with
      | error e =>
          rw [hr] at h
          cases h
          obtain ⟨-, rfl, hneg, -⟩ :=
            Tape.index_eq_underflow_iff.1 (Tape.revise_eq_underflow_iff.1 hr)
          exact ⟨(k, factor), List.mem_cons_self, rfl, hneg⟩
      | ok iv =>
          rw [hr] at h
          obtain ⟨e, he, hkey, hneg⟩ := ih h
          rw [Tape.pointer_put] at hneg
          exact ⟨e, List.mem_cons_of_mem _ he, hkey, hneg⟩

/-- A spread over ascending offsets underflows at its first entry or not at all, and so with the
tape as it was. -/
theorem spread_eq_underflow_iff {l : List (Int × Int8)}
    (hascending : l.Pairwise (fun a b => a.1 < b.1)) :
    spread origin t l = .error (.underflow pointer k, u) ↔
      u = t ∧ t.index k = .error (.underflow pointer k) ∧
        ∃ factor rest, l = (k, factor) :: rest := by
  constructor
  · intro h
    cases l with
    | nil => cases h
    | cons entry rest =>
        obtain ⟨offset, factor⟩ := entry
        rw [spread] at h
        cases hr : t.revise offset (· + origin * factor.toUInt8) with
        | error e =>
            rw [hr] at h
            cases h
            have hindex := Tape.revise_eq_underflow_iff.1 hr
            obtain ⟨-, rfl, -⟩ := Tape.index_eq_underflow_iff.1 hindex
            exact ⟨rfl, hindex, factor, rest, rfl⟩
        | ok iv =>
            -- the first cell exists, and so do those of the greater offsets
            exfalso
            rw [hr] at h
            obtain ⟨e, he, rfl, hneg⟩ := neg_of_spread_underflow h
            obtain ⟨hi, -⟩ := (Tape.revise_eq_ok_iff _ _ _ _ _).1 hr
            obtain ⟨hposition, -⟩ := (Tape.index_eq_ok_iff _ _ _).1 hi
            have hlt : offset < e.1 := (List.pairwise_cons.1 hascending).1 e he
            rw [Tape.pointer_put] at hneg
            omega
  · rintro ⟨rfl, hindex, factor, rest, rfl⟩
    simp only [spread, Tape.revise_of_index_error hindex]

end Spread

/-! ## Operations -/

variable {σ : Type} {D : Device σ} {s t : State σ} {fault : Fault}

theorem exec_shift_eq_failed_iff {amount : Int} :
    exec D (.shift amount) s = .failed fault t ↔
      t = s ∧ ∃ e, fault = .tape e ∧ s.tape.index amount = .error e := by
  cases hi : s.tape.index amount with
  | error e =>
      rw [exec_shift_of_error hi]
      simp [eq_comm, and_comm]
  | ok i =>
      rw [exec_shift_of_ok hi]
      simp

theorem exec_add_eq_failed_iff {amount : Int8} {offset : Int} :
    exec D (.add amount offset) s = .failed fault t ↔
      t = s ∧ ∃ e, fault = .tape e ∧ s.tape.revise offset (· + amount.toUInt8) = .error e := by
  cases hr : s.tape.revise offset (· + amount.toUInt8) with
  | error e =>
      rw [exec_add_of_error hr]
      simp [eq_comm, and_comm]
  | ok iv =>
      rw [exec_add_of_ok hr]
      simp

theorem exec_multiply_eq_failed_iff {factors : Factors} :
    exec D (.multiply factors) s = .failed fault t ↔
      s.tape.current ≠ 0 ∧ ∃ e u, fault = .tape e ∧ t = { s with tape := u } ∧
        spread s.tape.current s.tape factors.entries = .error (e, u) := by
  by_cases hzero : s.tape.current = 0
  · rw [exec_multiply_of_zero hzero]
    simp [hzero]
  · cases hspread : spread s.tape.current s.tape factors.entries with
    | ok u =>
        rw [exec_multiply_of_ok hzero hspread]
        simp
    | error failure =>
        obtain ⟨e, u⟩ := failure
        rw [exec_multiply_of_error hzero hspread]
        simp only [Step.failed.injEq, Except.error.injEq, Prod.mk.injEq]
        constructor
        · rintro ⟨rfl, rfl⟩
          exact ⟨hzero, e, u, rfl, rfl, rfl, rfl⟩
        · rintro ⟨-, e, u, rfl, rfl, rfl, rfl⟩
          exact ⟨rfl, rfl⟩

/-- An operation underflows exactly if it leads left of cell zero, at a position that fits in a
word. The machine is then as it was, with its tape and its device. -/
theorem exec_eq_underflow_iff (o : Op) {pointer : Nat} {offset : Int} :
    exec D o s = .failed (.tape (.underflow pointer offset)) t ↔
      t = s ∧ pointer = s.tape.pointer ∧ o.LeadsLeft s.tape offset ∧
        Word.fits ((s.tape.pointer : Int) + offset) = true := by
  cases o with
  | shift amount =>
      simp only [exec_shift_eq_failed_iff, Fault.tape.injEq, exists_eq_left',
        Tape.index_eq_underflow_iff, Op.LeadsLeft]
      constructor
      · rintro ⟨rfl, rfl, rfl, hneg, hfits⟩
        exact ⟨rfl, rfl, ⟨rfl, hneg⟩, hfits⟩
      · rintro ⟨rfl, rfl, ⟨rfl, hneg⟩, hfits⟩
        exact ⟨rfl, rfl, rfl, hneg, hfits⟩
  | add amount k =>
      simp only [exec_add_eq_failed_iff, Fault.tape.injEq, exists_eq_left',
        Tape.revise_eq_underflow_iff, Tape.index_eq_underflow_iff, Op.LeadsLeft]
      constructor
      · rintro ⟨rfl, rfl, rfl, hneg, hfits⟩
        exact ⟨rfl, rfl, ⟨rfl, hneg⟩, hfits⟩
      · rintro ⟨rfl, rfl, ⟨rfl, hneg⟩, hfits⟩
        exact ⟨rfl, rfl, rfl, hneg, hfits⟩
  | multiply factors =>
      rw [exec_multiply_eq_failed_iff]
      simp only [Op.LeadsLeft, ← Factors.least?_eq_some_iff]
      constructor
      · rintro ⟨hcurrent, e, u, heq, rfl, hspread⟩
        cases heq
        obtain ⟨rfl, hindex, factor, rest, hentries⟩ :=
          (spread_eq_underflow_iff factors.ascending).1 hspread
        obtain ⟨hpointer, -, hneg, hfits⟩ := Tape.index_eq_underflow_iff.1 hindex
        have hleast : factors.least? = some offset := by
          simp only [Factors.least?, Factors.offsets, hentries, List.map_cons, List.head?_cons]
        exact ⟨rfl, hpointer, ⟨hcurrent, ⟨offset, Factors.mem_of_least? hleast, hneg⟩, hleast⟩,
          hfits⟩
      · rintro ⟨rfl, hpointer, ⟨hcurrent, ⟨k, hk, hneg⟩, hleast⟩, hfits⟩
        -- the offset that leads left is no less than the first one
        have hle : offset ≤ k := Factors.least_le hleast hk
        have hindex : t.tape.index offset = .error (.underflow pointer offset) :=
          Tape.index_eq_underflow_iff.2 ⟨hpointer, rfl, by omega, hfits⟩
        have hspread : spread t.tape.current t.tape factors.entries =
            .error (.underflow pointer offset, t.tape) :=
          (spread_eq_underflow_iff factors.ascending).2
            ⟨rfl, hindex, Factors.entries_of_least? hleast⟩
        exact ⟨hcurrent, _, _, rfl, rfl, hspread⟩
  | input =>
      simp only [Op.LeadsLeft, false_and, and_false, iff_false, exec]
      split
      · simp
      · split <;> simp
  | output =>
      simp only [Op.LeadsLeft, false_and, and_false, iff_false, exec]
      split <;> simp
  | setZero => simp [Op.LeadsLeft, exec]

/-- The position that is reported fits in a word, unless the operation overflows. -/
theorem fits_of_leadsLeft {o : Op} {offset : Int}
    (hword : ∀ e t, exec D o s ≠ .failed (.tape (.overflow e)) t)
    (h : o.LeadsLeft s.tape offset) : Word.fits ((s.tape.pointer : Int) + offset) = true := by
  by_contra hfits
  have hindex := Tape.index_of_not_fits hfits
  cases o with
  | shift amount =>
      obtain ⟨rfl, -⟩ := h
      exact hword _ _ (exec_shift_of_error hindex)
  | add amount k =>
      obtain ⟨rfl, -⟩ := h
      exact hword _ _ (exec_add_of_error (Tape.revise_of_index_error hindex _))
  | multiply factors =>
      obtain ⟨hcurrent, -, hleast⟩ := h
      obtain ⟨factor, rest, hentries⟩ :=
        Factors.entries_of_least? ((Factors.least?_eq_some_iff _ _).2 hleast)
      have hspread : spread s.tape.current s.tape factors.entries =
          .error (.overflow .addition, s.tape) := by
        rw [hentries, spread, Tape.revise_of_index_error hindex]
      exact hword _ _ (exec_multiply_of_error hcurrent hspread)
  | _ => exact h

/-- An operation that fails without an overflow has left the tape as it was: its stored cells, their
number and the pointer. Unless it overflows, it underflows exactly if it leads left of cell zero: a
shift or an addition by its amount or offset, a multiplication on a cell that is not zero by any of
its offsets. It reports the pointer and the amount, the offset, or the least of the offsets. -/
theorem failure_leaves_tape (D : Device σ) (o : Op) (s : State σ) :
    (∀ fault t, exec D o s = .failed fault t → fault.isFatal = false → t.tape = s.tape) ∧
    ((∀ e t, exec D o s ≠ .failed (.tape (.overflow e)) t) → ∀ pointer offset,
      (∃ t, exec D o s = .failed (.tape (.underflow pointer offset)) t) ↔
        pointer = s.tape.pointer ∧ o.LeadsLeft s.tape offset) := by
  constructor
  · intro fault t h hfatal
    by_cases ho : ∃ factors, o = .multiply factors
    · obtain ⟨factors, rfl⟩ := ho
      obtain ⟨-, e, u, rfl, -, -⟩ := exec_multiply_eq_failed_iff.1 h
      cases e with
      | underflow pointer offset => rw [((exec_eq_underflow_iff _).1 h).1]
      | overflow e => cases hfatal
    · exact tape_of_exec_failed h fun factors heq => ho ⟨factors, heq⟩
  · intro hword pointer offset
    constructor
    · rintro ⟨t, h⟩
      obtain ⟨-, hpointer, hleft, -⟩ := (exec_eq_underflow_iff o).1 h
      exact ⟨hpointer, hleft⟩
    · rintro ⟨rfl, hleft⟩
      exact ⟨s, (exec_eq_underflow_iff o).2 ⟨rfl, rfl, hleft, fits_of_leadsLeft hword hleft⟩⟩

/-- Adds to the next cell and to a cell on the left. -/
def outstretched : Op := .multiply (.ofList [(1, 3), (-2, 1)])

/-- A reader whose first read fails. -/
def unreadable : Script :=
  .start [.failure ⟨.other "TimedOut", "timed out"⟩] ⟨none, none, none, .nothingWritten⟩

/-- The multiplication could add to the next cell but not to the one on the left, and it adds to
neither. A read that fails stores nothing. -/
theorem failure_leaves_tape_outstretched :
    outstretched.LeadsLeft ⟨#[9, 5], 1⟩ (-2) ∧
      (∃ t, exec Buffers.device outstretched ⟨⟨#[9, 5], 1⟩, .ofInput []⟩ =
        .failed (.tape (.underflow 1 (-2))) t ∧ t.tape = ⟨#[9, 5], 1⟩) ∧
      ∃ t, exec Script.device .input ⟨⟨#[9, 5], 1⟩, unreadable⟩ =
        .failed (.stream ⟨.other "TimedOut", "timed out"⟩) t ∧ t.tape = ⟨#[9, 5], 1⟩ := by
  obtain ⟨htape, hunderflow⟩ :=
    failure_leaves_tape Buffers.device outstretched ⟨⟨#[9, 5], 1⟩, .ofInput []⟩
  obtain ⟨hread, -⟩ := failure_leaves_tape Script.device .input ⟨⟨#[9, 5], 1⟩, unreadable⟩
  have hleft : outstretched.LeadsLeft ⟨#[9, 5], 1⟩ (-2) :=
    ⟨by decide, ⟨-2, by decide, by decide⟩, by decide, by decide⟩
  have hword : ∀ e t, exec Buffers.device outstretched ⟨⟨#[9, 5], 1⟩, .ofInput []⟩ ≠
      .failed (.tape (.overflow e)) t := by
    intro e t h
    have hexec : exec Buffers.device outstretched ⟨⟨#[9, 5], 1⟩, .ofInput []⟩ =
      .failed (.tape (.underflow 1 (-2))) _ := rfl
    rw [hexec] at h
    cases h
  obtain ⟨t, ht⟩ := (hunderflow hword 1 (-2)).2 ⟨rfl, hleft⟩
  exact ⟨hleft, ⟨t, ht, htape _ t ht rfl⟩, _, rfl, hread _ _ rfl rfl⟩

end Machine

end TapeLang
