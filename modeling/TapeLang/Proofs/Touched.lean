import TapeLang.Proofs.Operations

/-!
# The cells that an operation touches

`Op.touched` lists the cells that an operation reads, writes or moves to, for a pointer. What the
operation does depends on no other cell (`exec_agree_touched`), and no other cell is changed by it
(`cell_exec_of_notMem`). The second holds because an operation changes its tape only by moving the
pointer to a cell that it touches and by storing bytes in such cells, also where it fails: what
these two keep it keeps (`exec_keeps`).
-/

set_option autoImplicit false

namespace TapeLang

/-- The cells at some offsets from a pointer. Offsets that lead left of cell zero name none. -/
def cellsAt (pointer : Nat) (offsets : List Int) : List Nat :=
  offsets.filterMap fun k => Int.toNat? (pointer + k)

theorem mem_cellsAt {pointer i : Nat} {offsets : List Int} :
    i ∈ cellsAt pointer offsets ↔ ∃ k ∈ offsets, (i : Int) = pointer + k := by
  simp only [cellsAt, List.mem_filterMap, Int.mem_toNat?, eq_comm]

/-- The cells that an operation reads, writes or moves to, for a pointer. -/
def Op.touched (pointer : Nat) : Op → List Nat
  | .shift amount => cellsAt pointer [amount]
  | .add _ offset => cellsAt pointer [offset]
  | .multiply factors => pointer :: cellsAt pointer factors.offsets
  | .input => [pointer]
  | .output => [pointer]
  | .setZero => [pointer]

theorem Op.mem_touched_of_mem_uses {o : Op} {pointer i : Nat} (h : i ∈ o.uses pointer) :
    i ∈ o.touched pointer := by
  cases o with
  | add amount offset => exact mem_cellsAt.2 ⟨offset, List.mem_singleton_self offset, h⟩
  | output => exact List.mem_singleton.2 h
  | multiply factors =>
      rcases h with rfl | hk
      · exact List.mem_cons_self
      · exact List.mem_cons_of_mem _ (mem_cellsAt.2 hk)
  | shift amount => exact h.elim
  | input => exact h.elim
  | setZero => exact h.elim

namespace Machine

variable {σ : Type} {D : Device σ}

/-! ## What an operation keeps -/

section Keeps

variable {P : Tape → Prop} {cells : List Nat}

/-- A spread keeps what stores in the cells of its entries keep, whether it ends or stops. -/
theorem spread_keeps (origin : UInt8) {pointer : Nat}
    (hput : ∀ {t : Tape} {i : Nat} {v : UInt8}, i ∈ cells → Tape.hasRoom i v = true → P t →
      P (t.put i v)) :
    ∀ {l : List (Int × Int8)} {t : Tape}, (∀ i ∈ cellsAt pointer (l.map (·.1)), i ∈ cells) →
      t.pointer = pointer → P t →
        (∀ u, spread origin t l = .ok u → P u) ∧ ∀ e u, spread origin t l = .error (e, u) → P u := by
  intro l
  induction l with
  | nil =>
      intro t _ _ ht
      constructor
      · intro u hu
        cases hu
        exact ht
      · intro e u hu
        cases hu
  | cons entry rest ih =>
      intro t hcells hpointer ht
      obtain ⟨offset, factor⟩ := entry
      simp only [spread]
      cases hr : t.revise offset (· + origin * factor.toUInt8) with
      | error e =>
          constructor
          · intro u hu
            cases hu
          · intro e u hu
            cases hu
            exact ht
      | ok iv =>
          obtain ⟨i, v⟩ := iv
          obtain ⟨hi, -, hroom⟩ := (Tape.revise_eq_ok_iff _ _ _ _ _).1 hr
          have hposition := ((Tape.index_eq_ok_iff _ _ _).1 hi).1
          have hmem : i ∈ cells :=
            hcells i (mem_cellsAt.2 ⟨offset, List.mem_cons_self, hpointer ▸ hposition⟩)
          refine ih (fun j hj => hcells j ?_) ((Tape.pointer_put _ _ _).trans hpointer)
            (hput hmem hroom ht)
          obtain ⟨k, hk, hj⟩ := mem_cellsAt.1 hj
          exact mem_cellsAt.2 ⟨k, List.mem_cons_of_mem _ hk, hj⟩

/-- An operation keeps what moves to the cells that it touches and stores in them keep, also where
it fails. -/
theorem exec_keeps (o : Op) {s : State σ}
    (hput : ∀ {t : Tape} {i : Nat} {v : UInt8}, i ∈ o.touched s.tape.pointer →
      Tape.hasRoom i v = true → P t → P (t.put i v))
    (hmove : ∀ {t : Tape} {i : Nat}, i ∈ o.touched s.tape.pointer → (i : Int) ≤ Word.greatest →
      P t → P { t with pointer := i })
    (hs : P s.tape) : P (exec D o s).state.tape := by
  cases o with
  | shift amount =>
      cases hi : s.tape.index amount with
      | error e =>
          rw [exec_shift_of_error hi]
          exact hs
      | ok i =>
          rw [exec_shift_of_ok hi]
          obtain ⟨hposition, hfits⟩ := (Tape.index_eq_ok_iff _ _ _).1 hi
          rw [← hposition, Word.fits_iff] at hfits
          exact hmove (mem_cellsAt.2 ⟨amount, List.mem_singleton_self _, hposition⟩) hfits.2 hs
  | add amount offset =>
      cases hr : s.tape.revise offset (· + amount.toUInt8) with
      | error e =>
          rw [exec_add_of_error hr]
          exact hs
      | ok iv =>
          rw [exec_add_of_ok hr]
          obtain ⟨hi, -, hroom⟩ := (Tape.revise_eq_ok_iff _ _ _ _ _).1 hr
          have hposition := ((Tape.index_eq_ok_iff _ _ _).1 hi).1
          exact hput (mem_cellsAt.2 ⟨offset, List.mem_singleton_self _, hposition⟩) hroom hs
  | input =>
      simp only [exec]
      rcases readByte D s.streams with ⟨result, streams⟩
      cases result with
      | error e => exact hs
      | ok byte =>
          by_cases hroom : Tape.hasRoom s.tape.pointer byte = true
          · simp only [hroom, if_true]
            exact hput (List.mem_singleton_self _) hroom hs
          · simp only [hroom, Bool.false_eq_true, if_false]
            exact hs
  | output =>
      simp only [exec]
      rcases D.write s.tape.current s.streams with ⟨result, streams⟩
      cases result <;> exact hs
  | setZero => exact hput (List.mem_singleton_self _) (Tape.hasRoom_zero _) hs
  | multiply factors =>
      by_cases hzero : s.tape.current = 0
      · rw [exec_multiply_of_zero hzero]
        exact hs
      · obtain ⟨hok, herror⟩ := spread_keeps s.tape.current (l := factors.entries) hput
          (fun i hi => List.mem_cons_of_mem _ hi) rfl hs
        cases hspread : spread s.tape.current s.tape factors.entries with
        | error e =>
            rw [exec_multiply_of_error hzero hspread]
            exact herror _ _ hspread
        | ok u =>
            rw [exec_multiply_of_ok hzero hspread]
            refine hput ?_ (Tape.hasRoom_zero _) (hok u hspread)
            rw [pointer_of_spread hspread]
            exact List.mem_cons_self

end Keeps

/-! ## The touched cells are all that matters -/

variable {s u : State σ}

/-- An operation ends in the same way where the cells that it touches agree, and changes them
alike. -/
theorem exec_agree_touched (o : Op) (hstreams : s.streams = u.streams)
    (hpointer : s.tape.pointer = u.tape.pointer)
    (hcells : ∀ i ∈ o.touched s.tape.pointer, s.tape.cell i = u.tape.cell i) :
    Step.AgreeOff {i | i ∉ o.touched s.tape.pointer} (exec D o s) (exec D o u) := by
  refine exec_agreeOff D o ⟨hstreams, hpointer, fun i hi => hcells i (not_not.1 hi)⟩ ?_
  intro i huses hout
  exact hout (Op.mem_touched_of_mem_uses huses)

/-- An operation changes no cell that it does not touch. -/
theorem cell_exec_of_notMem (o : Op) {i : Nat} (hi : i ∉ o.touched s.tape.pointer) :
    (exec D o s).state.tape.cell i = s.tape.cell i := by
  refine exec_keeps (P := fun t => t.cell i = s.tape.cell i) o ?_ (fun _ _ ht => ht) rfl
  intro t j v hj _ ht
  have hne : i ≠ j := fun heq => hi (heq ▸ hj)
  rw [Tape.cell_put, if_neg hne, ht]

end Machine

end TapeLang
