import Mathlib.Data.Int.Order.Basic
import TapeLang.Proofs.CCode.Meaning
import TapeLang.Proofs.Extent
import TapeLang.Proofs.Optimizer.Inventory

/-!
# The code of one operation

Generated code runs on an array that mirrors the tape of the machine without a word: the cells of
the array hold what the tape holds there, and all others are zero on the tape. The code of an
operation, run where the cells that the operation uses exist, either reports an underflow, exactly
when the operation leaves the tape on the left, or goes on behind its last line with an array that
mirrors the tape after the operation (`opEnds_code`). On the way it uses no cell outside the array.
-/

set_option autoImplicit false

namespace TapeLang.CCode

/-- The array holds what the tape holds, and the rest of the tape is zero. -/
structure Mirrors (u : Unbounded.State) (c : State) : Prop where
  p : c.p = u.pointer
  inside : ∀ i, i < c.length → c.cell i = u.cell i
  outside : ∀ i, c.length ≤ i → u.cell i = 0
  streams : c.streams = u.streams

namespace Mirrors

variable {u : Unbounded.State} {c : State}

theorem start (input : List UInt8) : Mirrors (.fresh input) (.start input) :=
  ⟨rfl, fun _ hi => absurd hi (Nat.not_lt_zero _), fun _ _ => rfl, rfl⟩

/-- A longer array holds zeros where the tape does. -/
theorem reserve (h : Mirrors u c) (n : Nat) : Mirrors u (c.reserve n) := by
  have hlength := length_le_reserve c n
  refine ⟨(p_reserve c n).trans h.p, ?_, fun i hi => h.outside i (le_trans hlength hi), ?_⟩
  · intro i _
    rw [State.reserve]
    split
    next hlt => exact h.inside i (by rw [State.reserve, if_pos hlt] at *; assumption)
    next =>
      by_cases hi : i < c.length
      · simp only [hi, if_true]
        exact h.inside i hi
      · simp only [hi, if_false]
        exact (h.outside i (Nat.le_of_not_lt hi)).symm
  · rw [State.reserve]
    split <;> exact h.streams

theorem store (h : Mirrors u c) {i : Nat} (hi : i < c.length) (v : UInt8) :
    Mirrors (u.put i v) (c.store i v) where
  p := h.p
  inside j hj := by
    rw [Unbounded.State.cell_put, cell_store, h.inside j hj]
  outside j hj := by
    have hne : j ≠ i := by
      rintro rfl
      exact absurd hi (Nat.not_lt.2 hj)
    rw [Unbounded.State.cell_put, if_neg hne]
    exact h.outside j hj
  streams := h.streams

theorem current (h : Mirrors u c) (hlt : u.pointer < c.length) : c.cell c.p = u.current := by
  rw [h.p]
  exact h.inside _ hlt

end Mirrors

/-! ## What code leads to -/

/-- The array after an operation mirrors the tape after it. It is no shorter than before and, where
it grows with the pointer, no shorter to the right of the pointer either. -/
structure Carried (grow : Option Nat) (u u' : Unbounded.State) (c c' : State) : Prop where
  mirrors : Mirrors u' c'
  length_le : c.length ≤ c'.length
  grown : ∀ reach, grow = some reach → u.pointer + reach < c.length → u'.pointer + reach < c'.length

/-- An operation that does not move the pointer and does not change the length. -/
theorem Carried.of_same {grow : Option Nat} {u u' : Unbounded.State} {c c' : State}
    (h : Mirrors u' c') (hlength : c'.length = c.length) (hpointer : u'.pointer = u.pointer) :
    Carried grow u u' c c' := by
  refine ⟨h, le_of_eq hlength.symm, ?_⟩
  intro reach _ hlt
  rwa [hpointer, hlength]

/-- What some code leads to, against the end of the operation it is for. -/
def OpEnds (grow : Option Nat) (u : Unbounded.State) (c : State) (code : Progress)
    (after : List Block) : Option Unbounded.State → Prop
  | none => Leads code (.ended .underflowed c)
  | some u' => ∃ c', Leads code (.running after c') ∧ Carried grow u u' c c'

section Checked

variable {c : State} {offset : Int}

/-- A check that fails. -/
theorem leads_checked (h : (c.p : Int) + offset < 0) (rest : Block) (B : List Block) :
    Leads (.running (checked offset rest :: B) c) (.ended .underflowed c) := by
  have hcheck : step (.running (.stmt (.checkLeft offset.natAbs) rest :: B) c) =
      .ended .underflowed c := if_pos (by omega)
  rw [checked, if_pos (by omega), ← hcheck]
  exact Leads.step

/-- A check that succeeds, or none at all. -/
theorem reaches_checked (h : 0 ≤ (c.p : Int) + offset) (rest : Block) (B : List Block) :
    Reaches (.running (checked offset rest :: B) c) (.running (rest :: B) c) := by
  rw [checked]
  split
  next hneg =>
    have hcheck : step (.running (.stmt (.checkLeft offset.natAbs) rest :: B) c) =
        .running (rest :: B) c := if_neg (by omega)
    apply Reaches.head
    rw [hcheck]
    exact Reaches.refl _
  next => exact Reaches.refl _

end Checked

section Operations

variable {grow : Option Nat} {u : Unbounded.State} {c : State}

theorem opEnds_shift (hm : Mirrors u c) (amount : Int) (after : Block) (B : List Block) :
    OpEnds grow u c (.running (Op.code grow (.shift amount) after :: B) c) (after :: B)
      (Unbounded.exec (.shift amount) u) := by
  have hp := hm.p
  by_cases hneg : amount < 0
  · have hcode : Op.code grow (.shift amount) after =
        checked amount (.stmt (.moveLeft amount.natAbs) after) := by
      simp only [Op.code, hneg, if_true]
    rw [hcode, Unbounded.exec]
    by_cases hleft : (u.pointer : Int) + amount < 0
    · rw [Unbounded.State.index?_of_neg hleft]
      exact leads_checked (by omega) _ B
    · have hi : ((u.pointer - amount.natAbs : Nat) : Int) = u.pointer + amount := by omega
      have hmove : step (.running (.stmt (.moveLeft amount.natAbs) after :: B) c) =
          .running (after :: B) { c with p := c.p - amount.natAbs } := if_neg (by omega)
      rw [Unbounded.State.index?_of_eq hi]
      refine ⟨_, (reaches_checked (by omega) _ B).leads (hmove ▸ Leads.step), ?_⟩
      refine ⟨⟨by rw [hp], hm.inside, hm.outside, hm.streams⟩, le_refl _, ?_⟩
      intro reach _ hlt
      dsimp only
      omega
  · have hi : ((u.pointer + amount.natAbs : Nat) : Int) = u.pointer + amount := by omega
    have hmirrors : Mirrors { u with pointer := u.pointer + amount.natAbs }
        { c with p := c.p + amount.natAbs } :=
      ⟨by rw [hp], hm.inside, hm.outside, hm.streams⟩
    simp only [Op.code, hneg, if_false, Unbounded.exec, Unbounded.State.index?_of_eq hi]
    cases grow with
    | none =>
        refine ⟨_, Leads.step, hmirrors, le_refl _, ?_⟩
        intro reach hreach
        cases hreach
    | some reach =>
        -- after the move the array is made long enough again
        refine ⟨_, Leads.head (Reaches.head (Reaches.refl _)), hmirrors.reserve _,
          length_le_reserve { c with p := c.p + amount.natAbs } _, ?_⟩
        rintro reach' ⟨rfl⟩ -
        have hlt := lt_length_reserve { c with p := c.p + amount.natAbs }
          (c.p + amount.natAbs + reach)
        rw [hp] at hlt
        dsimp only
        rwa [hp]

theorem opEnds_add (hm : Mirrors u c) (amount : Int8) {offset : Int}
    (hroom : (u.pointer : Int) + offset < c.length) (after : Block) (B : List Block) :
    OpEnds grow u c (.running (Op.code grow (.add amount offset) after :: B) c) (after :: B)
      (Unbounded.exec (.add amount offset) u) := by
  have hp := hm.p
  rw [Op.code, Unbounded.exec]
  by_cases hleft : (u.pointer : Int) + offset < 0
  · rw [Unbounded.State.index?_of_neg hleft]
    exact leads_checked (by omega) _ B
  · obtain ⟨i, hi⟩ := Int.eq_ofNat_of_zero_le (Int.not_lt.1 hleft)
    have hlt : i < c.length := by omega
    have hadd : step (.running (.stmt (.add offset amount) after :: B) c) =
        .running (after :: B) (c.store i (u.cell i + amount.toUInt8)) := by
      rw [step, Stmt.exec, access_eq (by rw [hp, hi]) hlt, adjusted_natAbs, hm.inside i hlt]
    rw [Unbounded.State.index?_of_eq hi.symm]
    refine ⟨_, (reaches_checked (by omega) _ B).leads (hadd ▸ Leads.step), ?_⟩
    exact Carried.of_same (hm.store hlt _) rfl rfl

theorem opEnds_input (hm : Mirrors u c) (hlt : u.pointer < c.length) (after : Block)
    (B : List Block) :
    OpEnds grow u c (.running (Op.code grow .input after :: B) c) (after :: B)
      (Unbounded.exec .input u) := by
  have hread : step (.running (.stmt .read after :: B) c) = .running (after :: B)
      { c.store u.pointer u.streams.next.1 with streams := u.streams.next.2 } := by
    rw [step, Stmt.exec, access_current (by rw [hm.p]; exact hlt), hm.p, hm.streams]
  have hstore := hm.store hlt u.streams.next.1
  refine ⟨_, hread ▸ Leads.step, ?_⟩
  exact Carried.of_same ⟨hstore.p, hstore.inside, hstore.outside, rfl⟩ rfl rfl

theorem opEnds_output (hm : Mirrors u c) (hlt : u.pointer < c.length) (after : Block)
    (B : List Block) :
    OpEnds grow u c (.running (Op.code grow .output after :: B) c) (after :: B)
      (Unbounded.exec .output u) := by
  have hlt' : c.p < c.length := by
    rw [hm.p]
    exact hlt
  have hwrite : step (.running (.stmt .write after :: B) c) = .running (after :: B)
      { c with streams := { u.streams with output := u.streams.output.push u.current } } := by
    rw [step, Stmt.exec, access_current hlt', hm.current hlt, hm.streams]
  refine ⟨_, hwrite ▸ Leads.step, ?_⟩
  exact Carried.of_same ⟨hm.p, hm.inside, hm.outside, rfl⟩ rfl rfl

/-- The line that zeroes the current cell. -/
theorem leads_clear (hm : Mirrors u c) (hlt : u.pointer < c.length) (after : Block)
    (B : List Block) :
    Leads (.running (.stmt .clear after :: B) c) (.running (after :: B) (c.store u.pointer 0)) := by
  have hclear : step (.running (.stmt .clear after :: B) c) =
      .running (after :: B) (c.store u.pointer 0) := by
    rw [step, Stmt.exec, access_current (by rw [hm.p]; exact hlt), hm.p]
  rw [← hclear]
  exact Leads.step

theorem opEnds_setZero (hm : Mirrors u c) (hlt : u.pointer < c.length) (after : Block)
    (B : List Block) :
    OpEnds grow u c (.running (Op.code grow .setZero after :: B) c) (after :: B)
      (Unbounded.exec .setZero u) :=
  ⟨_, leads_clear hm hlt after B, Carried.of_same (hm.store hlt 0) rfl rfl⟩

/-! ## Multiplications -/

/-- The additions of a factor table. Their cells exist and none of them is the current one, which
therefore keeps its byte until the last line zeroes it. By induction on the entries. -/
theorem reaches_additions (B : List Block) :
    ∀ (l : List (Int × Int8)) {u : Unbounded.State} {c : State}, Mirrors u c →
      u.pointer < c.length →
      (∀ e ∈ l, e.1 ≠ 0 ∧ 0 ≤ (u.pointer : Int) + e.1 ∧ (u.pointer : Int) + e.1 < c.length) →
        ∃ u' c', Unbounded.spread u.current u l = some u' ∧
          Reaches (.running (additions l :: B) c) (.running B c') ∧
          Mirrors (u'.put u'.pointer 0) c' ∧ c'.length = c.length := by
  intro l
  induction l with
  | nil =>
      intro u c hm hlt _
      refine ⟨u, c.store u.pointer 0, rfl, ?_, hm.store hlt 0, rfl⟩
      rcases leads_clear hm hlt .done B with ⟨n, hn⟩
      refine ⟨1 + (n + 1), ?_⟩
      rw [run_add, additions, hn]
      rfl
  | cons e rest ih =>
      intro u c hm hlt hroom
      rcases e with ⟨offset, factor⟩
      rcases hroom (offset, factor) List.mem_cons_self with ⟨hne, hpos, hbound⟩
      obtain ⟨i, hi⟩ := Int.eq_ofNat_of_zero_le hpos
      have hi' : i < c.length := by
        simp only at hbound
        omega
      have hp := hm.p
      have hadd : step (.running (additions ((offset, factor) :: rest) :: B) c) =
          .running (additions rest :: B)
            (c.store i (u.cell i + u.current * factor.toUInt8)) := by
        rw [additions, step, Stmt.exec, access_current (by rw [hp]; exact hlt),
          access_eq (by rw [hp, hi]) hi', hm.current hlt, adjusted_mul, hm.inside i hi']
      -- the byte of the current cell is the same for all entries
      have hcurrent : (u.put i (u.cell i + u.current * factor.toUInt8)).current = u.current := by
        have hother : u.pointer ≠ i := by
          simp only at hi hne
          omega
        rw [Unbounded.State.current, Unbounded.State.cell_put, Unbounded.State.pointer_put,
          if_neg hother, Unbounded.State.current]
      rcases ih (hm.store hi' (u.cell i + u.current * factor.toUInt8)) hlt
          (fun e he => hroom e (List.mem_cons_of_mem _ he)) with ⟨u', c', hu', hreach, hm', hlength⟩
      rw [hcurrent] at hu'
      refine ⟨u', c', ?_, Reaches.head (hadd ▸ hreach), hm', hlength⟩
      rw [Unbounded.spread, Unbounded.State.index?_of_eq hi.symm]
      exact hu'

theorem opEnds_multiply (hm : Mirrors u c) (hlt : u.pointer < c.length) {factors : Factors}
    (hfree : factors.get? 0 = none)
    (hroom : ∀ k ∈ factors.offsets, (u.pointer : Int) + k < c.length) (after : Block)
    (B : List Block) :
    OpEnds grow u c (.running (Op.code grow (.multiply factors) after :: B) c) (after :: B)
      (Unbounded.exec (.multiply factors) u) := by
  have hp := hm.p
  have hcurrent := hm.current hlt
  have haccess : ∀ k, c.access 0 k = k c.p := access_current (by rw [hp]; exact hlt)
  cases hleast : factors.least? with
  | none =>
      -- a table without entries: the current cell is zeroed, and was zero if nothing is to be done
      have hentries := (Factors.least?_eq_none_iff factors).1 hleast
      have hcode : Op.code grow (.multiply factors) after = .stmt .clear after := by
        simp only [Op.code, hleast]
      have hexec : Unbounded.exec (.multiply factors) u = some (u.put u.pointer 0) := by
        rw [Unbounded.exec, hentries]
        split
        next hzero => rw [Unbounded.State.put_cell_eq hzero]
        next => rfl
      rw [hcode, hexec]
      exact ⟨_, leads_clear hm hlt after B, Carried.of_same (hm.store hlt 0) rfl rfl⟩
  | some least =>
      have hcode : Op.code grow (.multiply factors) after =
          .guarded .once (checked least (additions factors.entries)) after := by
        simp only [Op.code, hleast]
      rw [hcode, Unbounded.exec]
      by_cases hzero : u.current = 0
      · have htest : step (.running
            (.guarded .once (checked least (additions factors.entries)) after :: B) c) =
            .running (after :: B) c := by
          rw [step, haccess, if_pos (hcurrent.trans hzero)]
        rw [if_pos hzero]
        exact ⟨c, htest ▸ Leads.step, Carried.of_same hm rfl rfl⟩
      · have htest : step (.running
            (.guarded .once (checked least (additions factors.entries)) after :: B) c) =
            .running (checked least (additions factors.entries) :: after :: B) c := by
          rw [step, haccess, if_neg (by rwa [hcurrent])]
        rw [if_neg hzero]
        by_cases hleft : (u.pointer : Int) + least < 0
        · -- the first entry is the one that is left of cell zero
          have hspread : Unbounded.spread u.current u factors.entries = none := by
            cases hentries : factors.entries with
            | nil =>
                rw [(Factors.least?_eq_none_iff factors).2 hentries] at hleast
                cases hleast
            | cons e rest =>
                rw [Factors.least?, Factors.offsets, hentries] at hleast
                cases hleast
                rw [Unbounded.spread, Unbounded.State.index?_of_neg hleft]
          rw [hspread]
          exact Leads.head (htest ▸ (leads_checked (by omega) _ _).reaches)
        · have hentries : ∀ e ∈ factors.entries, e.1 ≠ 0 ∧ 0 ≤ (u.pointer : Int) + e.1 ∧
              (u.pointer : Int) + e.1 < c.length := by
            rintro ⟨k, v⟩ he
            have hk : k ∈ factors.offsets := List.mem_map_of_mem he
            have hle := Factors.least_le hleast hk
            refine ⟨?_, by dsimp only; omega, hroom k hk⟩
            rintro rfl
            rw [Factors.mem_entries_iff, hfree] at he
            cases he
          rcases reaches_additions (after :: B) factors.entries hm hlt hentries with
            ⟨u', c', hu', hreach, hm', hlength⟩
          rw [hu']
          have hpointer := Unbounded.pointer_of_spread hu'
          refine ⟨c', Leads.head (htest ▸ ?_), Carried.of_same hm' hlength hpointer⟩
          exact (reaches_checked (by omega) _ _).trans hreach

/-- The code of an operation, where the cells that the operation uses exist. -/
theorem opEnds_code (hm : Mirrors u c) (hlt : u.pointer < c.length) {o : Op}
    (hfree : o.sparesCurrent = true)
    (hroom : ∀ k ∈ o.offsets, (u.pointer : Int) + k < c.length) (after : Block) (B : List Block) :
    OpEnds grow u c (.running (o.code grow after :: B) c) (after :: B) (Unbounded.exec o u) := by
  cases o with
  | shift amount => exact opEnds_shift hm amount after B
  | add amount offset => exact opEnds_add hm amount (hroom offset List.mem_cons_self) after B
  | input => exact opEnds_input hm hlt after B
  | output => exact opEnds_output hm hlt after B
  | setZero => exact opEnds_setZero hm hlt after B
  | multiply factors =>
      exact opEnds_multiply hm hlt (Option.isNone_iff_eq_none.1 hfree) hroom after B

end Operations

end TapeLang.CCode
