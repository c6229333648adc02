import TapeLang.Optimizer.Transfers
import TapeLang.Proofs.Contexts
import TapeLang.Proofs.FactorTables

/-!
# Replacing multiply loops is an improvement

One round of a multiply loop adds to each cell what `tally?` says (`sim_tally`), and takes one from
the current cell. So the loop makes as many rounds as the current cell says (`sim_transfer_rounds`),
and what it has added by then is what the `multiply` in its place adds (`exec_multiply_of_rounds`).

A cell that the `multiply` changes was changed in the first round already, so that it can be used,
and in the last round its final byte was stored, so that there is room for it. Cells whose total is
zero are not in the factor table; there the loop may fail where the `multiply` does not.
-/

set_option autoImplicit false

namespace TapeLang.Machine

variable {σ : Type} {D : Device σ} {n : Nat} {K K' : List Program}

/-- What a table adds to a cell if its offsets count from `base`. -/
def drift (totals : Factors) (base : Int) (i : Nat) : UInt8 :=
  ((totals.get? (i - base)).getD 0).toUInt8

/-- Every cell with an entry can be used and has room for the byte in it. -/
def Usable (totals : Factors) (base : Int) (t : Tape) : Prop :=
  ∀ k v, totals.get? k = some v → ∃ i : Nat, (i : Int) = base + k ∧
    Word.fits (base + k) = true ∧ Tape.hasRoom i (t.cell i) = true

/-! ## One round -/

/-- The second tape has what the table adds on top of the first. -/
structure Tallied (totals : Factors) (base : Int) (t u : Tape) : Prop where
  cell_eq : ∀ i, u.cell i = t.cell i + drift totals base i
  usable : Usable totals base u

theorem Tallied.empty (base : Int) (t : Tape) : Tallied .empty base t t := by
  refine ⟨fun i => ?_, fun k v h => ?_⟩
  · rw [drift, Factors.get?_empty]
    exact (UInt8.add_zero _).symm
  · rw [Factors.get?_empty] at h
    cases h

/-- An addition is one more total. -/
theorem Tallied.bump {totals : Factors} {base : Int} {t u : Tape} (h : Tallied totals base t u)
    {k : Int} {amount : Int8} {i : Nat} (hi : (i : Int) = base + k)
    (hfits : Word.fits (base + k) = true)
    (hroom : Tape.hasRoom i (u.cell i + amount.toUInt8) = true) :
    Tallied (totals.bump k amount) base t (u.put i (u.cell i + amount.toUInt8)) := by
  refine ⟨fun j => ?_, fun m v hm => ?_⟩
  · rw [Tape.cell_put, h.cell_eq, h.cell_eq, drift, drift, drift, Factors.get?_bump]
    by_cases hj : j = i
    · subst hj
      rw [if_pos rfl, if_pos (by omega), show (j : Int) - base = k by omega, Option.getD_some,
        Int8.toUInt8_add, UInt8.add_assoc]
    · rw [if_neg hj, if_neg (by omega)]
  · rw [Factors.get?_bump] at hm
    by_cases hk : m = k
    · subst hk
      refine ⟨i, hi, hfits, ?_⟩
      rw [Tape.cell_put, if_pos rfl]
      exact hroom
    · rw [if_neg hk] at hm
      obtain ⟨j, hj, hfits', hroom'⟩ := h.usable m v hm
      refine ⟨j, hj, hfits', ?_⟩
      rw [Tape.cell_put, if_neg (by omega)]
      exact hroom'

/-- The body of a multiply loop, run on the left side only: it fails, or it ends where `tally?` says
with what `tally?` says. -/
theorem sim_tally {c' : Config σ} {base : Int} {t : Tape} (body : Program) :
    ∀ {here stop : Int} {totals totals' : Factors} {u : State σ},
      body.tally? here totals = some (stop, totals') → (u.tape.pointer : Int) = base + here →
      Tallied totals base t u.tape → u.streams = c'.state.streams →
      (∀ u' : State σ, (u'.tape.pointer : Int) = base + stop → Tallied totals' base t u'.tape →
        u'.streams = u.streams → Sim D n ⟨K, u'⟩ c') →
      Sim D n ⟨body :: K, u⟩ c' := by
  induction body with
  | done =>
      intro here stop totals totals' u htally hpointer hu _ hK
      simp only [Program.tally?, Option.some.injEq, Prod.mk.injEq] at htally
      obtain ⟨rfl, rfl⟩ := htally
      exact Sim.congr_left (turn_done D K u) rfl (hK u hpointer hu rfl)
  | op o rest ih =>
      intro here stop totals totals' u htally hpointer hu hstreams hK
      cases o with
      | shift amount =>
          refine sim_shift hstreams fun i hi => ?_
          obtain ⟨hi', -⟩ := (Tape.index_eq_ok_iff _ _ _).1 hi
          exact ih htally (by show (i : Int) = base + (here + amount); omega)
            ⟨hu.cell_eq, hu.usable⟩ hstreams hK
      | add amount offset =>
          refine sim_add hstreams fun i v hr => ?_
          obtain ⟨hi, rfl, hroom⟩ := (Tape.revise_eq_ok_iff _ _ _ _ _).1 hr
          obtain ⟨hi', hfits⟩ := (Tape.index_eq_ok_iff _ _ _).1 hi
          have hplace : (u.tape.pointer : Int) + offset = base + (here + offset) := by omega
          rw [hplace] at hi' hfits
          refine ih htally ?_ (hu.bump hi' hfits hroom) hstreams hK
          rw [Tape.pointer_put]
          exact hpointer
      | input => simp [Program.tally?] at htally
      | output => simp [Program.tally?] at htally
      | setZero => simp [Program.tally?] at htally
      | multiply factors => simp [Program.tally?] at htally
  | loop body rest _ _ =>
      intro here stop totals totals' u htally
      simp [Program.tally?] at htally

/-! ## All rounds -/

/-- The second tape has what `rounds` rounds add on top of the first. -/
structure Rounds (totals : Factors) (rounds : UInt8) (t u : Tape) : Prop where
  pointer_eq : u.pointer = t.pointer
  cell_eq : ∀ i, u.cell i = t.cell i + rounds * drift totals t.pointer i
  usable : rounds ≠ 0 → Usable totals t.pointer u

theorem Rounds.zero (totals : Factors) (t : Tape) : Rounds totals 0 t t :=
  ⟨rfl, fun i => by rw [UInt8.zero_mul, UInt8.add_zero], fun h => absurd rfl h⟩

theorem Rounds.succ {totals : Factors} {rounds : UInt8} {t u v : Tape}
    (h : Rounds totals rounds t u) (hv : Tallied totals u.pointer u v)
    (hpointer : v.pointer = u.pointer) : Rounds totals (rounds + 1) t v := by
  rw [h.pointer_eq] at hv
  refine ⟨hpointer.trans h.pointer_eq, fun i => ?_, fun _ => hv.usable⟩
  rw [hv.cell_eq, h.cell_eq]
  grind

/-- What a table adds to the current cell. -/
theorem drift_self (totals : Factors) (pointer : Nat) :
    drift totals pointer pointer = ((totals.get? 0).getD 0).toUInt8 := by
  rw [drift, show (pointer : Int) - pointer = 0 by omega]

theorem Rounds.current_eq {totals : Factors} {rounds : UInt8} {t u : Tape}
    (h : Rounds totals rounds t u) (horigin : totals.get? 0 = some (-1)) :
    u.current = t.current - rounds := by
  rw [Tape.current, h.cell_eq, h.pointer_eq, drift_self, horigin, Option.getD_some,
    show (-1 : Int8).toUInt8 = 255 from rfl, Tape.current]
  grind

/-! ## The operation in place of the loop -/

/-- A spread over usable cells succeeds and adds to each cell its share. -/
theorem spread_of_usable (origin : UInt8) :
    ∀ {l : List (Int × Int8)} {t : Tape}, l.Pairwise (fun a b => a.1 < b.1) →
      (∀ e ∈ l, ∃ i : Nat, (i : Int) = t.pointer + e.1 ∧
        Word.fits ((t.pointer : Int) + e.1) = true ∧
          Tape.hasRoom i (t.cell i + origin * e.2.toUInt8) = true) →
      ∃ u, spread origin t l = .ok u ∧ u.pointer = t.pointer ∧ ∀ i : Nat,
        u.cell i = t.cell i + origin * ((l.lookup ((i : Int) - t.pointer)).getD 0).toUInt8 := by
  intro l
  induction l with
  | nil =>
      intro t _ _
      refine ⟨t, rfl, rfl, fun i => ?_⟩
      rw [List.lookup_nil, Option.getD_none, show (0 : Int8).toUInt8 = 0 from rfl, UInt8.mul_zero,
        UInt8.add_zero]
  | cons e rest ih =>
      intro t hsorted husable
      obtain ⟨offset, factor⟩ := e
      obtain ⟨hfirst, hsorted'⟩ := List.pairwise_cons.1 hsorted
      obtain ⟨i, hi, hfits, hroom⟩ := husable (offset, factor) List.mem_cons_self
      have hrevise : t.revise offset (· + origin * factor.toUInt8) =
          .ok (i, t.cell i + origin * factor.toUInt8) :=
        (Tape.revise_eq_ok_iff _ _ _ _ _).2 ⟨(Tape.index_eq_ok_iff _ _ _).2 ⟨hi, hfits⟩, rfl, hroom⟩
      have husable' : ∀ e ∈ rest, ∃ j : Nat,
          (j : Int) = (t.put i (t.cell i + origin * factor.toUInt8)).pointer + e.1 ∧
          Word.fits (((t.put i (t.cell i + origin * factor.toUInt8)).pointer : Int) + e.1) = true ∧
          Tape.hasRoom j ((t.put i (t.cell i + origin * factor.toUInt8)).cell j +
            origin * e.2.toUInt8) = true := by
        intro e he
        obtain ⟨j, hj, hfits', hroom'⟩ := husable e (List.mem_cons_of_mem _ he)
        have hlt : offset < e.1 := hfirst e he
        rw [Tape.pointer_put]
        refine ⟨j, hj, hfits', ?_⟩
        rw [Tape.cell_put, if_neg (by omega)]
        exact hroom'
      obtain ⟨u, hu, hpointer, hcell⟩ := ih hsorted' husable'
      refine ⟨u, ?_, ?_, fun j => ?_⟩
      · simp only [spread, hrevise]
        exact hu
      · rw [hpointer, Tape.pointer_put]
      · rw [hcell, Tape.cell_put, Tape.pointer_put, List.lookup_cons]
        by_cases hj : j = i
        · -- offsets ascend, so no later entry adds to this cell again
          have hkey : (j : Int) - t.pointer = offset := by omega
          rw [if_pos hj, hkey, Factors.lookup_eq_none_of_lt hfirst, beq_self_eq_true, hj,
            Option.getD_none, show (0 : Int8).toUInt8 = 0 from rfl, UInt8.mul_zero, UInt8.add_zero]
          rfl
        · have hkey : ((j : Int) - t.pointer == offset) = false := by
            simp only [beq_eq_false_iff_ne, ne_eq]
            omega
          rw [if_neg hj, hkey]

/-- Leaving out the current cell and totals of zero makes no difference to the other cells. -/
theorem drift_filter (totals : Factors) {pointer i : Nat} (hi : i ≠ pointer) :
    drift (totals.filter fun e => e.1 ≠ 0 && e.2 ≠ 0) pointer i = drift totals pointer i := by
  have hkey : (i : Int) - pointer ≠ 0 := by omega
  rw [drift, drift, Factors.get?_filter]
  cases totals.get? ((i : Int) - pointer) with
  | none => rfl
  | some v => by_cases hv : v = 0 <;> simp [Option.filter, hv, hkey]

/-- After as many rounds as the current cell says, the loop has done what the operation does. -/
theorem exec_multiply_of_rounds {totals factors : Factors} {rounds : UInt8} {t u : State σ}
    (h : Rounds totals rounds t.tape u.tape) (horigin : totals.get? 0 = some (-1))
    (hfactors : factors = totals.filter fun e => e.1 ≠ 0 && e.2 ≠ 0)
    (hzero : u.tape.current = 0) (hstreams : u.streams = t.streams) :
    ∃ w, exec D (.multiply factors) t = .next w ∧ u.Same w := by
  have hrounds : rounds = t.tape.current := by
    have hcurrent := h.current_eq horigin
    rw [hzero] at hcurrent
    grind
  by_cases hstart : t.tape.current = 0
  · -- the loop was never entered
    refine ⟨t, exec_multiply_of_zero hstart, hstreams, h.pointer_eq, fun i _ => ?_⟩
    rw [h.cell_eq, hrounds, hstart, UInt8.zero_mul, UInt8.add_zero]
  · have husable : ∀ e ∈ factors.entries, ∃ i : Nat, (i : Int) = t.tape.pointer + e.1 ∧
        Word.fits ((t.tape.pointer : Int) + e.1) = true ∧
          Tape.hasRoom i (t.tape.cell i + t.tape.current * e.2.toUInt8) = true := by
      -- the last round stored in each of these cells the byte that the operation stores
      intro e he
      rw [hfactors] at he
      have hmem := (Factors.mem_entries_iff totals e.1 e.2).1 (List.mem_of_mem_filter he)
      obtain ⟨i, hi, hfits, hroom⟩ := h.usable (hrounds ▸ hstart) e.1 e.2 hmem
      refine ⟨i, hi, hfits, ?_⟩
      rwa [h.cell_eq, hrounds, drift, show (i : Int) - t.tape.pointer = e.1 by omega, hmem] at hroom
    obtain ⟨w, hw, hpointer, hcell⟩ := spread_of_usable t.tape.current factors.ascending husable
    refine ⟨_, exec_multiply_of_ok hstart hw, hstreams, ?_, fun i _ => ?_⟩
    · rw [Tape.pointer_put, hpointer, h.pointer_eq]
    · rw [Tape.cell_put, hpointer]
      by_cases hi : i = t.tape.pointer
      · rw [if_pos hi, hi, ← h.pointer_eq]
        exact hzero
      · have hshare : w.cell i = t.tape.cell i + t.tape.current * drift factors t.tape.pointer i :=
          hcell i
        rw [if_neg hi, hshare, hfactors, drift_filter totals hi, h.cell_eq, hrounds]

/-- The rounds of a multiply loop, by induction on the byte in the current cell, which counts them.
Meanwhile the `multiply` waits on the tape that the loop began with. -/
theorem sim_transfer_rounds {body rest : Program} {totals factors : Factors}
    (hK : Resumes D n K K') (htally : body.tally? 0 .empty = some (0, totals))
    (horigin : totals.get? 0 = some (-1))
    (hfactors : factors = totals.filter fun e => e.1 ≠ 0 && e.2 ≠ 0) {t t' : State σ}
    (ht : t.Same t') (c : Nat) :
    ∀ (rounds : UInt8) (u : State σ), Rounds totals rounds t.tape u.tape →
      u.streams = t.streams → u.tape.current.toNat = c →
        Sim D n ⟨.loop body rest :: K, u⟩ ⟨.op (.multiply factors) rest :: K', t'⟩ := by
  induction c with
  | zero =>
      intro rounds u hu hstreams hc
      have hzero : u.tape.current = 0 := UInt8.toNat_inj.1 hc
      obtain ⟨w, hw, hsame⟩ := exec_multiply_of_rounds (D := D) hu horigin hfactors hzero hstreams
      have hexec := exec_same D (.multiply factors) ht
      rw [hw] at hexec
      cases hw' : exec D (.multiply factors) t' with
      | failed fault w' =>
          rw [hw'] at hexec
          exact hexec.elim
      | next w' =>
          rw [hw'] at hexec
          refine (Sim.both (turn_loop_zero D K u body rest hzero) ?_
            (hstreams.trans ht.streams_eq) (Simulated.refl D rest n K K' hK u w'
              (hsame.trans hexec))).mono (Nat.le_succ n)
          rw [turn_op, hw', Step.toTurn]
  | succ c ih =>
      intro rounds u hu hstreams hc
      have hnonzero : u.tape.current ≠ 0 := by
        intro hzero
        rw [hzero] at hc
        cases hc
      refine .skip (turn_loop_nonzero D K u body rest hnonzero) rfl
        (sim_tally body htally (by omega) (Tallied.empty u.tape.pointer u.tape)
          (hstreams.trans ht.streams_eq) fun v hpointer hv hstreams' => ?_)
      -- one round more has been made, and the byte that counts them is one less
      have hv' := hu.succ hv (by omega)
      refine ih (rounds + 1) v hv' (hstreams'.trans hstreams) ?_
      have hcurrent : v.tape.current = u.tape.current - 1 := by
        rw [hv'.current_eq horigin, hu.current_eq horigin]
        grind
      have hone : (1 : UInt8) ≤ u.tape.current := by
        rw [UInt8.le_iff_toNat_le, hc]
        exact Nat.succ_le_succ (Nat.zero_le c)
      rw [hcurrent, UInt8.toNat_sub_of_le _ _ hone, hc]
      rfl

theorem simulated_transfer {body : Program} {factors : Factors} (h : body.factors? = some factors)
    (rest : Program) : Simulated D (.loop body rest) (.op (.multiply factors) rest) := by
  intro n K K' hK s s' hs
  obtain ⟨totals, htally, horigin, hfactors⟩ := Program.factors?_eq_some_iff.1 h
  exact sim_transfer_rounds hK htally horigin hfactors hs _ 0 s (Rounds.zero totals s.tape) rfl rfl

theorem improves_multiplyHere (p : Program) : Improves D p p.multiplyHere := by
  induction p with
  | done => exact .refl
  | op o rest ih => exact Improves.op o ih
  | loop body rest _ ih =>
      rw [Program.multiplyHere]
      split
      next factors h =>
        exact (Improves.loop_rest body ih).tail (simulated_transfer h rest.multiplyHere)
      next => exact Improves.loop_rest body ih

theorem improves_multiplyLoops (p : Program) : Improves D p p.multiplyLoops :=
  improves_everywhere improves_multiplyHere p

end TapeLang.Machine
