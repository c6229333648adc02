import TapeLang.Proofs.Optimizer.Shrinking
import TapeLang.Proofs.Source.Spelling

/-!
# Merged programs

A program is merged if none of its operations is without effect and no two adjacent operations can
be joined. These are the programs that merging leaves as they are (`mergeRuns_eq_iff`). A run of
single moves or of single increments before a merged program becomes one operation
(`mergeRuns_moveOps`, `mergeRuns_amountOps`).
-/

set_option autoImplicit false

namespace TapeLang

namespace Program

@[simp] theorem mergeRuns_done : mergeRuns done = done := rfl

theorem mergeRuns_op (o : Op) (rest : Program) :
    mergeRuns (op o rest) = consFused o rest.mergeRuns := rfl

@[simp] theorem mergeRuns_loop (body rest : Program) :
    mergeRuns (loop body rest) = loop body.mergeRuns rest.mergeRuns := rfl

/-- The operation can be joined with the first operation of the program. -/
def joins (o : Op) : Program → Bool
  | op first _ => (o.join? first).isSome
  | _ => false

/-- No operation is without effect, and no two adjacent ones can be joined. -/
def Merged : Program → Prop
  | done => True
  | op o rest => o.isNoOp = false ∧ rest.joins o = false ∧ rest.Merged
  | loop body rest => body.Merged ∧ rest.Merged

theorem consEffective_eq_op_iff (o : Op) (p : Program) :
    consEffective o p = op o p ↔ o.isNoOp = false := by
  rw [consEffective]
  cases h : o.isNoOp with
  | false => simp
  | true =>
      simp only [if_true, Bool.true_eq_false, iff_false]
      -- a program is not its own tail
      intro heq
      have hcount := congrArg nodeCount heq
      simp only [nodeCount] at hcount
      omega

theorem consFused_eq_op_iff (o : Op) (p : Program) :
    consFused o p = op o p ↔ o.isNoOp = false ∧ p.joins o = false := by
  cases p with
  | done => simp [consFused, joins, consEffective_eq_op_iff]
  | loop body rest => simp [consFused, joins, consEffective_eq_op_iff]
  | op first rest =>
      rw [consFused, joins]
      cases hj : o.join? first with
      | none => simp [consEffective_eq_op_iff]
      | some joined =>
          simp only [Option.isSome_some, Bool.true_eq_false, and_false, iff_false]
          intro heq
          have hcount := (shrunk_consEffective joined rest).nodeCount_le
          rw [heq] at hcount
          simp only [nodeCount] at hcount
          omega

/-- Merging leaves exactly the merged programs as they are. -/
theorem mergeRuns_eq_iff (p : Program) : p.mergeRuns = p ↔ p.Merged := by
  induction p with
  | done => simp [Merged]
  | op o rest ih =>
      rw [Merged, ← ih, mergeRuns_op]
      constructor
      · intro h
        -- what follows the operation stays as it is, for otherwise nodes would be missing
        have hrest : rest.mergeRuns = rest := by
          have hback := shrunk_consFused o rest.mergeRuns
          rw [h] at hback
          have hthere := (shrunk_everywhere shrunk_fuse rest).op o
          injection hthere.antisymm hback
        rw [hrest, consFused_eq_op_iff] at h
        exact ⟨h.1, h.2, hrest⟩
      · rintro ⟨hnoOp, hjoins, hrest⟩
        rw [hrest]
        exact (consFused_eq_op_iff o rest).2 ⟨hnoOp, hjoins⟩
  | loop body rest ihbody ihrest =>
      rw [Merged, ← ihbody, ← ihrest, mergeRuns_loop]
      simp

/-! ## Runs -/

/-- How far a shift goes makes no difference to what it can be joined with. -/
theorem joins_shift (a b : Int) (p : Program) : p.joins (.shift a) = p.joins (.shift b) := by
  cases p with
  | done => rfl
  | loop body rest => rfl
  | op first rest => cases first <;> rfl

theorem joins_add (a b : Int8) (offset : Int) (p : Program) :
    p.joins (.add a offset) = p.joins (.add b offset) := by
  cases p with
  | done => rfl
  | loop body rest => rfl
  | op first rest =>
      cases first with
      | add c i => by_cases h : offset = i <;> simp [joins, Op.join?, h]
      | shift c => rfl
      | input => rfl
      | output => rfl
      | setZero => rfl
      | multiply factors => rfl

theorem mergeRuns_shifts {s : Int} (hs : s ≠ 0) {p : Program}
    (hp : p.mergeRuns.joins (.shift s) = false) (n : Nat) :
    (sequence (List.replicate (n + 1) (.shift s)) p).mergeRuns =
      op (.shift ((n + 1 : Nat) * s)) p.mergeRuns := by
  induction n with
  | zero =>
      have hone : ((0 + 1 : Nat) : Int) * s = s := by simp
      rw [hone]
      apply (consFused_eq_op_iff _ _).2
      exact ⟨by simpa [Op.isNoOp] using hs, hp⟩
  | succ n ih =>
      have hsum : s + ((n + 1 : Nat) : Int) * s = ((n + 1 + 1 : Nat) : Int) * s := by
        rw [Int.natCast_add (n + 1) 1, Int.add_mul]
        omega
      have hne : ((n + 1 + 1 : Nat) : Int) * s ≠ 0 := Int.mul_ne_zero (by omega) hs
      rw [List.replicate_succ, sequence_cons, mergeRuns_op, ih]
      simp only [consFused, Op.join?, hsum]
      apply (consEffective_eq_op_iff _ _).2
      simpa [Op.isNoOp] using hne

theorem mergeRuns_moveOps {distance : Int} (hne : distance ≠ 0) {p : Program}
    (hp : p.mergeRuns.joins (.shift distance) = false) :
    (sequence (moveOps distance) p).mergeRuns = op (.shift distance) p.mergeRuns := by
  have hsign : distance.sign ≠ 0 := fun h => hne (Int.sign_eq_zero_iff_zero.1 h)
  obtain ⟨n, hn⟩ := Nat.exists_eq_succ_of_ne_zero (Int.natAbs_ne_zero.2 hne)
  rw [moveOps, hn, mergeRuns_shifts hsign (by rwa [joins_shift _ distance]), ← Nat.succ_eq_add_one,
    ← hn, Int.mul_comm, Int.sign_mul_natAbs]

/-- A small number that is not zero is not zero as a signed byte. -/
theorem ofInt_ne_zero {m : Int} (hne : m ≠ 0) (hsmall : m.natAbs ≤ 128) : Int8.ofInt m ≠ 0 := by
  intro h
  have hbmod := congrArg Int8.toInt h
  rw [Int8.toInt_ofInt, Int.bmod_def] at hbmod
  simp only [Int8.toInt_zero, Int8.size] at hbmod
  split at hbmod <;> omega

theorem mergeRuns_adds {s : Int} (hs : s.natAbs = 1) {p : Program}
    (hp : p.mergeRuns.joins (.add (Int8.ofInt s) 0) = false) (n : Nat) (hn : n + 1 ≤ 128) :
    (sequence (List.replicate (n + 1) (.add (Int8.ofInt s) 0)) p).mergeRuns =
      op (.add (Int8.ofInt ((n + 1 : Nat) * s)) 0) p.mergeRuns := by
  induction n with
  | zero =>
      have hone : ((0 + 1 : Nat) : Int) * s = s := by simp
      rw [hone]
      apply (consFused_eq_op_iff _ _).2
      exact ⟨by simpa [Op.isNoOp] using ofInt_ne_zero (by omega) (by omega), hp⟩
  | succ n ih =>
      have hsum : Int8.ofInt s + Int8.ofInt (((n + 1 : Nat) : Int) * s) =
          Int8.ofInt (((n + 1 + 1 : Nat) : Int) * s) := by
        rw [← Int8.ofInt_add, Int.natCast_add (n + 1) 1, Int.add_mul, Int.add_comm]
        simp
      have hsize : (((n + 1 + 1 : Nat) : Int) * s).natAbs = n + 1 + 1 := by
        rw [Int.natAbs_mul, hs, Int.natAbs_natCast, Nat.mul_one]
      have hne := ofInt_ne_zero (m := ((n + 1 + 1 : Nat) : Int) * s) (by omega) (by omega)
      rw [List.replicate_succ, sequence_cons, mergeRuns_op, ih (by omega)]
      simp only [consFused, Op.join?, if_true, hsum]
      apply (consEffective_eq_op_iff _ _).2
      simpa [Op.isNoOp] using hne

theorem mergeRuns_amountOps {amount : Int8} (hne : amount ≠ 0) {p : Program}
    (hp : p.mergeRuns.joins (.add amount 0) = false) :
    (sequence (amountOps amount) p).mergeRuns = op (.add amount 0) p.mergeRuns := by
  have hint : amount.toInt ≠ 0 := by
    intro h
    exact hne (Int8.toInt_inj.1 (h.trans Int8.toInt_zero.symm))
  have hsign : (if amount.toInt < 0 then (-1 : Int8) else 1) = Int8.ofInt amount.toInt.sign := by
    split
    next h => rw [Int.sign_eq_neg_one_of_neg h]; rfl
    next h => rw [Int.sign_eq_one_of_pos (by omega)]; rfl
  have hle := amount.le_toInt
  have hlt := amount.toInt_lt
  obtain ⟨n, hn⟩ := Nat.exists_eq_succ_of_ne_zero (Int.natAbs_ne_zero.2 hint)
  rw [amountOps, hsign, hn, mergeRuns_adds (Int.natAbs_sign_of_ne_zero hint)
    (by rwa [joins_add _ amount]) n (by omega), ← Nat.succ_eq_add_one, ← hn, Int.mul_comm,
    Int.sign_mul_natAbs, Int8.ofInt_toInt]

end Program

end TapeLang
