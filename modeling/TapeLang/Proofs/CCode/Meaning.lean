import Mathlib.Logic.Function.Basic
import Mathlib.Logic.Function.Iterate
import TapeLang.CCode.Generate
import TapeLang.Proofs.Unbounded

/-!
# What generated code means

The C meaning of the statements and blocks of a main function. The index `p` and the length of the
array are natural numbers of any size, cells are unsigned characters, and growing the array never
fails. A run takes one statement or one test at a time. It ends by returning from the main function,
by the call that reports an underflow, or by being undefined: an access outside the array, or an
index that would become negative. An end, once reached, stays (`run_of_le`).
-/

set_option autoImplicit false

namespace TapeLang.CCode

/-- The array, the index, and what can still be read and has been written. Only the first `length`
cells exist. -/
structure State where
  length : Nat
  cell : Nat → UInt8
  p : Nat
  streams : Buffers

/-- Where a run stands: the blocks that are left, innermost first, or how it ended. -/
inductive Progress where
  | running (frames : List Block) (s : State)
  /-- The main function has returned, or has reported an underflow. -/
  | ended (e : End) (s : State)
  /-- Something was done that has no meaning. -/
  | undefined

namespace State

/-- No array yet. -/
def start (input : List UInt8) : State := ⟨0, fun _ => 0, 0, .ofInput input⟩

/-- The array made long enough for an index: at least twice as long, with zeros in the new cells. -/
def reserve (s : State) (index : Nat) : State :=
  if index < s.length then s
  else
    { s with
      length := if s.length * 2 ≤ index then index + 1 else s.length * 2
      cell := fun i => if i < s.length then s.cell i else 0 }

/-- The array with a byte stored in a cell. -/
def store (s : State) (i : Nat) (v : UInt8) : State :=
  { s with cell := Function.update s.cell i v }

/-- What follows an access of the array at an offset from the index. -/
def access (s : State) (offset : Int) (after : Nat → Progress) : Progress :=
  if 0 ≤ (s.p : Int) + offset ∧ (s.p : Int) + offset < s.length then
    after ((s.p : Int) + offset).toNat
  else .undefined

end State

/-- An integer added to a cell or taken from it, as the sign of `amount` says, and stored as an
unsigned character. -/
def adjusted (amount : Int8) (v : UInt8) (size : Nat) : UInt8 :=
  if amount.toInt < 0 then .ofInt ((v.toNat : Int) - size) else .ofInt ((v.toNat : Int) + size)

/-- One statement, in front of some blocks. -/
def Stmt.exec (frames : List Block) (s : State) : Stmt → Progress
  | .reserve n => .running frames (s.reserve n)
  | .reserveAhead n => .running frames (s.reserve (s.p + n))
  | .checkLeft n => if s.p < n then .ended .underflowed s else .running frames s
  | .moveLeft n => if s.p < n then .undefined else .running frames { s with p := s.p - n }
  | .moveRight n => .running frames { s with p := s.p + n }
  | .add offset amount =>
      s.access offset fun i =>
        .running frames (s.store i (adjusted amount (s.cell i) amount.toInt.natAbs))
  | .addScaled offset factor =>
      s.access 0 fun origin =>
        s.access offset fun i =>
          .running frames (s.store i (adjusted factor (s.cell i)
            ((s.cell origin).toNat * factor.toInt.natAbs)))
  | .clear => s.access 0 fun i => .running frames (s.store i 0)
  | .read =>
      s.access 0 fun i =>
        .running frames { s.store i s.streams.next.1 with streams := s.streams.next.2 }
  | .write =>
      s.access 0 fun i =>
        .running frames
          { s with streams := { s.streams with output := s.streams.output.push (s.cell i) } }
  -- the array is gone, so no cell may be used any more
  | .release => .running frames { s with length := 0 }
  | .finish => .ended .completed s

/-- One statement or one test. The end of the main function returns. A run that has ended stays as
it is. -/
def step : Progress → Progress
  | .running [] s => .ended .completed s
  | .running (.done :: frames) s => .running frames s
  | .running (.stmt statement rest :: frames) s => statement.exec (rest :: frames) s
  | .running (.guarded g body rest :: frames) s =>
      s.access 0 fun i =>
        if s.cell i = 0 then .running (rest :: frames) s
        else
          match g with
          | .loop => .running (body :: .guarded .loop body rest :: frames) s
          | .once => .running (body :: rest :: frames) s
  | .ended e s => .ended e s
  | .undefined => .undefined

/-- Some steps. -/
def run (n : Nat) (x : Progress) : Progress := step^[n] x

/-- The main function of a program on an input, after some steps. -/
def runMain (p : Program) (input : List UInt8) (n : Nat) : Progress :=
  run n (.running [mainBlock p] (.start input))

theorem run_add (m n : Nat) (x : Progress) : run (m + n) x = run m (run n x) :=
  Function.iterate_add_apply step m n x

/-- What a step leaves as it is stays for all further steps. -/
theorem run_of_le {x y : Progress} (hy : step y = y) {m n : Nat} (hmn : m ≤ n) (h : run m x = y) :
    run n x = y := by
  obtain ⟨d, rfl⟩ := Nat.exists_eq_add_of_le' hmn
  rw [run_add, h]
  exact Function.iterate_fixed hy d

/-! ## One step after another -/

/-- Some steps lead from one place to another. -/
def Reaches (x y : Progress) : Prop := ∃ n, run n x = y

/-- At least one step leads from one place to another. -/
def Leads (x y : Progress) : Prop := ∃ n, run (n + 1) x = y

namespace Reaches

theorem refl (x : Progress) : Reaches x x := ⟨0, rfl⟩

/-- A first step, and what comes after it. -/
theorem head {x y : Progress} (h : Reaches (step x) y) : Reaches x y := by
  rcases h with ⟨n, hn⟩
  exact ⟨n + 1, hn⟩

theorem trans {x y z : Progress} (h : Reaches x y) (h' : Reaches y z) : Reaches x z := by
  rcases h with ⟨m, rfl⟩
  rcases h' with ⟨n, rfl⟩
  exact ⟨n + m, run_add n m x⟩

theorem leads {x y z : Progress} (h : Reaches x y) (h' : Leads y z) : Leads x z := by
  rcases h with ⟨m, rfl⟩
  rcases h' with ⟨n, rfl⟩
  exact ⟨n + m, by rw [← run_add]; congr 1; omega⟩

end Reaches

namespace Leads

theorem head {x y : Progress} (h : Reaches (step x) y) : Leads x y := h

theorem step {x : Progress} : Leads x (step x) := ⟨0, rfl⟩

theorem reaches {x y : Progress} (h : Leads x y) : Reaches x y := by
  rcases h with ⟨n, hn⟩
  exact ⟨n + 1, hn⟩

end Leads

/-! ## Access -/

section Access

variable {s : State} {offset : Int} {i : Nat}

/-- An access inside the array names its cell. -/
theorem access_eq (hi : (i : Int) = s.p + offset) (hlt : i < s.length) (after : Nat → Progress) :
    s.access offset after = after i := by
  have hcell : ((s.p : Int) + offset).toNat = i := by omega
  rw [State.access, if_pos (by omega), hcell]

theorem access_current (hlt : s.p < s.length) (after : Nat → Progress) :
    s.access 0 after = after s.p :=
  access_eq (by omega) hlt after

end Access

theorem cell_store (s : State) (i j : Nat) (v : UInt8) :
    (s.store i v).cell j = if j = i then v else s.cell j :=
  Function.update_apply s.cell i v j

theorem length_le_reserve (s : State) (n : Nat) : s.length ≤ (s.reserve n).length := by
  rw [State.reserve]
  split
  · exact le_refl _
  · dsimp only
    split <;> omega

theorem lt_length_reserve (s : State) (n : Nat) : n < (s.reserve n).length := by
  rw [State.reserve]
  split
  next h => exact h
  next =>
    dsimp only
    split <;> omega

@[simp] theorem p_reserve (s : State) (n : Nat) : (s.reserve n).p = s.p := by
  rw [State.reserve]
  split <;> rfl

/-! ## Bytes -/

theorem ofInt_toNat (v : UInt8) : UInt8.ofInt v.toNat = v := by
  have hlt : v.toNat < 2 ^ 8 := v.toNat_lt
  have hmod : ((v.toNat : Int) % 2 ^ 8).toNat = v.toNat := by omega
  rw [UInt8.ofInt, hmod, UInt8.ofNat_toNat]

theorem ofInt_toInt (v : Int8) : UInt8.ofInt v.toInt = v.toUInt8 := by
  have hbits : v.toUInt8.toNat = v.toBitVec.toNat := rfl
  have hint : v.toInt = v.toBitVec.toInt := rfl
  have hlt := v.toBitVec.isLt
  have hmod : (v.toInt % 2 ^ 8).toNat = v.toUInt8.toNat := by
    rw [hint, BitVec.toInt_eq_toNat_cond, hbits]
    split <;> omega
  rw [UInt8.ofInt, hmod, UInt8.ofNat_toNat]

/-- Adding a multiple in C is adding the product modulo 256. -/
theorem adjusted_mul (factor : Int8) (v origin : UInt8) :
    adjusted factor v (origin.toNat * factor.toInt.natAbs) = v + origin * factor.toUInt8 := by
  have hsum : adjusted factor v (origin.toNat * factor.toInt.natAbs) =
      UInt8.ofInt (v.toNat + origin.toNat * factor.toInt) := by
    rw [adjusted]
    split
    next hneg =>
      have habs : (factor.toInt.natAbs : Int) = -factor.toInt := by omega
      rw [Int.natCast_mul, habs, Int.mul_neg, Int.sub_neg]
    next hpos =>
      have habs : (factor.toInt.natAbs : Int) = factor.toInt := by omega
      rw [Int.natCast_mul, habs]
  rw [hsum, UInt8.ofInt_add, UInt8.ofInt_mul, ofInt_toNat, ofInt_toNat, ofInt_toInt]

/-- Adding a signed byte in C is adding it modulo 256. -/
theorem adjusted_natAbs (amount : Int8) (v : UInt8) :
    adjusted amount v amount.toInt.natAbs = v + amount.toUInt8 := by
  have hone := adjusted_mul amount v 1
  rwa [show (1 : UInt8).toNat = 1 from rfl, Nat.one_mul, UInt8.one_mul] at hone

end TapeLang.CCode
