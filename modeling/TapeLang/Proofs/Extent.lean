import Mathlib.Data.Int.Order.Basic
import TapeLang.Extent
import TapeLang.Proofs.FactorTables
import TapeLang.Proofs.Unbounded

/-!
# The extent of a program is right

Two ways to know that enough cells exist for a run. Where the highest cell of a program is known,
every frame of a run starts at a place that is known too: a loop that is entered comes back to where
it was entered (`Covered`). Otherwise there are always as many cells to the right of the pointer as
the reach says. `Roomy` is either of the two, and every step of a run keeps it.
-/

set_option autoImplicit false

namespace TapeLang

namespace Op

/-- How far an operation moves the pointer. -/
def move : Op → Int
  | .shift amount => amount
  | _ => 0

/-- The offsets of the cells that an operation changes, the current one apart. -/
def offsets : Op → List Int
  | .add _ offset => [offset]
  | .multiply factors => factors.offsets
  | _ => []

end Op

/-- An operation moves the pointer as far as it says. -/
theorem Unbounded.pointer_of_exec {o : Op} {s t : Unbounded.State}
    (h : Unbounded.exec o s = some t) : (t.pointer : Int) = s.pointer + o.move := by
  cases o with
  | shift amount =>
      simp only [Unbounded.exec, Option.map_eq_some_iff] at h
      rcases h with ⟨i, hi, rfl⟩
      simp only [Unbounded.State.index?] at hi
      split at hi
      · cases hi
      · cases hi
        simp only [Op.move]
        omega
  | add amount offset =>
      simp only [Unbounded.exec, Option.map_eq_some_iff] at h
      rcases h with ⟨i, -, rfl⟩
      simp [Op.move]
  | input =>
      cases h
      simp [Op.move]
  | output =>
      cases h
      simp [Op.move]
  | setZero =>
      cases h
      simp [Op.move]
  | multiply factors =>
      simp only [Unbounded.exec] at h
      split at h
      · cases h
        simp [Op.move]
      · rw [Option.map_eq_some_iff] at h
        rcases h with ⟨u, hu, rfl⟩
        rw [Unbounded.State.pointer_put, Unbounded.pointer_of_spread hu]
        simp [Op.move]

namespace Program

/-! ## One operation and one loop -/

theorem reach_le_op (o : Op) (rest : Program) : rest.reach ≤ (op o rest).reach := by
  cases o <;> simp [reach]

theorem offset_le_reach {o : Op} {k : Int} (hk : k ∈ o.offsets) (rest : Program) :
    k ≤ (op o rest).reach := by
  cases o with
  | add amount offset =>
      rw [Op.offsets, List.mem_singleton] at hk
      simp only [reach]
      omega
  | multiply factors =>
      rw [Op.offsets] at hk
      rcases Factors.greatest?_of_mem hk with ⟨greatest, hgreatest⟩
      have hle := Factors.le_greatest hgreatest hk
      simp only [reach, hgreatest, Option.getD_some]
      omega
  | shift amount => cases hk
  | input => cases hk
  | output => cases hk
  | setZero => cases hk

theorem netShift?_op (o : Op) (rest : Program) :
    (op o rest).netShift? = rest.netShift?.map (o.move + ·) := by
  cases o <;> simp [netShift?, Op.move]

theorem netShift?_loop {body rest : Program} {d : Int}
    (h : (loop body rest).netShift? = some d) :
    body.netShift? = some 0 ∧ rest.netShift? = some d := by
  rw [netShift?] at h
  split at h
  next hbody => exact ⟨hbody, h⟩
  next => cases h

/-- The highest position of a sequence is one of what follows its first operation, or one that the
operation uses. -/
theorem highestFrom?_op {o : Op} {rest : Program} {x h : Int}
    (hh : (op o rest).highestFrom? x = some h) :
    (∃ h', rest.highestFrom? (x + o.move) = some h' ∧ h' ≤ h) ∧ ∀ k ∈ o.offsets, x + k ≤ h := by
  have hstay : ∀ {h' : Int}, rest.highestFrom? x = some h' →
      rest.highestFrom? (x + 0) = some h' := by
    intro h' hh'
    rwa [Int.add_zero]
  cases o with
  | shift amount =>
      simp only [highestFrom?, Option.map_eq_some_iff] at hh
      rcases hh with ⟨h', hh', rfl⟩
      exact ⟨⟨h', hh', le_max_right _ _⟩, fun k hk => by cases hk⟩
  | add amount offset =>
      simp only [highestFrom?, Option.map_eq_some_iff] at hh
      rcases hh with ⟨h', hh', rfl⟩
      refine ⟨⟨h', hstay hh', le_max_right _ _⟩, ?_⟩
      intro k hk
      rw [Op.offsets, List.mem_singleton] at hk
      rw [hk]
      exact le_max_left _ _
  | multiply factors =>
      simp only [highestFrom?] at hh
      cases hgreatest : factors.greatest? with
      | none =>
          rw [hgreatest] at hh
          refine ⟨⟨h, hstay hh, le_refl _⟩, ?_⟩
          intro k hk
          rcases Factors.greatest?_of_mem hk with ⟨greatest, hsome⟩
          rw [hgreatest] at hsome
          cases hsome
      | some greatest =>
          simp only [hgreatest, Option.map_eq_some_iff] at hh
          rcases hh with ⟨h', hh', rfl⟩
          refine ⟨⟨h', hstay hh', le_max_right _ _⟩, ?_⟩
          intro k hk
          have hle := Factors.le_greatest hgreatest hk
          exact le_trans (by omega) (le_max_left _ _)
  | input => exact ⟨⟨h, hstay hh, le_refl _⟩, fun k hk => by cases hk⟩
  | output => exact ⟨⟨h, hstay hh, le_refl _⟩, fun k hk => by cases hk⟩
  | setZero => exact ⟨⟨h, hstay hh, le_refl _⟩, fun k hk => by cases hk⟩

theorem highestFrom?_loop {body rest : Program} {x h : Int}
    (hh : (loop body rest).highestFrom? x = some h) :
    body.netShift? = some 0 ∧ (∃ a, body.highestFrom? x = some a ∧ a ≤ h) ∧
      ∃ b, rest.highestFrom? x = some b ∧ b ≤ h := by
  rw [highestFrom?] at hh
  split at hh
  next hbody =>
    split at hh
    next a b ha hb =>
      cases hh
      exact ⟨hbody, ⟨a, ha, le_max_left _ _⟩, ⟨b, hb, le_max_right _ _⟩⟩
    next => cases hh
  next => cases hh

/-- The place where a run starts is no higher than its highest position. -/
theorem le_of_highestFrom? {p : Program} : ∀ {x h : Int}, p.highestFrom? x = some h → x ≤ h := by
  induction p with
  | done =>
      intro x h hh
      cases hh
      exact le_refl x
  | op o rest ih =>
      intro x h hh
      by_cases hmove : o.move = 0
      · rcases (highestFrom?_op hh).1 with ⟨h', hh', hle⟩
        rw [hmove, Int.add_zero] at hh'
        exact le_trans (ih hh') hle
      · -- only a shift moves, and it counts the place it starts from
        cases o with
        | shift amount =>
            simp only [highestFrom?, Option.map_eq_some_iff] at hh
            rcases hh with ⟨h', -, rfl⟩
            exact le_max_left _ _
        | _ => exact absurd rfl hmove
  | loop body rest _ ih =>
      intro x h hh
      rcases (highestFrom?_loop hh).2.2 with ⟨b, hb, hle⟩
      exact le_trans (ih hb) hle

/-- Where a highest position is known, so is the place where a run ends. -/
theorem netShift?_of_highestFrom? {p : Program} :
    ∀ {x h : Int}, p.highestFrom? x = some h → ∃ d, p.netShift? = some d := by
  induction p with
  | done => exact fun _ => ⟨0, rfl⟩
  | op o rest ih =>
      intro x h hh
      rcases (highestFrom?_op hh).1 with ⟨h', hh', -⟩
      rcases ih hh' with ⟨d, hd⟩
      exact ⟨o.move + d, by rw [netShift?_op, hd]; rfl⟩
  | loop body rest _ ih =>
      intro x h hh
      rcases highestFrom?_loop hh with ⟨hbody, -, b, hb, -⟩
      rcases ih hb with ⟨d, hd⟩
      exact ⟨d, by rw [netShift?, if_pos hbody, hd]⟩

/-! ## Room for a whole stack of frames -/

/-- The frames of a run stay below `length`: the first one starts at `x`, and each of the others
where the one before it ends. -/
def Covered (length : Nat) : Int → List Program → Prop
  | _, [] => True
  | x, p :: K =>
      (∃ h, p.highestFrom? x = some h ∧ h < length) ∧
        ∃ d, p.netShift? = some d ∧ Covered length (x + d) K

namespace Covered

variable {length : Nat} {x : Int} {K : List Program}

theorem mono {length' : Nat} (hle : length ≤ length') :
    ∀ {K : List Program} {x : Int}, Covered length x K → Covered length' x K := by
  intro K
  induction K with
  | nil => exact fun _ => trivial
  | cons p K ih =>
      rintro x ⟨⟨h, hh, hlt⟩, d, hd, hK⟩
      exact ⟨⟨h, hh, by omega⟩, d, hd, ih hK⟩

/-- The place where the first frame starts lies below. -/
theorem start_lt {p : Program} (h : Covered length x (p :: K)) : x < length := by
  rcases h with ⟨⟨b, hb, hlt⟩, -⟩
  exact lt_of_le_of_lt (le_of_highestFrom? hb) hlt

/-- The cells that an operation changes lie below. -/
theorem offset_lt {o : Op} {rest : Program} (h : Covered length x (.op o rest :: K)) {k : Int}
    (hk : k ∈ o.offsets) : x + k < length := by
  rcases h with ⟨⟨b, hb, hlt⟩, -⟩
  exact lt_of_le_of_lt ((highestFrom?_op hb).2 k hk) hlt

theorem done (h : Covered length x (.done :: K)) : Covered length x K := by
  rcases h with ⟨-, d, hd, hK⟩
  cases hd
  rwa [Int.add_zero] at hK

theorem op {o : Op} {rest : Program} (h : Covered length x (.op o rest :: K)) :
    Covered length (x + o.move) (rest :: K) := by
  rcases h with ⟨⟨h, hh, hlt⟩, d, hd, hK⟩
  rcases (highestFrom?_op hh).1 with ⟨h', hh', hle⟩
  rw [netShift?_op, Option.map_eq_some_iff] at hd
  rcases hd with ⟨d', hd', rfl⟩
  refine ⟨⟨h', hh', by omega⟩, d', hd', ?_⟩
  rwa [Int.add_assoc]

/-- A loop that is entered is back at `x` when its body has run. -/
theorem enter {body rest : Program} (h : Covered length x (.loop body rest :: K)) :
    Covered length x (body :: .loop body rest :: K) := by
  rcases h.1 with ⟨b, hb, hlt⟩
  rcases highestFrom?_loop hb with ⟨hbody, ⟨a, ha, hle⟩, -⟩
  refine ⟨⟨a, ha, by omega⟩, 0, hbody, ?_⟩
  rwa [Int.add_zero]

theorem leave {body rest : Program} (h : Covered length x (.loop body rest :: K)) :
    Covered length x (rest :: K) := by
  rcases h with ⟨⟨h, hh, hlt⟩, d, hd, hK⟩
  rcases highestFrom?_loop hh with ⟨-, -, b, hb, hle⟩
  exact ⟨⟨b, hb, by omega⟩, d, (netShift?_loop hd).2, hK⟩

end Covered

/-- There is room in `length` cells for what the frames of a run do next from cell `x`: up to the
reach of the program where the tape grows, and for the whole rest of the run where it does not. -/
def Roomy (grow : Option Nat) (length x : Nat) (K : List Program) : Prop :=
  match grow with
  | some reach => x + reach < length ∧ ∀ p ∈ K, p.reach ≤ reach
  | none => Covered length x K

namespace Roomy

variable {grow : Option Nat} {length x : Nat} {K : List Program} {p : Program}

/-- The current cell exists. -/
theorem lt_length (h : Roomy grow length x (p :: K)) : x < length := by
  cases grow with
  | some reach =>
      rcases h with ⟨hlt, -⟩
      omega
  | none => exact Int.ofNat_lt.1 (Covered.start_lt h)

/-- The cells that an operation changes exist, if they are not left of cell zero. -/
theorem offset_lt {o : Op} {rest : Program} (h : Roomy grow length x (.op o rest :: K)) {k : Int}
    (hk : k ∈ o.offsets) : (x : Int) + k < length := by
  cases grow with
  | some reach =>
      rcases h with ⟨hlt, hreach⟩
      have hle := offset_le_reach hk rest
      have hle' := hreach _ List.mem_cons_self
      omega
  | none => exact Covered.offset_lt h hk

theorem done (h : Roomy grow length x (.done :: K)) : Roomy grow length x K := by
  cases grow with
  | some reach => exact ⟨h.1, (List.forall_mem_cons.1 h.2).2⟩
  | none => exact Covered.done h

/-- After an operation there is room again, if the tape has not become shorter and has grown where
the reach asks for it. -/
theorem op {o : Op} {rest : Program} (h : Roomy grow length x (.op o rest :: K)) {length' x' : Nat}
    (hx : (x' : Int) = x + o.move) (hlength : length ≤ length')
    (hgrow : ∀ reach, grow = some reach → x + reach < length → x' + reach < length') :
    Roomy grow length' x' (rest :: K) := by
  cases grow with
  | some reach =>
      obtain ⟨hfirst, hbelow⟩ := List.forall_mem_cons.1 h.2
      refine ⟨hgrow reach rfl h.1, List.forall_mem_cons.2 ⟨?_, hbelow⟩⟩
      exact le_trans (reach_le_op o rest) hfirst
  | none =>
      have hop := (Covered.op h).mono hlength
      rwa [← hx] at hop

theorem enter {body rest : Program} (h : Roomy grow length x (.loop body rest :: K)) :
    Roomy grow length x (body :: .loop body rest :: K) := by
  cases grow with
  | some reach =>
      refine ⟨h.1, List.forall_mem_cons.2 ⟨?_, h.2⟩⟩
      exact le_trans (le_max_left _ _) (h.2 _ List.mem_cons_self)
  | none => exact Covered.enter h

theorem leave {body rest : Program} (h : Roomy grow length x (.loop body rest :: K)) :
    Roomy grow length x (rest :: K) := by
  cases grow with
  | some reach =>
      obtain ⟨hfirst, hbelow⟩ := List.forall_mem_cons.1 h.2
      refine ⟨h.1, List.forall_mem_cons.2 ⟨?_, hbelow⟩⟩
      exact le_trans (le_max_right _ _) hfirst
  | none => exact Covered.leave h

end Roomy

end Program

end TapeLang
