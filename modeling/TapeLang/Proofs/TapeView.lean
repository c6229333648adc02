import Mathlib.Data.List.DropRight
import Mathlib.Data.Set.Insert
import TapeLang.Tape

/-!
# Tapes by their bytes

A tape is used only through its pointer and the byte of each cell; how many cells are stored makes
no difference to it. `AgreeOff X t u` says that two tapes have the same pointer and the same bytes
in all cells outside `X`, and `Same t u` that they have the same bytes everywhere. The operations
of a tape keep these relations, and `trimmed` shows exactly the bytes (`trimmed_eq_iff`).
-/

set_option autoImplicit false

namespace TapeLang.Tape

/-- The same pointer, and the same bytes outside the cells in `X`. -/
structure AgreeOff (X : Set Nat) (t u : Tape) : Prop where
  pointer_eq : t.pointer = u.pointer
  cell_eq : ∀ i, i ∉ X → t.cell i = u.cell i

/-- The same pointer and the same bytes. -/
abbrev Same (t u : Tape) : Prop := AgreeOff ∅ t u

theorem Same.refl (t : Tape) : Same t t := ⟨rfl, fun _ _ => rfl⟩

theorem Same.trans {t u v : Tape} (h : Same t u) (h' : Same u v) : Same t v :=
  ⟨h.pointer_eq.trans h'.pointer_eq, fun i hi => (h.cell_eq i hi).trans (h'.cell_eq i hi)⟩

/-! ## The cell that an offset names -/

theorem index_eq_ok_iff (t : Tape) (offset : Int) (i : Nat) :
    t.index offset = .ok i ↔
      (i : Int) = t.pointer + offset ∧ Word.fits ((t.pointer : Int) + offset) = true := by
  rw [index]
  by_cases hfits : Word.fits ((t.pointer : Int) + offset) = true
  · by_cases hneg : (t.pointer : Int) + offset < 0
    · simp only [hfits, hneg, if_true, reduceCtorEq, and_true, false_iff]
      omega
    · simp only [hfits, hneg, if_true, if_false, Except.ok.injEq, and_true]
      omega
  · simp [hfits]

/-- A byte that can be stored is what `f` makes of the byte that stands there. -/
theorem revise_eq_ok_iff (t : Tape) (offset : Int) (f : UInt8 → UInt8) (i : Nat) (v : UInt8) :
    t.revise offset f = .ok (i, v) ↔
      t.index offset = .ok i ∧ v = f (t.cell i) ∧ hasRoom i v = true := by
  rw [revise]
  cases hi : t.index offset with
  | error e => simp
  | ok j =>
      by_cases hroom : hasRoom j (f (t.cell j)) = true
      · simp only [hroom, if_true, Except.ok.injEq, Prod.mk.injEq]
        constructor
        · rintro ⟨rfl, rfl⟩
          exact ⟨rfl, rfl, hroom⟩
        · rintro ⟨rfl, rfl, -⟩
          exact ⟨rfl, rfl⟩
      · simp only [hroom, Bool.false_eq_true, if_false, reduceCtorEq, Except.ok.injEq, false_iff]
        rintro ⟨rfl, rfl, h⟩
        exact hroom h

/-- There is room for a zero in every cell. -/
theorem hasRoom_zero (i : Nat) : hasRoom i 0 = true := by
  rw [hasRoom, decide_eq_true rfl, Bool.true_or]

/-- A byte other than zero is stored with all cells up to its own. -/
theorem size_put (t : Tape) (i : Nat) (v : UInt8) :
    (t.put i v).cells.size = if v = 0 then t.cells.size else max t.cells.size (i + 1) := by
  rw [put]
  split
  next h =>
    rw [Array.size_set]
    split
    · rfl
    · omega
  next h =>
    split
    next => rfl
    next =>
      simp only [Array.size_push, Array.size_append, Array.size_replicate]
      omega

namespace AgreeOff

variable {X Y : Set Nat} {t u : Tape}

theorem mono (h : AgreeOff X t u) (hXY : X ⊆ Y) : AgreeOff Y t u :=
  ⟨h.pointer_eq, fun i hi => h.cell_eq i fun hx => hi (hXY hx)⟩

theorem index_eq (h : AgreeOff X t u) (offset : Int) : t.index offset = u.index offset := by
  rw [index, index, h.pointer_eq]

theorem current_eq (h : AgreeOff X t u) (hX : t.pointer ∉ X) : t.current = u.current := by
  rw [current, current, h.cell_eq _ hX, h.pointer_eq]

/-- A revision reads one cell only. -/
theorem revise_eq (h : AgreeOff X t u) (offset : Int) (f : UInt8 → UInt8)
    (hX : ∀ i : Nat, (i : Int) = t.pointer + offset → i ∉ X) :
    t.revise offset f = u.revise offset f := by
  rw [revise, revise, ← h.index_eq]
  cases hi : t.index offset with
  | error e => rfl
  | ok i => simp only [h.cell_eq i (hX i ((index_eq_ok_iff t offset i).1 hi).1)]

theorem put (h : AgreeOff X t u) (i : Nat) (v : UInt8) : AgreeOff X (t.put i v) (u.put i v) := by
  refine ⟨by simp [h.pointer_eq], fun j hj => ?_⟩
  rw [cell_put, cell_put, h.cell_eq j hj]

/-- A byte stored in both tapes settles the cell. -/
theorem put_insert {i : Nat} (h : AgreeOff (insert i X) t u) (v : UInt8) :
    AgreeOff X (t.put i v) (u.put i v) := by
  refine ⟨by simp [h.pointer_eq], fun j hj => ?_⟩
  rw [cell_put, cell_put]
  by_cases hji : j = i
  · rw [if_pos hji, if_pos hji]
  · rw [if_neg hji, if_neg hji]
    exact h.cell_eq j fun hx => (Set.mem_insert_iff.1 hx).elim hji hj

/-- A byte stored in one tape only does no harm in a cell of `X`. -/
theorem put_left {i : Nat} (h : AgreeOff X t u) (hi : i ∈ X) (v : UInt8) :
    AgreeOff X (t.put i v) u := by
  refine ⟨by simp [h.pointer_eq], fun j hj => ?_⟩
  have hji : j ≠ i := fun hji => hj (hji ▸ hi)
  rw [cell_put, if_neg hji]
  exact h.cell_eq j hj

theorem move (h : AgreeOff X t u) (i : Nat) :
    AgreeOff X { t with pointer := i } { u with pointer := i } :=
  ⟨rfl, h.cell_eq⟩

end AgreeOff

/-! ## What `trimmed` shows -/

/-- The stored bytes without the zeros at their end, as a list. -/
theorem toList_trimmed (t : Tape) :
    t.trimmed.toList = t.cells.toList.rdropWhile fun b => decide (b = 0) := by
  rcases t with ⟨⟨l⟩, pointer⟩
  simp [trimmed, List.rdropWhile]

theorem cell_eq_getD_toList (t : Tape) (i : Nat) : t.cell i = t.cells.toList.getD i 0 := by
  simp [cell, Array.getD_eq_getD_getElem?, List.getD_eq_getElem?_getD]

/-- Dropping zeros at the end of a list of bytes changes no byte of it, absent ones being zero. -/
theorem getD_rdropWhile_zero (l : List UInt8) (i : Nat) :
    (l.rdropWhile fun b => decide (b = 0)).getD i 0 = l.getD i 0 := by
  -- from the end of the list, where zeros are dropped
  induction l using List.reverseRecOn with
  | nil => rfl
  | append_singleton l b ih =>
      by_cases hb : b = 0
      · rw [List.rdropWhile_concat_pos _ _ _ (by simp [hb]), ih, hb]
        simp only [List.getD_eq_getElem?_getD, List.getElem?_append]
        by_cases hi : i < l.length
        · rw [if_pos hi]
        · rw [if_neg hi, List.getElem?_eq_none (by omega)]
          cases i - l.length with
          | zero => rfl
          | succ k => rfl
      · rw [List.rdropWhile_concat_neg _ _ _ (by simp [hb])]

theorem getD_trimmed (t : Tape) (i : Nat) : t.trimmed.toList.getD i 0 = t.cell i := by
  rw [toList_trimmed, getD_rdropWhile_zero, cell_eq_getD_toList]

/-- The last byte that `trimmed` shows is not zero, so beyond its end there is no other byte. -/
theorem length_trimmed_le_of_cell_eq {t u : Tape} (h : ∀ i, t.cell i = u.cell i) :
    t.trimmed.toList.length ≤ u.trimmed.toList.length := by
  by_contra hlt
  have hne : t.trimmed.toList ≠ [] := by
    intro hnil
    rw [hnil] at hlt
    simp at hlt
  have hlast : t.trimmed.toList.getLast hne ≠ 0 := by
    have hdrop := toList_trimmed t
    simpa [hdrop] using
      List.rdropWhile_last_not (fun b : UInt8 => decide (b = 0)) t.cells.toList (hdrop ▸ hne)
  have hcell := getD_trimmed t (t.trimmed.toList.length - 1)
  rw [h, ← getD_trimmed u, List.getD_eq_getElem?_getD, List.getD_eq_getElem?_getD,
    List.getElem?_eq_none (l := u.trimmed.toList) (by omega), ← List.getLast?_eq_getElem?,
    List.getLast?_eq_some_getLast hne] at hcell
  exact hlast hcell

/-- Two tapes show the same trimmed bytes exactly if they have the same byte in every cell. -/
theorem trimmed_eq_iff (t u : Tape) : t.trimmed = u.trimmed ↔ ∀ i, t.cell i = u.cell i := by
  constructor
  · intro h i
    rw [← getD_trimmed, h, getD_trimmed]
  · intro h
    have hlen : t.trimmed.toList.length = u.trimmed.toList.length :=
      Nat.le_antisymm (length_trimmed_le_of_cell_eq h)
        (length_trimmed_le_of_cell_eq fun i => (h i).symm)
    apply Array.toList_inj.1
    refine List.ext_getElem hlen fun i hi hi' => ?_
    have hcell := (getD_trimmed t i).trans ((h i).trans (getD_trimmed u i).symm)
    rw [List.getD_eq_getElem?_getD, List.getD_eq_getElem?_getD, List.getElem?_eq_getElem hi,
      List.getElem?_eq_getElem hi'] at hcell
    exact hcell

theorem Same.trimmed_eq {t u : Tape} (h : Same t u) : t.trimmed = u.trimmed :=
  (trimmed_eq_iff t u).2 fun i => h.cell_eq i (Set.notMem_empty i)

end TapeLang.Tape
