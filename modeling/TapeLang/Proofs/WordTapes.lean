import TapeLang.Proofs.BigStep
import TapeLang.Proofs.Touched

/-!
# Tapes within the word

Whatever a program does to its tape, it does by moving the pointer to an integer of the word and by
storing bytes in cells that have room for them. So what these two keep is kept by every operation
and by every program (`Kept.exec`, `Kept.bigStep`). Two things are: that the tape lies within the
word (`InWord`), and that it stores at least so many cells.
-/

set_option autoImplicit false

namespace TapeLang

namespace Tape

/-- A property of tapes that moves within the word and stores with room for the byte keep. -/
structure Kept (P : Tape → Prop) : Prop where
  put : ∀ {t : Tape} {i : Nat} {v : UInt8}, P t → hasRoom i v = true → P (t.put i v)
  move : ∀ {t : Tape} {i : Nat}, P t → (i : Int) ≤ Word.greatest → P { t with pointer := i }

/-- The pointer is an integer of the word, and cells without room for a byte are zero. -/
structure InWord (t : Tape) : Prop where
  pointer_le : (t.pointer : Int) ≤ Word.greatest
  cell_eq : ∀ i : Nat, Word.greatest ≤ i → t.cell i = 0

theorem hasRoom_of_lt {i : Nat} (h : (i : Int) < Word.greatest) (v : UInt8) :
    hasRoom i v = true := by
  rw [hasRoom, decide_eq_true h, Bool.or_true]

theorem kept_inWord : Kept InWord := by
  refine ⟨fun {t i v} h hroom => ⟨?_, fun j hj => ?_⟩, fun h hi => ⟨hi, h.cell_eq⟩⟩
  · rw [pointer_put]
    exact h.pointer_le
  · rw [cell_put, h.cell_eq j hj]
    split
    next hji =>
      rw [hasRoom, Bool.or_eq_true, decide_eq_true_eq, decide_eq_true_eq] at hroom
      exact hroom.resolve_right (by omega)
    next => rfl

theorem size_le_put (t : Tape) (i : Nat) (v : UInt8) : t.cells.size ≤ (t.put i v).cells.size := by
  rw [size_put]
  split
  · exact Nat.le_refl _
  · exact Nat.le_max_left _ _

theorem kept_size (n : Nat) : Kept fun t => n ≤ t.cells.size :=
  ⟨fun h _ => Nat.le_trans h (size_le_put _ _ _), fun h _ => h⟩

/-- A cell that is not stored is zero. -/
theorem cell_of_size_le {t : Tape} {i : Nat} (h : t.cells.size ≤ i) : t.cell i = 0 := by
  rw [cell, Array.getD_eq_getD_getElem?, Array.getElem?_eq_none h, Option.getD_none]

namespace InWord

variable {t u : Tape}

/-- A tape with no more cells than a word can count lies within the word. -/
theorem of_size_le (hsize : (t.cells.size : Int) ≤ Word.greatest)
    (hpointer : (t.pointer : Int) ≤ Word.greatest) : t.InWord :=
  ⟨hpointer, fun _ hi => cell_of_size_le (by omega)⟩

theorem of_same (h : t.InWord) (hsame : t.Same u) : u.InWord := by
  refine ⟨hsame.pointer_eq ▸ h.pointer_le, fun i hi => ?_⟩
  rw [← hsame.cell_eq i (Set.notMem_empty i)]
  exact h.cell_eq i hi

/-- Only the last cell of the word has no room, and it is zero. -/
theorem pointer_lt (h : t.InWord) (hcurrent : t.current ≠ 0) :
    (t.pointer : Int) < Word.greatest := by
  by_contra hge
  exact hcurrent (h.cell_eq t.pointer (by omega))

end InWord

/-! ## Operations and programs -/

namespace Kept

open Machine

variable {σ : Type} {D : Device σ} {P : Tape → Prop}

/-- An operation keeps what moves and stores keep, also where it fails. -/
theorem exec (h : Kept P) (o : Op) {s : State σ} (hs : P s.tape) :
    P (Machine.exec D o s).state.tape :=
  exec_keeps o (fun _ hroom ht => h.put ht hroom) (fun _ hi ht => h.move ht hi) hs

/-- A program keeps what moves and stores keep. -/
theorem bigStep (h : Kept P) {p : Program} {s : State σ} {n : Nat} {x : Step σ}
    (hx : BigStep D p s n x) (hs : P s.tape) : P x.state.tape := by
  induction hx with
  | done s => exact hs
  | @op o rest s t n x first _ ih =>
      have hexec := h.exec (D := D) o hs
      rw [first] at hexec
      exact ih hexec
  | @op_failed o rest s t fault first =>
      have hexec := h.exec (D := D) o hs
      rw [first] at hexec
      exact hexec
  | loop_left _ _ ih => exact ih hs
  | loop_entered _ _ _ ihround ihagain => exact ihagain (ihround hs)
  | loop_failed _ _ ih => exact ih hs

end Kept

end Tape

end TapeLang
