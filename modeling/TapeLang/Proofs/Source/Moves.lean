import TapeLang.Proofs.Optimizer.Travel
import TapeLang.Proofs.Source.Inverse

/-!
# The moves in a text

The travel of a program is the number of moves in its text (`countP_chars`). A program that was read
from a source text therefore travels as far as the text has moves (`within_of_parse`), and a program
can be written if its travel fits in a word (`print_of_within`).
-/

set_option autoImplicit false

namespace TapeLang

/-- The two characters that move the pointer. -/
def isMove (c : Char) : Bool := c = '<' || c = '>'

theorem countP_moveChars (distance : Int) :
    (moveChars distance).countP isMove = distance.natAbs := by
  rw [moveChars]
  split
  · simp [List.countP_replicate, isMove]
  · simp [List.countP_replicate, isMove]
    omega

theorem countP_amountChars (amount : Int8) : (amountChars amount).countP isMove = 0 := by
  rw [amountChars]
  split
  · simp [List.countP_replicate, isMove]
  · simp [List.countP_replicate, isMove]

theorem countP_tourChars (entries : List (Int × Int8)) : ∀ here,
    (tourChars here entries).countP isMove = tourLength here entries := by
  induction entries with
  | nil =>
      intro here
      rw [tourChars, countP_moveChars, Int.natAbs_neg, tourLength]
  | cons e rest ih =>
      intro here
      obtain ⟨offset, amount⟩ := e
      rw [tourChars, List.countP_append, List.countP_append, countP_moveChars,
        countP_amountChars, ih offset, tourLength, Nat.add_zero]

theorem countP_opChars {o : Op} (h : o.addsHere = true) : o.chars.countP isMove = o.travel := by
  cases o with
  | shift amount => exact countP_moveChars amount
  | add amount offset =>
      obtain rfl : offset = 0 := by simpa [Op.addsHere] using h
      rw [Op.chars, List.countP_append, List.countP_append, countP_moveChars, countP_amountChars,
        countP_moveChars]
      rfl
  | input => rfl
  | output => rfl
  | setZero => rfl
  | multiply factors =>
      have htour := countP_tourChars factors.entries 0
      simp [Op.chars, Op.travel, htour, isMove]

/-- The text of a program has as many moves as the program travels. -/
theorem countP_chars {p : Program} (h : p.allOps Op.addsHere = true) :
    p.chars.countP isMove = p.travel := by
  induction p with
  | done => rfl
  | op o rest ih =>
      rw [Program.allOps_op] at h
      rw [Program.chars, List.countP_append, countP_opChars h.1, ih h.2, Program.travel]
  | loop body rest ihbody ihrest =>
      rw [Program.allOps_loop] at h
      have hopening : isMove '[' = false := by decide
      have hclosing : isMove ']' = false := by decide
      rw [Program.chars, List.countP_cons_of_neg (by simp [hopening]), List.countP_append,
        List.countP_cons_of_neg (by simp [hclosing]), ihbody h.1, ihrest h.2, Program.travel]

/-- A program that was read travels as far as its source text has moves. -/
theorem within_of_parse {source : String} {p : Program} (h : Source.parse source = .ok p) :
    p.Within (source.toList.countP isMove) := by
  have hadds : p.allOps Op.addsHere = true := by
    apply Source.allOps_parse ?_ h
    intro c o ho
    simp only [Op.ofChar?] at ho
    split at ho <;> cases ho <;> rfl
  have hchars : p.chars = source.toList.filter isInstruction :=
    String.ofList_injective (Source.source_of_parse h)
  refine ⟨hadds, ?_⟩
  rw [← countP_chars hadds, hchars]
  exact List.filter_sublist.countP_le

theorem within_of_length {source : String} {p : Program} (h : Source.parse source = .ok p) :
    p.Within source.length := by
  apply (within_of_parse h).mono
  rw [← String.length_toList]
  exact List.countP_le_length

/-- The spelled program travels as far as the program whose text it is. -/
theorem Program.Within.spelled {p : Program} {bound : Nat} (h : p.Within bound) :
    p.spelled.Within bound := by
  have hparse := within_of_parse (Source.parse_source p)
  rw [Program.source, String.toList_ofList, countP_chars h.addsHere] at hparse
  exact hparse.mono h.travel_le

section Print

variable {bound : Nat} (hbound : (bound : Int) ≤ Word.greatest)

include hbound

theorem moveOverflow?_of_natAbs_le {distance : Int} (h : distance.natAbs ≤ bound) :
    moveOverflow? distance = none := by
  rw [moveOverflow?, if_pos (by omega)]

theorem tourOverflow?_of_tourLength_le (entries : List (Int × Int8)) : ∀ {here : Int},
    tourLength here entries ≤ bound → tourOverflow? here entries = none := by
  induction entries with
  | nil => exact fun _ => rfl
  | cons e rest ih =>
      intro here h
      obtain ⟨offset, amount⟩ := e
      rw [tourLength] at h
      rw [tourOverflow?, if_pos (Word.fits_of_natAbs_le hbound (by omega)),
        moveOverflow?_of_natAbs_le hbound (by omega), ih (by omega)]
      rfl

/-- A program whose travel fits in a word can be written. -/
theorem print_of_within {p : Program} (h : p.Within bound) : p.print = .ok p.source := by
  refine (p.print_eq_ok_iff p.source).2 ⟨?_, rfl⟩
  induction p with
  | done => rfl
  | op o rest ih =>
      obtain ⟨ho, n, -, hle⟩ := Program.within_op_iff.1 h
      rw [Program.printOverflow?, ih h.rest, Option.orElse_eq_none]
      refine ⟨?_, rfl⟩
      cases o with
      | shift amount =>
          exact moveOverflow?_of_natAbs_le hbound (by simp only [Op.travel] at hle; omega)
      | add amount offset =>
          obtain rfl : offset = 0 := by simpa [Op.addsHere] using ho
          exact moveOverflow?_of_natAbs_le hbound (Nat.zero_le _)
      | input => rfl
      | output => rfl
      | setZero => rfl
      | multiply factors =>
          exact tourOverflow?_of_tourLength_le hbound _ (by simp only [Op.travel] at hle; omega)
  | loop body rest ihbody ihrest =>
      obtain ⟨m, n, hm, hn, hle⟩ := Program.within_loop_iff.1 h
      rw [Program.printOverflow?, ihbody (hm.mono (by omega)), ihrest (hn.mono (by omega))]
      rfl

end Print

end TapeLang
