import TapeLang.CCode.Generate
import TapeLang.Proofs.Source.Recompilation

/-!
# Source texts stay in the word

The span of a program adds up how far its shifts move and how wide its multiplications are. It is at
most the travel, since a tour over some offsets and back is at least as long as the way from the
leftmost to the rightmost of them. No pass adds to the travel, so at every stage of the optimiser
the span is at most the number of moves in the source text.

All arithmetic on shifts and offsets is bounded by the travel too: that of the passes and of the
printer is so by earlier modules, and that of the search for the highest cell by
`highestFits_of_travel_le`. A text has fewer moves than a word can count, so the optimiser, the
printer and the generator of C return a result for every source text that can be read
(`source_stays_in_word`).
-/

set_option autoImplicit false

namespace TapeLang

open Relation (ReflTransGen)

/-- The distance from the leftmost to the rightmost of the offsets of a table and the cell zero. -/
def Factors.span (t : Factors) : Nat :=
  (t.offsets.foldr max 0 - t.offsets.foldr min 0).toNat

/-- How far a shift moves, and how wide a multiplication is. -/
def Op.span : Op → Nat
  | .shift amount => amount.natAbs
  | .multiply factors => factors.span
  | _ => 0

/-- The spans of all operations, those inside loop bodies included. -/
def Program.span : Program → Nat
  | .done => 0
  | .op o rest => o.span + rest.span
  | .loop body rest => body.span + rest.span

/-! ## Span and travel -/

/-- A walk from `here` over some offsets to the cell zero is at least as long as the distance
between the outermost of all these cells. -/
theorem outermost_le_tourLength (entries : List (Int × Int8)) : ∀ here : Int,
    max ((entries.map (·.1)).foldr max 0) here - min ((entries.map (·.1)).foldr min 0) here ≤
      tourLength here entries := by
  induction entries with
  | nil =>
      intro here
      simp only [List.map_nil, List.foldr_nil, tourLength]
      omega
  | cons e rest ih =>
      intro here
      obtain ⟨offset, factor⟩ := e
      -- one more cell makes the distance longer by at most the way to the next one
      have hrest := ih offset
      simp only [List.map_cons, List.foldr_cons, tourLength]
      omega

theorem Op.span_le_travel (o : Op) : o.span ≤ o.travel := by
  cases o with
  | multiply factors =>
      have hle := outermost_le_tourLength factors.entries 0
      simp only [span, travel, Factors.span, Factors.offsets]
      omega
  | shift amount => exact Nat.le_refl _
  | add amount offset => exact Nat.le_refl _
  | input => exact Nat.le_refl _
  | output => exact Nat.le_refl _
  | setZero => exact Nat.le_refl _

namespace Program

theorem span_le_travel (p : Program) : p.span ≤ p.travel := by
  induction p with
  | done => exact Nat.le_refl 0
  | op o rest ih => exact Nat.add_le_add o.span_le_travel ih
  | loop body rest ihbody ihrest => exact Nat.add_le_add ihbody ihrest

/-! ## The search for the highest cell -/

section Extent

variable {bound : Nat} (hbound : (bound : Int) ≤ Word.greatest)

include hbound

/-- The sums of a net shift lie within the travel, counted from the sum so far. A loop begins a sum
of its own. -/
theorem shiftScan_of_travel_le (p : Program) : ∀ {total : Int},
    total.natAbs + p.travel ≤ bound → (shiftScan total p).2 = true := by
  induction p with
  | done => exact fun _ => rfl
  | op o rest ih =>
      intro total hle
      rw [travel] at hle
      cases o with
      | shift amount =>
          simp only [Op.travel] at hle
          rw [shiftScan, Bool.and_eq_true]
          exact ⟨Word.fits_of_natAbs_le hbound (by omega), ih (by omega)⟩
      | add amount offset => exact ih (by omega)
      | input => exact ih (by omega)
      | output => exact ih (by omega)
      | setZero => exact ih (by omega)
      | multiply factors => exact ih (by omega)
  | loop body rest ihbody ihrest =>
      intro total hle
      rw [travel] at hle
      have hbody : (shiftScan 0 body).2 = true := ihbody (by simp only [Int.natAbs_zero]; omega)
      have hrest : (shiftScan total rest).2 = true := ihrest (by omega)
      rw [shiftScan]
      split
      · exact Bool.and_eq_true_iff.2 ⟨hbody, hrest⟩
      · exact hbody

/-- The positions of the search for the highest cell lie within the travel, counted from the
position where it starts. After a loop the search is back where the loop began, so the travel of the
body and that of what follows are both counted from there. -/
theorem highestFits_of_travel_le (p : Program) : ∀ {here : Int},
    p.allOps Op.addsHere = true → here.natAbs + p.travel ≤ bound →
      highestFits here p = true := by
  induction p with
  | done => exact fun _ _ => rfl
  | op o rest ih =>
      intro here hadds hle
      rw [allOps_op] at hadds
      rw [travel] at hle
      cases o with
      | shift amount =>
          simp only [Op.travel] at hle
          rw [highestFits, Bool.and_eq_true]
          exact ⟨Word.fits_of_natAbs_le hbound (by omega), ih hadds.2 (by omega)⟩
      | add amount offset =>
          obtain rfl : offset = 0 := by simpa [Op.addsHere] using hadds.1
          rw [highestFits, Bool.and_eq_true]
          exact ⟨Word.fits_of_natAbs_le hbound (by omega), ih hadds.2 (by omega)⟩
      | multiply factors =>
          simp only [Op.travel] at hle
          rw [highestFits, Bool.and_eq_true, Option.all_eq_true]
          refine ⟨fun offset hoffset => ?_, ih hadds.2 (by omega)⟩
          -- the greatest offset is one that the tour visits
          obtain ⟨e, he, rfl⟩ := List.mem_map.1 (List.mem_of_getLast? hoffset)
          have htour : (e.1 - 0).natAbs ≤ tourLength 0 factors.entries :=
            natAbs_sub_le_tourLength factors.entries he
          exact Word.fits_of_natAbs_le hbound (by omega)
      | input => exact ih hadds.2 (by omega)
      | output => exact ih hadds.2 (by omega)
      | setZero => exact ih hadds.2 (by omega)
  | loop body rest ihbody ihrest =>
      intro here hadds hle
      rw [allOps_loop] at hadds
      rw [travel] at hle
      have hscan : (shiftScan 0 body).2 = true :=
        shiftScan_of_travel_le hbound body (by simp only [Int.natAbs_zero]; omega)
      have hbody : highestFits here body = true := ihbody hadds.1 (by omega)
      have hrest : highestFits here rest = true := ihrest hadds.2 (by omega)
      simp only [highestFits, hscan, hbody, hrest, Bool.and_self, Bool.or_true]

/-- C can be generated from a program whose travel fits in a word. -/
theorem generate_of_within {p : Program} (h : p.Within bound) :
    CCode.generate p = .ok (CCode.text p, CCode.report p) := by
  have hle := h.travel_le
  rw [CCode.generate, if_pos]
  apply highestFits_of_travel_le hbound p h.addsHere
  simpa using hle

end Extent

end Program

/-! ## Stages of the optimiser -/

/-- Every program that enabled passes make of another, one after the other, moves no further. -/
theorem Program.Within.of_applies {F : PassSet} {p q : Program} {bound : Nat}
    (h : p.Within bound) (hq : ReflTransGen F.Applies p q) : q.Within bound := by
  induction hq with
  | refl => exact h
  | tail _ happlies ih =>
      obtain ⟨pass, -, rfl⟩ := happlies
      exact within_apply pass ih

/-- Whatever enabled passes make of a source text, in any order and so at every stage of the
optimiser, additions are to the current cell, the offsets and factors of multiplications are not
zero, and the span is at most the number of moves in the text. If the length of the text fits in a
word, no arithmetic of any pass leaves the word there, and neither does that of the printer and of
the generator of C. The optimiser itself returns one of these programs. -/
theorem source_stays_in_word {source : String} {p : Program}
    (hlength : (source.length : Int) ≤ Word.greatest) (hparse : Source.parse source = .ok p)
    (F : PassSet) :
    (∀ q, ReflTransGen F.Applies p q →
      q.allOps Op.addsHere = true ∧ q.allOps Op.isProper = true ∧
        q.span ≤ source.toList.countP isMove ∧
        (∀ pass : Pass, pass.inRange q = true) ∧ q.print = .ok q.source ∧
        CCode.generate q = .ok (CCode.text q, CCode.report q)) ∧
      ∃ q log, F.optimize p = .ok (q, log) ∧ ReflTransGen F.Applies p q := by
  have hmoves : ((source.toList.countP isMove : Nat) : Int) ≤ Word.greatest := by
    have hcount : source.toList.countP isMove ≤ source.toList.length := List.countP_le_length
    rw [String.length_toList] at hcount
    omega
  have hwithin := within_of_parse hparse
  constructor
  · intro q hq
    have hstage := hwithin.of_applies hq
    refine ⟨hstage.addsHere, ?_, ?_, ?_, ?_, ?_⟩
    · exact Program.allOps_of_applies admits_isProper (isProper_of_parse hparse) hq
    · exact Nat.le_trans q.span_le_travel hstage.travel_le
    · exact fun pass => Program.inRange_of_within hmoves pass hstage
    · exact print_of_within hmoves hstage
    · exact Program.generate_of_within hmoves hstage
  · obtain ⟨q, log, hoptimize, -⟩ := Program.exists_optimize hmoves F hwithin
    exact ⟨q, log, hoptimize, F.applies_optimize hoptimize⟩

/-- The multiplication spans cells on both sides of the current one. -/
theorem source_stays_in_word_crossing :
    ∃ p q log,
      Source.parse ",[->>-<<<++>]>[-]+." = .ok p ∧ PassSet.all.optimize p = .ok (q, log) ∧
      q = .op .input (.op (.multiply (Factors.ofList [(2, -1), (-1, 2)]))
        (.op (.shift 1) (.op .setZero (.op (.add 1 0) (.op .output .done))))) ∧
      q.span = 4 ∧ q.span ≤ ",[->>-<<<++>]>[-]+.".toList.countP isMove ∧
      (∀ pass : Pass, pass.inRange q = true) ∧
      CCode.generate q = .ok (CCode.text q, CCode.report q) := by
  have hparse : Source.parse ",[->>-<<<++>]>[-]+." = .ok (.op .input (.loop (.op (.add (-1) 0)
      (.op (.shift 1) (.op (.shift 1) (.op (.add (-1) 0) (.op (.shift (-1)) (.op (.shift (-1))
      (.op (.shift (-1)) (.op (.add 1 0) (.op (.add 1 0) (.op (.shift 1) .done))))))))))
      (.op (.shift 1) (.loop (.op (.add (-1) 0) .done) (.op (.add 1 0) (.op .output .done)))))) :=
    rfl
  obtain ⟨hstages, q, log, hoptimize, happlies⟩ :=
    source_stays_in_word (by decide) hparse PassSet.all
  obtain ⟨-, -, hspan, hrange, -, hgenerate⟩ := hstages q happlies
  have hcomputed := hoptimize
  cases hcomputed
  exact ⟨_, _, _, hparse, hoptimize, rfl, rfl, hspan, hrange, hgenerate⟩

end TapeLang
