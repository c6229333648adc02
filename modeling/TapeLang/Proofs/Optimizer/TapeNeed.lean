import TapeLang.Proofs.Extent
import TapeLang.Proofs.Optimizer.Confluence
import TapeLang.Proofs.Optimizer.Recognition

/-!
# The tape that an optimised program needs

Where the highest cell of a program is known, that of the optimised program is known too and is no
higher (`optimize_needs_no_more_tape`). The reach of single operations may grow, since a
multiplication reaches at once where the loop walked. But the search for the highest cell forms no
position in the optimised program that it does not form in the program itself, and neither does it
form a new sum for the net shift of a loop. `Confined P S` says that all these positions are in `P`
and all these sums in `S`. A pass keeps it for all `P` and `S` (`narrows_apply`): for the positions
up to a bound, which bounds the highest cell, and for the integers of the word, so that the search
does not overflow where it did not overflow before.
-/

set_option autoImplicit false

namespace TapeLang

/-- The positions that are formed for an operation at the position `here` are in `P`, and so is the
sum that is formed on top of `total` in `S`. -/
def Op.Forms (P S : Int → Prop) (here total : Int) : Op → Prop
  | .shift amount => P (here + amount) ∧ S (total + amount)
  | .add _ offset => P (here + offset)
  | .multiply factors => ∀ offset ∈ factors.greatest?, P (here + offset)
  | _ => True

namespace Program

/-- No loop moves the pointer. From the position `here` on, the search for the highest cell forms
positions in `P` only, and the search for the net shift forms sums in `S` only, on top of `total`
and anew in each body. -/
def Confined (P S : Int → Prop) (here total : Int) : Program → Prop
  | done => True
  | op o rest => o.Forms P S here total ∧ rest.Confined P S (here + o.move) (total + o.move)
  | loop body rest =>
      body.netShift? = some 0 ∧ body.Confined P S here 0 ∧ rest.Confined P S here total

variable {P S : Int → Prop} {here total : Int} {p q r : Program}

/-! ## Confinement and the two searches -/

/-- No position that is formed is above the highest one. -/
theorem confined_of_highestFrom? {bound : Int} : ∀ {p : Program} {here highest : Int} (total : Int),
    p.highestFrom? here = some highest → highest ≤ bound →
      p.Confined (· ≤ bound) (fun _ => True) here total := by
  intro p
  induction p with
  | done => exact fun _ _ _ => trivial
  | op o rest ih =>
      intro here highest total h hbound
      obtain ⟨⟨above, hrest, hle⟩, hoffsets⟩ := highestFrom?_op h
      refine ⟨?_, ih _ hrest (le_trans hle hbound)⟩
      cases o with
      | shift amount =>
          -- the place that the shift leads to is where the rest starts
          have hstart : here + amount ≤ above := le_of_highestFrom? hrest
          exact ⟨by omega, trivial⟩
      | add amount offset => exact le_trans (hoffsets offset List.mem_cons_self) hbound
      | multiply factors =>
          intro offset hoffset
          exact le_trans (hoffsets offset (List.mem_of_getLast? hoffset)) hbound
      | _ => trivial
  | loop body rest ihbody ihrest =>
      intro here highest total h hbound
      obtain ⟨hshift, ⟨a, ha, hale⟩, b, hb, hble⟩ := highestFrom?_loop h
      exact ⟨hshift, ihbody 0 ha (le_trans hale hbound), ihrest total hb (le_trans hble hbound)⟩

/-- A bound on the positions that are formed bounds the highest one. -/
theorem highestFrom?_of_confined {bound : Int} : ∀ {p : Program} {here total : Int},
    p.Confined (· ≤ bound) S here total → here ≤ bound →
      ∃ highest, p.highestFrom? here = some highest ∧ highest ≤ bound := by
  intro p
  induction p with
  | done => exact fun _ hhere => ⟨_, rfl, hhere⟩
  | op o rest ih =>
      rintro here total ⟨hforms, hconfined⟩ hhere
      cases o with
      | shift amount =>
          obtain ⟨highest, hrest, hle⟩ := ih hconfined hforms.1
          simp only [Op.move] at hrest
          exact ⟨max here highest, by rw [highestFrom?, hrest]; rfl, max_le hhere hle⟩
      | add amount offset =>
          simp only [Op.move, Int.add_zero] at hconfined
          obtain ⟨highest, hrest, hle⟩ := ih hconfined hhere
          exact ⟨max (here + offset) highest, by rw [highestFrom?, hrest]; rfl, max_le hforms hle⟩
      | multiply factors =>
          simp only [Op.move, Int.add_zero] at hconfined
          obtain ⟨highest, hrest, hle⟩ := ih hconfined hhere
          cases hgreatest : factors.greatest? with
          | none => exact ⟨highest, by simp only [highestFrom?, hgreatest, hrest], hle⟩
          | some offset =>
              refine ⟨max (here + offset) highest, ?_, max_le (hforms offset hgreatest) hle⟩
              simp only [highestFrom?, hgreatest, hrest, Option.map_some]
      | _ =>
          simp only [Op.move, Int.add_zero] at hconfined
          exact ih hconfined hhere
  | loop body rest ihbody ihrest =>
      rintro here total ⟨hshift, hbody, hrest⟩ hhere
      obtain ⟨a, ha, hale⟩ := ihbody hbody hhere
      obtain ⟨b, hb, hble⟩ := ihrest hrest hhere
      exact ⟨max a b, by simp only [highestFrom?, hshift, if_true, ha, hb], max_le hale hble⟩

theorem shiftScan_fst (p : Program) : ∀ total : Int,
    (p.shiftScan total).1 = p.netShift?.map (total + ·) := by
  induction p with
  | done => simp [shiftScan, netShift?]
  | op o rest ih =>
      intro total
      cases o with
      | shift amount =>
          simp only [shiftScan, netShift?, ih, Option.map_map]
          congr 1
          funext d
          simp only [Function.comp_apply, Int.add_assoc]
      | _ => exact ih total
  | loop body rest ihbody ihrest =>
      intro total
      have hbody : (body.shiftScan 0).1 = body.netShift? := by
        rw [ihbody]
        simp
      simp only [shiftScan, netShift?, hbody]
      split
      · exact ihrest total
      · rfl

/-- Where the net shift is known, the integers that the two searches form fit in the word exactly if
the two tests say so. -/
theorem confined_fits_iff : ∀ {p : Program} {d : Int} (here total : Int), p.netShift? = some d →
    (p.Confined (fun x => Word.fits x = true) (fun x => Word.fits x = true) here total ↔
      p.highestFits here = true ∧ (p.shiftScan total).2 = true) := by
  intro p
  induction p with
  | done => simp [Confined, highestFits, shiftScan]
  | op o rest ih =>
      intro d here total h
      rw [netShift?_op, Option.map_eq_some_iff] at h
      obtain ⟨d', hrest, -⟩ := h
      rw [Confined, ih _ _ hrest]
      cases o with
      | shift amount =>
          simp only [Op.Forms, Op.move, highestFits, shiftScan, Bool.and_eq_true]
          constructor
          · rintro ⟨⟨hhere, htotal⟩, hfits, hscan⟩
            exact ⟨⟨hhere, hfits⟩, htotal, hscan⟩
          · rintro ⟨⟨hhere, hfits⟩, htotal, hscan⟩
            exact ⟨⟨hhere, htotal⟩, hfits, hscan⟩
      | add amount offset =>
          simp only [Op.Forms, Op.move, Int.add_zero, highestFits, shiftScan, Bool.and_eq_true,
            and_assoc]
      | multiply factors =>
          simp only [Op.Forms, Op.move, Int.add_zero, highestFits, shiftScan, Bool.and_eq_true,
            and_assoc, Option.all_eq_true, Option.mem_def]
      | _ => simp [Op.Forms, Op.move, highestFits, shiftScan]
  | loop body rest ihbody ihrest =>
      intro d here total h
      obtain ⟨hbody, hrest⟩ := netShift?_loop h
      have hscan : (body.shiftScan 0).1 = some 0 := by
        rw [shiftScan_fst, hbody]
        rfl
      rw [Confined, ihbody here 0 hbody, ihrest here total hrest]
      simp only [hbody, true_and, highestFits, shiftScan, hscan, ne_eq, not_true_eq_false,
        decide_false, Bool.false_or, if_true, Bool.and_eq_true]
      constructor
      · rintro ⟨⟨hfits, hsums⟩, hfits', hsums'⟩
        exact ⟨⟨hsums, hfits, hfits'⟩, hsums, hsums'⟩
      · -- both tests look at the sums of the body, which are confined once
        rintro ⟨⟨hsums, hfits, hfits'⟩, -, hsums'⟩
        exact ⟨⟨hfits, hsums⟩, hfits', hsums'⟩

/-- The sums for the net shift of the whole, from where the search for the highest cell starts, are
positions of that search. -/
theorem shiftScan_of_highestFits : ∀ {p : Program} {here d : Int}, p.netShift? = some d →
    p.highestFits here = true → (p.shiftScan here).2 = true := by
  intro p
  induction p with
  | done => exact fun _ _ => rfl
  | op o rest ih =>
      intro here d h hfits
      rw [netShift?_op, Option.map_eq_some_iff] at h
      obtain ⟨d', hrest, -⟩ := h
      cases o with
      | shift amount =>
          simp only [highestFits, Bool.and_eq_true] at hfits
          simp only [shiftScan, Bool.and_eq_true]
          exact ⟨hfits.1, ih hrest hfits.2⟩
      | add amount offset =>
          simp only [highestFits, Bool.and_eq_true] at hfits
          exact ih hrest hfits.2
      | multiply factors =>
          simp only [highestFits, Bool.and_eq_true] at hfits
          exact ih hrest hfits.2
      | _ => exact ih hrest hfits
  | loop body rest _ ih =>
      intro here d h hfits
      obtain ⟨hbody, hrest⟩ := netShift?_loop h
      have hscan : (body.shiftScan 0).1 = some 0 := by
        rw [shiftScan_fst, hbody]
        rfl
      simp only [highestFits, hscan, ne_eq, not_true_eq_false, decide_false, Bool.false_or,
        Bool.and_eq_true] at hfits
      simp only [shiftScan, hscan, if_true, Bool.and_eq_true]
      exact ⟨hfits.1, ih hrest hfits.2.2⟩

/-! ## Narrowing -/

/-- The program `q` moves the pointer as the program `p` does, and the searches form no position and
no sum for it that they do not form for `p`. -/
structure Narrows (p q : Program) : Prop where
  netShift : ∀ {d : Int}, p.netShift? = some d → q.netShift? = some d
  confined : ∀ {P S : Int → Prop} {here total : Int},
    p.Confined P S here total → q.Confined P S here total

namespace Narrows

theorem refl (p : Program) : Narrows p p := ⟨fun h => h, fun h => h⟩

theorem trans (h : Narrows p q) (h' : Narrows q r) : Narrows p r :=
  ⟨fun hd => h'.netShift (h.netShift hd), fun hp => h'.confined (h.confined hp)⟩

theorem op (o : Op) (h : Narrows p q) : Narrows (.op o p) (.op o q) := by
  refine ⟨?_, fun hp => ⟨hp.1, h.confined hp.2⟩⟩
  intro d hd
  rw [netShift?_op, Option.map_eq_some_iff] at hd ⊢
  obtain ⟨d', hp, hsum⟩ := hd
  exact ⟨d', h.netShift hp, hsum⟩

theorem loop {body body' : Program} (hbody : Narrows body body') (h : Narrows p q) :
    Narrows (.loop body p) (.loop body' q) := by
  constructor
  · intro d hd
    obtain ⟨hzero, hp⟩ := netShift?_loop hd
    rw [netShift?, if_pos (hbody.netShift hzero)]
    exact h.netShift hp
  · rintro P S here total ⟨hzero, hconfined, hp⟩
    exact ⟨hbody.netShift hzero, hbody.confined hconfined, h.confined hp⟩

/-- An operation that does not move the pointer may be left out. -/
theorem drop_op {o : Op} (ho : o.move = 0) (p : Program) : Narrows (.op o p) p := by
  constructor
  · intro d hd
    rw [netShift?_op, ho] at hd
    simpa using hd
  · rintro P S here total ⟨-, hp⟩
    rwa [ho, Int.add_zero, Int.add_zero] at hp

theorem drop_loop (body p : Program) : Narrows (.loop body p) p :=
  ⟨fun hd => (netShift?_loop hd).2, fun hp => hp.2.2⟩

/-- An operation may stand for a loop, if it does not move the pointer and uses only positions that
the body forms. -/
theorem of_body {body : Program} {o : Op} (ho : o.move = 0)
    (hforms : ∀ {P S : Int → Prop} {here total : Int}, body.Confined P S here 0 →
      o.Forms P S here total) (p : Program) : Narrows (.loop body p) (.op o p) := by
  constructor
  · intro d hd
    rw [netShift?_op, ho, (netShift?_loop hd).2]
    simp
  · rintro P S here total ⟨-, hbody, hp⟩
    refine ⟨hforms hbody, ?_⟩
    rwa [ho, Int.add_zero, Int.add_zero]

end Narrows

/-! ## Passes -/

section Everywhere

variable {f : Program → Program} (hf : ∀ p, Narrows p (f p))

include hf

theorem narrows_mapBodies (p : Program) : Narrows p (p.mapBodies f) := by
  induction p with
  | done => exact .refl _
  | op o rest ih => exact ih.op o
  | loop body rest ihbody ihrest => exact (ihbody.trans (hf _)).loop ihrest

theorem narrows_everywhere (p : Program) : Narrows p (p.everywhere f) :=
  (narrows_mapBodies hf p).trans (hf _)

end Everywhere

/-- A join passes over positions: two shifts in a row stop in between, their sum does not. -/
theorem Joining.narrows (h : Joining p q) : Narrows p q := by
  induction h with
  | shift_zero rest => exact .drop_op rfl rest
  | add_zero offset rest => exact .drop_op rfl rest
  | shifts a b rest =>
      constructor
      · intro d hd
        rw [netShift?_op, netShift?_op, Option.map_map] at hd
        rw [netShift?_op, ← hd]
        congr 1
        funext x
        simp only [Function.comp_apply, Op.move, Int.add_assoc]
      · -- what is formed for the joined shift is what was formed for the second of the two
        rintro P S here total ⟨-, ⟨hhere, htotal⟩, hrest⟩
        simp only [Op.move, Int.add_assoc] at hhere htotal hrest
        exact ⟨⟨hhere, htotal⟩, hrest⟩
  | adds a b offset rest =>
      constructor
      · intro d hd
        simpa [netShift?_op, Op.move] using hd
      · rintro P S here total ⟨hfirst, -, hrest⟩
        simp only [Op.move, Int.add_zero] at hrest
        refine ⟨hfirst, ?_⟩
        simpa only [Op.move, Int.add_zero] using hrest
  | op o _ ih => exact ih.op o
  | body rest _ ih => exact ih.loop (.refl rest)
  | rest body _ ih => exact (Narrows.refl body).loop ih

theorem narrows_mergeRuns (p : Program) : Narrows p p.mergeRuns := by
  have hreaches := reaches_mergeRuns p
  generalize p.mergeRuns = q at hreaches
  induction hreaches with
  | refl => exact .refl p
  | tail _ hjoining ih => exact ih.trans hjoining.narrows

theorem narrows_recogniseLoops {recognise : Program → Option Op}
    (h : ∀ {body : Program} {o : Op}, recognise body = some o →
      ∀ rest, Narrows (loop body rest) (op o rest)) (p : Program) :
    Narrows p (p.recogniseLoops recognise) := by
  induction p with
  | done => exact .refl _
  | op o rest ih => exact ih.op o
  | loop body rest ihbody ihrest =>
      rw [recogniseLoops]
      split
      next o ho => exact (ihbody.loop ihrest).trans (h ho _)
      next => exact ihbody.loop ihrest

theorem narrows_clearLoops (p : Program) : Narrows p p.clearLoops := by
  rw [clearLoops_eq]
  apply narrows_recogniseLoops
  intro body o ho rest
  rw [clear?] at ho
  split at ho
  next =>
    cases ho
    exact Narrows.of_body (o := .setZero) rfl (fun _ => trivial) rest
  next => cases ho

/-- A body that is tallied forms every position for which there is a new total. -/
theorem formed_of_tally {body : Program} : ∀ {here stop k base total : Int}
    {totals totals' : Factors}, body.tally? here totals = some (stop, totals') →
      totals.get? k = none → totals'.get? k ≠ none →
        body.Confined P S (base + here) total → P (base + k) := by
  induction body with
  | done =>
      intro here stop k base total totals totals' h hold hnew _
      cases h
      exact absurd hold hnew
  | loop inner rest _ _ =>
      intro here stop k base total totals totals' h
      cases h
  | op o rest ih =>
      rintro here stop k base total totals totals' h hold hnew ⟨hforms, hrest⟩
      cases o with
      | shift amount =>
          rw [tally?] at h
          rw [Op.move, Int.add_assoc] at hrest
          exact ih h hold hnew hrest
      | add amount offset =>
          rw [tally?] at h
          simp only [Op.move, Int.add_zero] at hrest
          -- the total of the position appears here or later
          by_cases hk : k = here + offset
          · rw [Op.Forms, Int.add_assoc] at hforms
            rw [hk]
            exact hforms
          · exact ih h (by rw [Factors.get?_bump, if_neg hk, hold]) hnew hrest
      | _ => cases h

theorem narrows_multiplyLoops (p : Program) : Narrows p p.multiplyLoops := by
  rw [multiplyLoops_eq]
  apply narrows_recogniseLoops
  intro body o ho rest
  rw [transfer?, Option.map_eq_some_iff] at ho
  obtain ⟨factors, hfactors, rfl⟩ := ho
  obtain ⟨totals, htally, -, rfl⟩ := factors?_eq_some_iff.1 hfactors
  refine .of_body rfl ?_ rest
  intro P S here total hbody offset hoffset
  -- the greatest offset is one that the walk adds at
  obtain ⟨e, he, rfl⟩ := List.mem_map.1 (List.mem_of_getLast? hoffset)
  have hentry := (Factors.mem_entries_iff _ _ _).1 (List.mem_filter.1 he).1
  have hnew : totals.get? e.1 ≠ none := by
    rw [hentry]
    exact Option.some_ne_none _
  have hstart : body.Confined P S (here + 0) 0 := by
    rwa [Int.add_zero]
  exact formed_of_tally htally (Factors.get?_empty e.1) hnew hstart

theorem narrows_sweepFrom (p : Program) : ∀ here : Int, Narrows p (p.sweepFrom here).program := by
  induction p with
  | done => exact fun _ => .refl _
  | loop body rest _ ih => exact fun _ => (Narrows.refl body).loop (ih 0)
  | op o rest ih =>
      intro here
      cases o with
      | add amount offset =>
          simp only [sweepFrom]
          split
          · exact (Narrows.drop_op rfl rest).trans (ih here)
          · exact (ih here).op _
      | setZero =>
          simp only [sweepFrom]
          split
          · exact (Narrows.drop_op rfl rest).trans (ih here)
          · exact (ih here).op _
      | _ => exact (ih _).op _

theorem narrows_dropZeroLoops (p : Program) : ∀ k : Known, Narrows p (p.dropZeroLoops k) := by
  induction p with
  | done => exact fun _ => .refl _
  | op o rest ih =>
      intro k
      rw [dropZeroLoops]
      split
      next hidle =>
        have ho : o.move = 0 := by
          cases o with
          | shift amount => simp [Op.idleOnZero] at hidle
          | _ => rfl
        exact (Narrows.drop_op ho rest).trans (ih k)
      next => exact (ih _).op o
  | loop body rest ihbody ihrest =>
      intro k
      rw [dropZeroLoops]
      split
      · exact (Narrows.drop_loop body rest).trans (ihrest k)
      · exact (ihbody _).loop (ihrest _)

theorem narrows_apply (pass : Pass) (p : Program) : Narrows p (pass.apply p) := by
  cases pass with
  | merge => exact narrows_mergeRuns p
  | clear => exact narrows_clearLoops p
  | multiply => exact narrows_multiplyLoops p
  | dead => exact narrows_everywhere (fun r => narrows_sweepFrom r 0) p
  | zero => exact narrows_dropZeroLoops p .fresh

theorem narrows_optimize {F : PassSet} {log : List Event} (h : F.optimize p = .ok (q, log)) :
    Narrows p q := by
  have happlies := F.applies_optimize h
  clear h
  induction happlies with
  | refl => exact .refl p
  | tail _ hstep ih =>
      obtain ⟨pass, -, rfl⟩ := hstep
      exact ih.trans (narrows_apply pass _)

end Program

/-- Optimising never makes the need for tape worse. Where the highest cell of a program is known,
the highest cell of what the optimiser makes of it is known and is no higher, whatever passes are
enabled. If the search for the highest cell stays in the word on the program, it also does so on the
optimised one. -/
theorem optimize_needs_no_more_tape {F : PassSet} {p q : Program} {log : List Event} {highest : Nat}
    (h : F.optimize p = .ok (q, log)) (hp : p.highestCell? = some highest) :
    (∃ highest', q.highestCell? = some highest' ∧ highest' ≤ highest) ∧
      (p.highestFits 0 = true → q.highestFits 0 = true) := by
  have hnarrows := Program.narrows_optimize h
  rw [Program.highestCell?, Option.map_eq_some_iff] at hp
  obtain ⟨position, hposition, rfl⟩ := hp
  constructor
  · have hconfined := hnarrows.confined (Program.confined_of_highestFrom? 0 hposition le_rfl)
    obtain ⟨position', hposition', hle⟩ :=
      Program.highestFrom?_of_confined hconfined (Program.le_of_highestFrom? hposition)
    refine ⟨position'.toNat, by rw [Program.highestCell?, hposition']; rfl, ?_⟩
    omega
  · intro hfits
    -- from cell zero the sums of the whole program are positions as well, so all of them fit
    obtain ⟨d, hd⟩ := Program.netShift?_of_highestFrom? hposition
    have hscan := Program.shiftScan_of_highestFits hd hfits
    have hconfined := (Program.confined_fits_iff 0 0 hd).2 ⟨hfits, hscan⟩
    exact ((Program.confined_fits_iff 0 0 (hnarrows.netShift hd)).1 (hnarrows.confined hconfined)).1

/-- A walk to cell three and back, and a loop that adds the cell that was read to the one two cells
to its right. All operations are on the current cell. -/
def roundabout : Program :=
  .op (.shift 3) (.op (.shift (-3)) (.op .input (.loop (.op (.add (-1) 0) (.op (.shift 2)
    (.op (.add 1 0) (.op (.shift (-2)) .done)))) .done)))

/-- The optimised program needs a cell less, although its multiplication reaches two cells further
than any operation did. -/
theorem optimize_needs_no_more_tape_roundabout :
    ∃ q log, PassSet.all.optimize roundabout = .ok (q, log) ∧ roundabout.highestCell? = some 3 ∧
      (∃ highest, q.highestCell? = some highest ∧ highest ≤ 3) ∧ q.highestCell? = some 2 ∧
      roundabout.reach = 0 ∧ q.reach = 2 ∧ q.highestFits 0 = true := by
  have hoptimize : PassSet.all.optimize roundabout =
    .ok (.op .input (.op (.multiply (.ofList [(2, 1)])) .done), _) := rfl
  have hhighest : roundabout.highestCell? = some 3 := rfl
  obtain ⟨hcell, hfits⟩ := optimize_needs_no_more_tape hoptimize hhighest
  exact ⟨_, _, hoptimize, hhighest, hcell, rfl, rfl, rfl, hfits (by decide)⟩

end TapeLang
