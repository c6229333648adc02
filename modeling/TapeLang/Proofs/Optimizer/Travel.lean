import TapeLang.Proofs.FactorTables
import TapeLang.Proofs.Optimizer.Inventory

/-!
# How far a program moves

The travel of a program is the number of moves in its text: the distance of each shift, and for each
multiplication the length of the tour over its offsets and back. No pass adds to it
(`within_apply`). For the pass that recognises multiplications this is so because a walk that comes
back to its start cannot visit two cells in fewer moves than the tour over both
(`travel_of_tally_pair`).

Every position and every sum of shifts that a pass forms lies within the travel of the program. So
the optimiser returns a program whenever the travel fits in a word (`exists_optimize`).
-/

set_option autoImplicit false

namespace TapeLang

/-- The moves of a walk from the cell `here` over the entries of a table and back to the cell
zero. -/
def tourLength (here : Int) : List (Int × Int8) → Nat
  | [] => here.natAbs
  | (offset, _) :: rest => (offset - here).natAbs + tourLength offset rest

/-- The moves of an operation. -/
def Op.travel : Op → Nat
  | .shift amount => amount.natAbs
  | .multiply factors => tourLength 0 factors.entries
  | _ => 0

/-- An addition to the current cell, or any other operation. -/
def Op.addsHere : Op → Bool
  | .add _ offset => offset = 0
  | _ => true

theorem Op.travel_of_join? {o o' joined : Op} (h : o.join? o' = some joined) :
    joined.travel ≤ o.travel + o'.travel := by
  rcases join?_eq_some h with ⟨a, b, rfl, rfl, rfl⟩ | ⟨a, b, i, rfl, rfl, rfl⟩
  · exact Int.natAbs_add_le a b
  · exact Nat.zero_le _

theorem Op.addsHere_of_join? {o o' joined : Op} (h : o.join? o' = some joined)
    (ho : o.addsHere = true) : joined.addsHere = true := by
  rcases join?_eq_some h with ⟨a, b, rfl, rfl, rfl⟩ | ⟨a, b, i, rfl, rfl, rfl⟩
  · rfl
  · exact ho

namespace Program

/-- The moves of all operations, those inside loop bodies included. -/
def travel : Program → Nat
  | done => 0
  | op o rest => o.travel + rest.travel
  | loop body rest => body.travel + rest.travel

/-- All additions are to the current cell, and the travel is at most `bound`. -/
structure Within (bound : Nat) (p : Program) : Prop where
  addsHere : p.allOps Op.addsHere = true
  travel_le : p.travel ≤ bound

variable {bound : Nat} {p : Program}

theorem within_op_iff {o : Op} {rest : Program} :
    (op o rest).Within bound ↔
      o.addsHere = true ∧ ∃ n, rest.Within n ∧ o.travel + n ≤ bound := by
  constructor
  · rintro ⟨hadds, htravel⟩
    rw [allOps_op] at hadds
    exact ⟨hadds.1, rest.travel, ⟨hadds.2, Nat.le_refl _⟩, htravel⟩
  · rintro ⟨ho, n, ⟨hadds, htravel⟩, hle⟩
    refine ⟨(allOps_op _ _).2 ⟨ho, hadds⟩, ?_⟩
    rw [travel]
    omega

theorem within_loop_iff {body rest : Program} :
    (loop body rest).Within bound ↔
      ∃ m n, body.Within m ∧ rest.Within n ∧ m + n ≤ bound := by
  constructor
  · rintro ⟨hadds, htravel⟩
    rw [allOps_loop] at hadds
    exact ⟨body.travel, rest.travel, ⟨hadds.1, Nat.le_refl _⟩, ⟨hadds.2, Nat.le_refl _⟩, htravel⟩
  · rintro ⟨m, n, ⟨hbody, hm⟩, ⟨hrest, hn⟩, hle⟩
    refine ⟨(allOps_loop _ _).2 ⟨hbody, hrest⟩, ?_⟩
    rw [travel]
    omega

theorem Within.mono {bound' : Nat} (h : p.Within bound) (hle : bound ≤ bound') :
    p.Within bound' :=
  ⟨h.addsHere, Nat.le_trans h.travel_le hle⟩

theorem Within.rest {o : Op} {rest : Program} (h : (op o rest).Within bound) :
    rest.Within bound := by
  obtain ⟨-, n, hrest, hle⟩ := within_op_iff.1 h
  exact hrest.mono (by omega)

/-- What a sequence is within, its beginning and what follows are. -/
theorem Within.op {o : Op} {rest rest' : Program} (h : (Program.op o rest).Within bound)
    (hrest : ∀ n, rest.Within n → rest'.Within n) : (Program.op o rest').Within bound := by
  obtain ⟨ho, n, hn, hle⟩ := within_op_iff.1 h
  exact within_op_iff.2 ⟨ho, n, hrest n hn, hle⟩

theorem Within.loop {body body' rest rest' : Program} (h : (Program.loop body rest).Within bound)
    (hbody : ∀ n, body.Within n → body'.Within n) (hrest : ∀ n, rest.Within n → rest'.Within n) :
    (Program.loop body' rest').Within bound := by
  obtain ⟨m, n, hm, hn, hle⟩ := within_loop_iff.1 h
  exact within_loop_iff.2 ⟨m, n, hbody m hm, hrest n hn, hle⟩

/-! ## Single sequences -/

section Everywhere

variable {f : Program → Program} (hf : ∀ {n : Nat} {q : Program}, q.Within n → (f q).Within n)

include hf

theorem Within.mapBodies (h : p.Within bound) : (p.mapBodies f).Within bound := by
  induction p generalizing bound with
  | done => exact h
  | op o rest ih => exact h.op fun _ => ih
  | loop body rest ihbody ihrest =>
      exact h.loop (fun _ hbody => hf (ihbody hbody)) fun _ => ihrest

theorem Within.everywhere (h : p.Within bound) : (p.everywhere f).Within bound :=
  hf (h.mapBodies hf)

/-- Every sequence that is visited moves no more than the program. -/
theorem Within.of_mem_visited (h : p.Within bound) : ∀ q ∈ p.visited f, q.Within bound := by
  have hbodies : ∀ q ∈ p.visitedBodies f, q.Within bound := by
    induction p generalizing bound with
    | done => exact fun q hq => by cases hq
    | op o rest ih => exact ih h.rest
    | loop body rest ihbody ihrest =>
        obtain ⟨m, n, hm, hn, hle⟩ := within_loop_iff.1 h
        intro q hq
        rw [visitedBodies_loop, List.mem_append, List.mem_cons] at hq
        rcases hq with hq | rfl | hq
        · exact (ihbody hm q hq).mono (by omega)
        · exact (hm.mapBodies hf).mono (by omega)
        · exact (ihrest hn q hq).mono (by omega)
  intro q hq
  rw [visited_eq, List.mem_append, List.mem_singleton] at hq
  rcases hq with hq | rfl
  · exact hbodies q hq
  · exact h.mapBodies hf

end Everywhere

theorem Within.consEffective {o : Op} (h : (Program.op o p).Within bound) :
    (consEffective o p).Within bound := by
  rw [Program.consEffective]
  split
  · exact h.rest
  · exact h

theorem Within.consFused {o : Op} (h : (Program.op o p).Within bound) :
    (consFused o p).Within bound := by
  cases p with
  | done => exact h.consEffective
  | loop body rest => exact h.consEffective
  | op first rest =>
      rw [Program.consFused]
      split
      next joined hj =>
        obtain ⟨ho, n, hn, hle⟩ := within_op_iff.1 h
        obtain ⟨hfirst, m, hm, hle'⟩ := within_op_iff.1 hn
        have htravel := Op.travel_of_join? hj
        apply consEffective
        exact within_op_iff.2 ⟨Op.addsHere_of_join? hj ho, m, hm, by omega⟩
      next => exact h.consEffective

theorem Within.fuse (h : p.Within bound) : p.fuse.Within bound := by
  induction p generalizing bound with
  | done => exact h
  | op o rest ih => exact Within.consFused (h.op fun _ => ih)
  | loop body rest _ ih => exact h.loop (fun _ => id) fun _ => ih

theorem Within.clearHere (h : p.Within bound) : p.clearHere.Within bound := by
  induction p generalizing bound with
  | done => exact h
  | op o rest ih => exact h.op fun _ => ih
  | loop body rest _ ih =>
      rw [Program.clearHere]
      split
      · obtain ⟨m, n, -, hn, hle⟩ := within_loop_iff.1 h
        exact within_op_iff.2 ⟨rfl, n, ih hn, by simp only [Op.travel]; omega⟩
      · exact h.loop (fun _ => id) fun _ => ih

theorem Within.sweepFrom (h : p.Within bound) : ∀ here,
    (p.sweepFrom here).program.Within bound := by
  induction p generalizing bound with
  | done => exact fun _ => h
  | loop body rest _ ih => exact fun here => h.loop (fun _ => id) fun _ hrest => ih hrest 0
  | op o rest ih =>
      intro here
      cases o with
      | shift amount => exact h.op fun _ hrest => ih hrest _
      | input => exact h.op fun _ hrest => ih hrest _
      | output => exact h.op fun _ hrest => ih hrest _
      | multiply factors => exact h.op fun _ hrest => ih hrest _
      | add amount offset =>
          simp only [Program.sweepFrom]
          split
          · exact ih h.rest here
          · exact h.op fun _ hrest => ih hrest here
      | setZero =>
          simp only [Program.sweepFrom]
          split
          · exact ih h.rest here
          · exact h.op fun _ hrest => ih hrest here

theorem Within.dropZeroLoops (h : p.Within bound) : ∀ k, (p.dropZeroLoops k).Within bound := by
  induction p generalizing bound with
  | done => exact fun _ => h
  | op o rest ih =>
      intro k
      rw [Program.dropZeroLoops]
      split
      · exact ih h.rest k
      · exact h.op fun _ hrest => ih hrest _
  | loop body rest ihbody ihrest =>
      intro k
      rw [Program.dropZeroLoops]
      split
      · obtain ⟨m, n, -, hn, hle⟩ := within_loop_iff.1 h
        exact (ihrest hn k).mono (by omega)
      · exact h.loop (fun _ hbody => ihbody hbody _) fun _ hrest => ihrest hrest _

/-! ## Walks

A body that is tallied is a walk. It is at least as long as the way from its start to its end, and
as the way over any one or two cells that it adds to. -/

/-- One step of a walk: a move, or an addition where the walk stands. -/
theorem tally?_op_eq_some {o : Op} {rest : Program} {here stop : Int} {totals totals' : Factors}
    (ho : o.addsHere = true) (h : (op o rest).tally? here totals = some (stop, totals')) :
    (∃ a, o = .shift a ∧ rest.tally? (here + a) totals = some (stop, totals')) ∨
      ∃ a, o = .add a 0 ∧ rest.tally? here (totals.bump here a) = some (stop, totals') := by
  cases o with
  | shift a => exact Or.inl ⟨a, rfl, h⟩
  | add a offset =>
      obtain rfl : offset = 0 := by simpa [Op.addsHere] using ho
      rw [tally?, Int.add_zero] at h
      exact Or.inr ⟨a, rfl, h⟩
  | input => cases h
  | output => cases h
  | setZero => cases h
  | multiply factors => cases h

/-- A move brings a walk no more than its distance nearer to a cell. -/
theorem moves_le_of_shift {here a i : Int} {m n : Nat}
    (h : (i - (here + a)).natAbs + m ≤ n) : (i - here).natAbs + m ≤ a.natAbs + n := by
  omega

theorem travel_of_tally {body : Program} (hadds : body.allOps Op.addsHere = true) :
    ∀ {here stop : Int} {totals totals' : Factors},
      body.tally? here totals = some (stop, totals') → (stop - here).natAbs ≤ body.travel := by
  induction body with
  | done =>
      intro here stop totals totals' h
      cases h
      simp [travel]
  | op o rest ih =>
      intro here stop totals totals' h
      rw [allOps_op] at hadds
      rw [travel]
      rcases tally?_op_eq_some hadds.1 h with ⟨a, rfl, hrest⟩ | ⟨a, rfl, hrest⟩
      · have hle := ih hadds.2 hrest
        simp only [Op.travel]
        omega
      · have hle := ih hadds.2 hrest
        omega
  | loop body rest _ _ =>
      intro here stop totals totals' h
      cases h

/-- The walk visits a cell for which there is a new total. -/
theorem travel_of_tally_visit {body : Program} (hadds : body.allOps Op.addsHere = true) :
    ∀ {here stop k : Int} {totals totals' : Factors},
      body.tally? here totals = some (stop, totals') → totals.get? k = none →
      totals'.get? k ≠ none → (k - here).natAbs + (stop - k).natAbs ≤ body.travel := by
  induction body with
  | done =>
      intro here stop k totals totals' h hold hnew
      cases h
      exact absurd hold hnew
  | op o rest ih =>
      intro here stop k totals totals' h hold hnew
      rw [allOps_op] at hadds
      rw [travel]
      rcases tally?_op_eq_some hadds.1 h with ⟨a, rfl, hrest⟩ | ⟨a, rfl, hrest⟩
      · exact moves_le_of_shift (ih hadds.2 hrest hold hnew)
      · by_cases hk : k = here
        · have hle := travel_of_tally hadds.2 hrest
          omega
        · have hle := ih hadds.2 hrest (by rw [Factors.get?_bump, if_neg hk, hold]) hnew
          omega
  | loop body rest _ _ =>
      intro here stop k totals totals' h
      cases h

/-- The walk visits two cells for which there are new totals, the one before the other. -/
theorem travel_of_tally_pair {body : Program} (hadds : body.allOps Op.addsHere = true) :
    ∀ {here stop j k : Int} {totals totals' : Factors},
      body.tally? here totals = some (stop, totals') → totals.get? j = none →
      totals'.get? j ≠ none → totals.get? k = none → totals'.get? k ≠ none →
        (j - here).natAbs + ((k - j).natAbs + (stop - k).natAbs) ≤ body.travel ∨
          (k - here).natAbs + ((j - k).natAbs + (stop - j).natAbs) ≤ body.travel := by
  induction body with
  | done =>
      intro here stop j k totals totals' h hj hj'
      cases h
      exact absurd hj hj'
  | op o rest ih =>
      intro here stop j k totals totals' h hj hj' hk hk'
      rw [allOps_op] at hadds
      rw [travel]
      rcases tally?_op_eq_some hadds.1 h with ⟨a, rfl, hrest⟩ | ⟨a, rfl, hrest⟩
      · exact (ih hadds.2 hrest hj hj' hk hk').imp moves_le_of_shift moves_le_of_shift
      · -- the walk stands on one of the two cells, or both are still to come
        have hlater : ∀ i, i ≠ here → totals.get? i = none →
            (totals.bump here a).get? i = none := by
          intro i hi hnone
          rw [Factors.get?_bump, if_neg hi, hnone]
        by_cases hjhere : j = here
        · by_cases hkhere : k = here
          · have hle := travel_of_tally hadds.2 hrest
            omega
          · have hle := travel_of_tally_visit hadds.2 hrest (hlater k hkhere hk) hk'
            omega
        · by_cases hkhere : k = here
          · have hle := travel_of_tally_visit hadds.2 hrest (hlater j hjhere hj) hj'
            omega
          · have hle := ih hadds.2 hrest (hlater j hjhere hj) hj' (hlater k hkhere hk) hk'
            omega
  | loop body rest _ _ =>
      intro here stop j k totals totals' h
      cases h

/-! ## Tours -/

/-- A tour over ascending offsets goes straight to the last of them and back from there. -/
theorem exists_tourLength_eq (l : List (Int × Int8)) : ∀ {here : Int},
    (∀ e ∈ l, here < e.1) → l.Pairwise (fun a b => a.1 < b.1) →
      ∃ last, (last = here ∨ ∃ v, (last, v) ∈ l) ∧ here ≤ last ∧
        tourLength here l = (last - here).natAbs + last.natAbs := by
  induction l with
  | nil => exact fun {here} _ _ => ⟨here, Or.inl rfl, Int.le_refl _, by simp [tourLength]⟩
  | cons e rest ih =>
      intro here hhere hascending
      obtain ⟨k, v⟩ := e
      obtain ⟨hfirst, hrest⟩ := List.pairwise_cons.1 hascending
      obtain ⟨last, hmem, hle, heq⟩ := ih hfirst hrest
      have hlt : here < k := hhere _ List.mem_cons_self
      refine ⟨last, Or.inr ?_, by omega, ?_⟩
      · rcases hmem with rfl | ⟨w, hw⟩
        · exact ⟨v, List.mem_cons_self⟩
        · exact ⟨w, List.mem_cons_of_mem _ hw⟩
      · rw [tourLength, heq]
        omega

/-- A tour visits the offsets of its entries. -/
theorem natAbs_sub_le_tourLength (l : List (Int × Int8)) : ∀ {here k : Int} {v : Int8},
    (k, v) ∈ l → (k - here).natAbs ≤ tourLength here l := by
  induction l with
  | nil => exact fun hmem => absurd hmem List.not_mem_nil
  | cons e rest ih =>
      intro here k v hmem
      obtain ⟨k', v'⟩ := e
      rw [tourLength]
      rcases List.mem_cons.1 hmem with heq | hmem
      · cases heq
        omega
      · have hle : (k - k').natAbs ≤ tourLength k' rest := ih hmem
        omega

/-- The tour of a multiplication is no longer than the walk it stands for. -/
theorem tourLength_le_of_factors? {body : Program} {factors : Factors}
    (hadds : body.allOps Op.addsHere = true) (h : body.factors? = some factors) :
    tourLength 0 factors.entries ≤ body.travel := by
  obtain ⟨totals, htally, -, rfl⟩ := factors?_eq_some_iff.1 h
  have hvisited : ∀ e ∈ (totals.filter fun e => e.1 ≠ 0 && e.2 ≠ 0).entries,
      totals.get? e.1 ≠ none := by
    intro e he
    have hentry := (Factors.mem_entries_iff _ _ _).1 (List.mem_filter.1 he).1
    rw [hentry]
    exact Option.some_ne_none _
  have hascending := (totals.filter fun e => e.1 ≠ 0 && e.2 ≠ 0).ascending
  cases hentries : (totals.filter fun e => e.1 ≠ 0 && e.2 ≠ 0).entries with
  | nil => exact Nat.zero_le _
  | cons first rest =>
      rw [hentries] at hvisited hascending
      obtain ⟨k, v⟩ := first
      obtain ⟨hfirst, hrest⟩ := List.pairwise_cons.1 hascending
      obtain ⟨last, hmem, hle, heq⟩ := exists_tourLength_eq rest hfirst hrest
      have hlast : totals.get? last ≠ none := by
        rcases hmem with rfl | ⟨w, hw⟩
        · exact hvisited _ List.mem_cons_self
        · exact hvisited _ (List.mem_cons_of_mem _ hw)
      have hpair := travel_of_tally_pair hadds htally (Factors.get?_empty k)
        (hvisited _ List.mem_cons_self) (Factors.get?_empty last) hlast
      rw [tourLength, heq]
      omega

theorem Within.multiplyHere (h : p.Within bound) : p.multiplyHere.Within bound := by
  induction p generalizing bound with
  | done => exact h
  | op o rest ih => exact h.op fun _ => ih
  | loop body rest _ ih =>
      rw [Program.multiplyHere]
      split
      next factors hfactors =>
        obtain ⟨m, n, hm, hn, hle⟩ := within_loop_iff.1 h
        have htour := tourLength_le_of_factors? hm.addsHere hfactors
        have htravel := hm.travel_le
        exact within_op_iff.2 ⟨rfl, n, ih hn, by simp only [Op.travel]; omega⟩
      next => exact h.loop (fun _ => id) fun _ => ih

/-- No pass moves further than the program it is given. -/
theorem within_apply (pass : Pass) (h : p.Within bound) : (pass.apply p).Within bound := by
  cases pass with
  | merge => exact h.everywhere Within.fuse
  | clear => exact h.everywhere Within.clearHere
  | multiply => exact h.everywhere Within.multiplyHere
  | dead => exact h.everywhere fun hq => hq.sweepFrom 0
  | zero => exact h.dropZeroLoops .fresh

end Program

/-! ## Passes in range -/

/-- A word holds what lies within a bound that it holds. -/
theorem Word.fits_of_natAbs_le {n : Int} {bound : Nat} (hbound : (bound : Int) ≤ greatest)
    (h : n.natAbs ≤ bound) : fits n = true := by
  simp only [fits_iff, least, greatest] at hbound ⊢
  omega

namespace Program

section InRange

variable {bound : Nat} (hbound : (bound : Int) ≤ Word.greatest) {p : Program}

include hbound

/-- Merging forms no sum beyond the bound: none of the operations that have been kept moves further
than the bound leaves for the rest of the sequence. -/
theorem fuseFits_of_travel_le (p : Program) : ∀ {left : List Op}, p.travel ≤ bound →
    (∀ o ∈ left, o.travel + p.travel ≤ bound) → fuseFits left p = true := by
  induction p with
  | done => exact fun _ _ => rfl
  | loop body rest _ ih =>
      intro left hp _
      rw [travel] at hp
      exact ih (by omega) fun o ho => absurd ho List.not_mem_nil
  | op o rest ih =>
      intro left hp hleft
      rw [travel] at hp hleft
      rw [fuseFits, Bool.and_eq_true]
      constructor
      · simp only [joinFits]
        split
        next a left' b =>
          have hle := hleft (.shift a) List.mem_cons_self
          apply Word.fits_of_natAbs_le hbound
          simp only [Op.travel] at hle
          omega
        next => rfl
      · apply ih (by omega)
        intro o' ho'
        simp only [pushFused] at ho'
        split at ho'
        next last left' =>
          have hlast := hleft last List.mem_cons_self
          have hrest : ∀ o' ∈ left', o'.travel + rest.travel ≤ bound := by
            intro o' hmem
            have hle := hleft o' (List.mem_cons_of_mem _ hmem)
            omega
          split at ho'
          next joined hj =>
            have htravel := Op.travel_of_join? hj
            split at ho'
            · exact hrest o' ho'
            · rcases List.mem_cons.1 ho' with rfl | ho'
              · omega
              · exact hrest o' ho'
          next =>
            split at ho'
            · have hle := hleft o' ho'
              omega
            · rcases List.mem_cons.1 ho' with rfl | ho'
              · omega
              · have hle := hleft o' ho'
                omega
        next =>
          split at ho'
          · cases ho'
          · obtain rfl := List.mem_singleton.1 ho'
            omega

/-- A walk that starts at a position keeps within the bound that is left. -/
theorem tallyFits_of_travel_le (body : Program) : ∀ {here : Int},
    body.allOps Op.addsHere = true → here.natAbs + body.travel ≤ bound →
      tallyFits here body = true := by
  induction body with
  | done => exact fun _ _ => rfl
  | loop body rest _ _ => exact fun _ _ => rfl
  | op o rest ih =>
      intro here hadds hle
      rw [allOps_op] at hadds
      rw [travel] at hle
      cases o with
      | shift amount =>
          simp only [Op.travel] at hle
          rw [tallyFits, Bool.and_eq_true]
          exact ⟨Word.fits_of_natAbs_le hbound (by omega), ih hadds.2 (by omega)⟩
      | add amount offset =>
          obtain rfl : offset = 0 := by simpa [Op.addsHere] using hadds.1
          rw [tallyFits, Bool.and_eq_true]
          exact ⟨Word.fits_of_natAbs_le hbound (by omega), ih hadds.2 (by omega)⟩
      | input => rfl
      | output => rfl
      | setZero => rfl
      | multiply factors => rfl

theorem multiplyFits_of_within (h : p.Within bound) : multiplyFits p = true := by
  induction p with
  | done => rfl
  | op o rest ih => exact ih h.rest
  | loop body rest _ ih =>
      obtain ⟨m, n, hm, hn, hle⟩ := within_loop_iff.1 h
      have htravel := hm.travel_le
      rw [multiplyFits, Bool.and_eq_true]
      exact ⟨tallyFits_of_travel_le hbound body hm.addsHere (by simp; omega),
        ih (hn.mono (by omega))⟩

theorem sweepFits_of_travel_le (p : Program) : ∀ {here : Int},
    p.allOps Op.addsHere = true → here.natAbs + p.travel ≤ bound → sweepFits here p = true := by
  induction p with
  | done => exact fun _ _ => rfl
  | loop body rest _ ih =>
      intro here hadds hle
      rw [allOps_loop] at hadds
      rw [travel] at hle
      exact ih hadds.2 (by simp; omega)
  | op o rest ih =>
      intro here hadds hle
      rw [allOps_op] at hadds
      rw [travel] at hle
      cases o with
      | shift amount =>
          simp only [Op.travel] at hle
          rw [sweepFits, Bool.and_eq_true]
          exact ⟨Word.fits_of_natAbs_le hbound (by omega), ih hadds.2 (by omega)⟩
      | add amount offset =>
          obtain rfl : offset = 0 := by simpa [Op.addsHere] using hadds.1
          rw [sweepFits, Bool.and_eq_true]
          exact ⟨Word.fits_of_natAbs_le hbound (by omega), ih hadds.2 (by omega)⟩
      | multiply factors =>
          simp only [Op.travel] at hle
          rw [sweepFits, Bool.and_eq_true, List.all_eq_true]
          refine ⟨fun k hk => ?_, ih hadds.2 (by omega)⟩
          obtain ⟨e, he, rfl⟩ := List.mem_map.1 hk
          have hoffset : (e.1 - 0).natAbs ≤ tourLength 0 factors.entries :=
            natAbs_sub_le_tourLength factors.entries he
          exact Word.fits_of_natAbs_le hbound (by omega)
      | input => exact ih hadds.2 (by simp; omega)
      | output => exact ih hadds.2 (by omega)
      | setZero => exact ih hadds.2 (by omega)

/-- A pass stays in the word on a program whose travel fits in it. -/
theorem inRange_of_within (pass : Pass) (h : p.Within bound) : pass.inRange p = true := by
  cases pass with
  | merge =>
      apply List.all_eq_true.2
      intro q hq
      have hwithin := h.of_mem_visited Within.fuse q hq
      exact fuseFits_of_travel_le hbound q hwithin.travel_le fun o ho => absurd ho List.not_mem_nil
  | clear => rfl
  | multiply =>
      apply List.all_eq_true.2
      intro q hq
      exact multiplyFits_of_within hbound (h.of_mem_visited Within.multiplyHere q hq)
  | dead =>
      apply List.all_eq_true.2
      intro q hq
      have hwithin := h.of_mem_visited (fun hq => hq.sweepFrom 0) q hq
      have hle := hwithin.travel_le
      exact sweepFits_of_travel_le hbound q hwithin.addsHere (by simpa using hle)
  | zero => rfl

theorem exists_run (pass : Pass) (h : p.Within bound) :
    ∃ log, pass.run p = .ok (pass.apply p, log) := by
  rw [Pass.run, if_pos (inRange_of_within hbound pass h)]
  exact ⟨_, rfl⟩

/-- Passes one after the other return what they make of the program. -/
theorem exists_runPasses (passes : List Pass) : ∀ {p : Program}, p.Within bound →
    ∃ log, runPasses passes p = .ok (passes.foldl (fun q pass => pass.apply q) p, log) ∧
      (passes.foldl (fun q pass => pass.apply q) p).Within bound := by
  induction passes with
  | nil => exact fun h => ⟨[], rfl, h⟩
  | cons pass passes ih =>
      intro p h
      obtain ⟨log, hrun⟩ := exists_run hbound pass h
      obtain ⟨log', hrest, hwithin⟩ := ih (within_apply pass h)
      exact ⟨log ++ log', runPasses_cons_eq_ok_iff.2 ⟨_, _, _, hrun, hrest, rfl⟩, hwithin⟩

/-- A round with all passes. -/
theorem exists_round_all (h : p.Within bound) :
    ∃ log, PassSet.all.round p =
      .ok (p.mergeRuns.clearLoops.multiplyLoops.removeDeadStores.removeZeroLoops, log) := by
  have hpasses : PassSet.all.passes = [.merge, .clear, .multiply, .dead, .zero] := rfl
  obtain ⟨log, hround, -⟩ := exists_runPasses hbound PassSet.all.passes h
  simp only [hpasses, List.foldl_cons, List.foldl_nil, Pass.apply] at hround
  rw [PassSet.round, hpasses]
  exact ⟨log, hround⟩

theorem exists_settle (F : PassSet) (more : Nat) : ∀ {number : Nat} {p : Program},
    p.Within bound → ∃ q log, F.settle more number p = .ok (q, log) ∧ q.Within bound := by
  induction more with
  | zero =>
      intro number p h
      obtain ⟨log, hround, hwithin⟩ := exists_runPasses hbound F.passes h
      exact ⟨_, _, PassSet.settle_zero_eq_ok_iff.2 ⟨log, hround, rfl⟩, hwithin⟩
  | succ more ih =>
      intro number p h
      obtain ⟨log, hround, hwithin⟩ := exists_runPasses hbound F.passes h
      by_cases heq : F.passes.foldl (fun q pass => pass.apply q) p = p
      · exact ⟨p, _, PassSet.settle_succ_eq_ok_iff.2
          ⟨_, log, hround, Or.inl ⟨heq, rfl, rfl⟩⟩, h⟩
      · obtain ⟨q, log', hrest, hq⟩ := ih hwithin
        exact ⟨q, _, PassSet.settle_succ_eq_ok_iff.2
          ⟨_, log, hround, Or.inr ⟨heq, log', hrest, rfl⟩⟩, hq⟩

/-- The optimiser returns a program, and one that moves no further. -/
theorem exists_optimize (F : PassSet) (h : p.Within bound) :
    ∃ q log, F.optimize p = .ok (q, log) ∧ q.Within bound := by
  rw [PassSet.optimize]
  split
  · exact ⟨p, _, rfl, h⟩
  · exact exists_settle hbound F _ h

end InRange

end Program

end TapeLang
