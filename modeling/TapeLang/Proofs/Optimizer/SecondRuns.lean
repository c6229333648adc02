import TapeLang.Proofs.Optimizer.NormalForm
import TapeLang.Proofs.Optimizer.Recognition
import TapeLang.Proofs.Optimizer.StoreRemoval

/-!
# A second run of a pass

What a pass returns leaves nothing to do for the same pass: run again it returns the program as it
is, and reports nothing (`second_run_finds_nothing`).

Three of the passes rewrite single sequences, those of the bodies first. Such a pass could find new
work one level up, where a body has changed. It does not, for two reasons (`Stable`): the rewriting
of a sequence leaves its own results as they are, and it keeps loops or takes them away, but never
makes one or looks into one. So the loops of the result have bodies that have been finished before
(`Stable.loop_of_mem`).
-/

set_option autoImplicit false

namespace TapeLang

namespace Program

/-! ## The traversal -/

/-- A rewriting of single sequences that brings in no loop and leaves its own results as they
are. -/
structure Stable (f : Program → Program) : Prop where
  loops : ∀ {p body : Program}, .loop body ∈ (f p).nodes → .loop body ∈ p.nodes
  again : ∀ p, f (f p) = f p

theorem mapBodies_eq_self {f : Program → Program} {p : Program}
    (h : ∀ body, .loop body ∈ p.nodes → body.everywhere f = body) : p.mapBodies f = p := by
  induction p with
  | done => rfl
  | op o rest ih =>
      have hrest : rest.mapBodies f = rest := by
        apply ih
        exact fun body hmem => h body (List.mem_cons_of_mem _ hmem)
      rw [mapBodies_op, hrest]
  | loop inner rest _ ih =>
      have hinner : f (inner.mapBodies f) = inner := h inner List.mem_cons_self
      have hrest : rest.mapBodies f = rest := by
        apply ih
        exact fun body hmem => h body (List.mem_cons_of_mem _ hmem)
      rw [mapBodies_loop, hinner, hrest]

/-- The sequences visited inside the loops are those visited in the body of each loop. -/
theorem mem_visitedBodies_iff {f : Program → Program} {p s : Program} :
    s ∈ p.visitedBodies f ↔ ∃ body, .loop body ∈ p.nodes ∧ s ∈ body.visited f := by
  induction p with
  | done => simp [nodes]
  | op o rest ih => simp [nodes, ih]
  | loop inner rest _ ih =>
      have hsplit : (loop inner rest).visitedBodies f =
          inner.visited f ++ rest.visitedBodies f := by
        rw [visitedBodies_loop, visited_eq, List.append_assoc]
        rfl
      rw [hsplit, List.mem_append, ih]
      simp [nodes, or_and_right, exists_or]

namespace Stable

variable {f : Program → Program} (h : Stable f)

include h

/-- A loop of the result is a loop of the program, with its body treated in the same way. -/
theorem loop_of_mem {p body : Program} (hmem : .loop body ∈ (p.everywhere f).nodes) :
    ∃ inner, .loop inner ∈ p.nodes ∧ body = inner.everywhere f := by
  have hbodies : .loop body ∈ (p.mapBodies f).nodes := h.loops hmem
  rw [nodes_mapBodies, List.mem_map] at hbodies
  obtain ⟨n, hn, heq⟩ := hbodies
  cases n with
  | op o => cases heq
  | loop inner =>
      cases heq
      exact ⟨inner, hn, rfl⟩

/-- The bodies of the result stay as they are. The induction is on the depth of the loops: what is
assumed of each body is what is to be shown of the program. -/
theorem mapBodies_everywhere (p : Program) :
    (p.everywhere f).mapBodies f = p.everywhere f := by
  induction p using bodies_induction with
  | step p ih =>
      apply mapBodies_eq_self
      intro body hmem
      obtain ⟨inner, hinner, rfl⟩ := h.loop_of_mem hmem
      rw [everywhere, ih inner hinner]
      exact h.again _

theorem everywhere_everywhere (p : Program) :
    (p.everywhere f).everywhere f = p.everywhere f := by
  rw [everywhere, h.mapBodies_everywhere]
  exact h.again _

/-- What a second traversal visits has been rewritten by the first. -/
theorem of_mem_visited (p : Program) :
    ∀ s ∈ (p.everywhere f).visited f, ∃ r ∈ p.visited f, s = f r := by
  induction p using bodies_induction with
  | step p ih =>
      intro s hs
      rw [visited_eq, List.mem_append, List.mem_singleton] at hs
      simp only [visited_eq, List.mem_append, List.mem_singleton]
      rcases hs with hs | rfl
      · obtain ⟨body, hmem, hs⟩ := mem_visitedBodies_iff.1 hs
        obtain ⟨inner, hinner, rfl⟩ := h.loop_of_mem hmem
        obtain ⟨r, hr, rfl⟩ := ih inner hinner s hs
        exact ⟨r, Or.inl (mem_visitedBodies_iff.2 ⟨inner, hinner, hr⟩), rfl⟩
      · exact ⟨p.mapBodies f, Or.inr rfl, h.mapBodies_everywhere p⟩

/-- A test of sequences that the rewriting keeps is passed by all of them again. -/
theorem all_visited {test : Program → Bool} (htest : ∀ r, test r = true → test (f r) = true)
    {p : Program} (hp : (p.visited f).all test = true) :
    ((p.everywhere f).visited f).all test = true := by
  rw [List.all_eq_true] at hp ⊢
  intro s hs
  obtain ⟨r, hr, rfl⟩ := h.of_mem_visited p s hs
  exact htest r (hp r hr)

/-- If nothing is reported about rewritten sequences, a second traversal reports nothing. -/
theorem flatMap_visited {report : Program → List Event} (hreport : ∀ r, report (f r) = [])
    (p : Program) : ((p.everywhere f).visited f).flatMap report = [] := by
  rw [List.flatMap_eq_nil_iff]
  intro s hs
  obtain ⟨r, -, rfl⟩ := h.of_mem_visited p s hs
  exact hreport r

end Stable

/-! ## Recognised loops -/

section RecogniseHere

variable (recognise : Program → Option Op)

/-- The loops that are left are those that are not recognised. -/
theorem loop_mem_recogniseHere_iff {p body : Program} :
    .loop body ∈ (p.recogniseHere recognise).nodes ↔
      .loop body ∈ p.nodes ∧ recognise body = none := by
  induction p with
  | done => simp [recogniseHere, nodes]
  | op o rest ih => simp [recogniseHere, nodes, ih]
  | loop inner rest _ ih =>
      rw [recogniseHere]
      cases hinner : recognise inner with
      | some o =>
          simp only [nodes, List.mem_cons, reduceCtorEq, false_or, ih, Node.loop.injEq]
          -- the loop itself is gone, and its body is not one of those that are left
          constructor
          · rintro ⟨hmem, hnone⟩
            exact ⟨Or.inr hmem, hnone⟩
          · rintro ⟨rfl | hmem, hnone⟩
            · rw [hinner] at hnone
              cases hnone
            · exact ⟨hmem, hnone⟩
      | none =>
          simp only [nodes, List.mem_cons, ih, Node.loop.injEq]
          constructor
          · rintro (rfl | ⟨hmem, hnone⟩)
            · exact ⟨Or.inl rfl, hinner⟩
            · exact ⟨Or.inr hmem, hnone⟩
          · rintro ⟨rfl | hmem, hnone⟩
            · exact Or.inl rfl
            · exact Or.inr ⟨hmem, hnone⟩

theorem recogniseHere_eq_self {p : Program}
    (h : ∀ body, .loop body ∈ p.nodes → recognise body = none) :
    p.recogniseHere recognise = p := by
  induction p with
  | done => rfl
  | op o rest ih =>
      rw [recogniseHere, ih]
      exact fun body hmem => h body (List.mem_cons_of_mem _ hmem)
  | loop inner rest _ ih =>
      rw [recogniseHere, h inner List.mem_cons_self, ih]
      exact fun body hmem => h body (List.mem_cons_of_mem _ hmem)

theorem stable_recogniseHere : Stable (recogniseHere recognise) where
  loops hmem := ((loop_mem_recogniseHere_iff recognise).1 hmem).1
  again p := by
    apply recogniseHere_eq_self
    intro body hmem
    exact ((loop_mem_recogniseHere_iff recognise).1 hmem).2

end RecogniseHere

/-- Every clear loop of a sequence is recognised. -/
theorem clearCount_clearHere (p : Program) : p.clearHere.clearCount = 0 := by
  induction p with
  | done => rfl
  | op o rest ih => exact ih
  | loop body rest _ ih =>
      rw [clearHere]
      split
      next => exact ih
      next hclear =>
        rw [clearCount, if_neg hclear]
        exact ih

theorem multiplyTargets_multiplyHere (p : Program) : p.multiplyHere.multiplyTargets = [] := by
  induction p with
  | done => rfl
  | op o rest ih => exact ih
  | loop body rest _ ih =>
      rw [multiplyHere]
      split
      next => exact ih
      next hfactors =>
        simp only [multiplyTargets, hfactors]
        exact ih

/-- The positions that are formed for the loops of a sequence are formed for each on its own. -/
theorem multiplyFits_iff (p : Program) :
    p.multiplyFits = true ↔ ∀ body, .loop body ∈ p.nodes → body.tallyFits 0 = true := by
  induction p with
  | done => simp [multiplyFits, nodes]
  | op o rest ih => simp [multiplyFits, nodes, ih]
  | loop body rest _ ih => simp [multiplyFits, nodes, ih]

theorem multiplyFits_multiplyHere {p : Program} (h : p.multiplyFits = true) :
    p.multiplyHere.multiplyFits = true := by
  rw [multiplyFits_iff] at h ⊢
  intro body hmem
  rw [multiplyHere_eq, loop_mem_recogniseHere_iff] at hmem
  exact h body hmem.1

/-! ## Dead stores -/

/-- A sweep leaves no dead store: a second one leaves the same sequence, carries the same set and
counts nothing. -/
theorem sweepFrom_sweepFrom (p : Program) : ∀ here : Int,
    (p.sweepFrom here).program.sweepFrom here = { p.sweepFrom here with dead := 0 } := by
  induction p with
  | done => exact fun _ => rfl
  | loop body rest _ ih =>
      intro here
      simp only [sweepFrom, ih]
  | op o rest ih =>
      intro here
      cases o with
      | add amount offset =>
          simp only [sweepFrom]
          split
          next => exact ih here
          next hkept => simp only [sweepFrom, ih, if_neg hkept]
      | setZero =>
          simp only [sweepFrom]
          split
          next => exact ih here
          next hkept => simp only [sweepFrom, ih, if_neg hkept]
      | _ => simp only [sweepFrom, ih]

theorem mem_of_mem_kept {n : Node} {l : List Placed} (h : n ∈ kept l) : ∃ a ∈ l, a.node = n := by
  rw [kept, List.mem_filterMap] at h
  obtain ⟨i, -, hi⟩ := h
  obtain ⟨a, ha, rfl⟩ := Option.map_eq_some_iff.1 hi
  exact ⟨a, List.mem_of_getElem? ha, rfl⟩

theorem node_mem_of_mem_placed {a : Placed} {l : List Node} : ∀ {here : Int},
    a ∈ placed here l → a.node ∈ l := by
  induction l with
  | nil =>
      intro here h
      cases h
  | cons n ns ih =>
      intro here h
      rcases List.mem_cons.1 h with rfl | h
      · exact List.mem_cons_self
      · exact List.mem_cons_of_mem _ (ih h)

theorem stable_sweep : Stable sweep where
  loops hmem := by
    rw [sweep, nodes_sweepFrom] at hmem
    obtain ⟨a, ha, heq⟩ := mem_of_mem_kept hmem
    rw [← heq]
    exact node_mem_of_mem_placed ha
  again p := by
    rw [sweep, sweep, sweepFrom_sweepFrom]

theorem deadStoreCount_sweep (p : Program) : p.sweep.deadStoreCount = 0 := by
  rw [deadStoreCount, sweep, sweepFrom_sweepFrom]

/-- The positions of a sequence without its dead stores are positions of the sequence. -/
theorem sweepFits_sweepFrom (p : Program) : ∀ {here : Int}, p.sweepFits here = true →
    (p.sweepFrom here).program.sweepFits here = true := by
  induction p with
  | done => exact fun _ => rfl
  | loop body rest _ ih => exact fun h => ih h
  | op o rest ih =>
      intro here h
      cases o with
      | input => exact ih h
      | output => exact ih h
      | shift amount =>
          simp only [sweepFits, Bool.and_eq_true] at h
          simp only [sweepFrom, sweepFits, Bool.and_eq_true]
          exact ⟨h.1, ih h.2⟩
      | multiply factors =>
          simp only [sweepFits, Bool.and_eq_true] at h
          simp only [sweepFrom, sweepFits, Bool.and_eq_true]
          exact ⟨h.1, ih h.2⟩
      | add amount offset =>
          simp only [sweepFits, Bool.and_eq_true] at h
          simp only [sweepFrom]
          split
          next => exact ih h.2
          next =>
            rw [sweepFits, Bool.and_eq_true]
            exact ⟨h.1, ih h.2⟩
      | setZero =>
          simp only [sweepFrom]
          split
          next => exact ih h
          next => exact ih h

/-! ## Loops on a zero cell -/

/-- What is known at each place of the program that is left is what was known there before, so
nothing that is kept is dropped the second time. -/
theorem dropZeroLoops_dropZeroLoops (p : Program) : ∀ k : Known,
    (p.dropZeroLoops k).dropZeroLoops k = p.dropZeroLoops k := by
  induction p with
  | done => exact fun _ => rfl
  | op o rest ih =>
      intro k
      rw [dropZeroLoops]
      split
      next => exact ih k
      next hkept => rw [dropZeroLoops, if_neg hkept, ih]
  | loop body rest ihbody ihrest =>
      intro k
      rw [dropZeroLoops]
      split
      next => exact ihrest k
      next hkept => rw [dropZeroLoops, if_neg hkept, ihbody, ihrest]

theorem zeroLoopCount_dropZeroLoops (p : Program) : ∀ k : Known,
    (p.dropZeroLoops k).zeroLoopCount k = 0 := by
  induction p with
  | done => exact fun _ => rfl
  | op o rest ih =>
      intro k
      rw [dropZeroLoops]
      split
      next => exact ih k
      next hkept => rw [zeroLoopCount, if_neg hkept, ih]
  | loop body rest ihbody ihrest =>
      intro k
      rw [dropZeroLoops]
      split
      next => exact ihrest k
      next hkept => rw [zeroLoopCount, if_neg hkept, ihbody, ihrest]

end Program

/-! ## The passes -/

namespace Pass

open Program

/-- The pass stays in the word on a program, leaves it as it is and finds nothing in it. -/
structure Finished (pass : Pass) (p : Program) : Prop where
  inRange_eq : pass.inRange p = true
  apply_eq : pass.apply p = p
  findings_eq : pass.findings p = []

theorem inRange_of_run {pass : Pass} {p q : Program} {log : List Event}
    (h : pass.run p = .ok (q, log)) : pass.inRange p = true := by
  rw [run] at h
  split at h
  next hrange => exact hrange
  next => cases h

theorem Finished.run_eq {pass : Pass} {p : Program} (h : pass.Finished p) :
    pass.run p = .ok (p, [.ran pass p.nodeCount p.nodeCount]) := by
  rw [run, if_pos h.inRange_eq]
  simp only [h.apply_eq, h.findings_eq, List.nil_append]

/-- A pass is finished with what it has made of a program, if its sums fit in the word there. -/
theorem finished_apply {pass : Pass} {p : Program} (h : pass.inRange p = true) :
    pass.Finished (pass.apply p) := by
  have hclear : Stable clearHere := clearHere_eq ▸ stable_recogniseHere clear?
  have hmultiply : Stable multiplyHere := multiplyHere_eq ▸ stable_recogniseHere transfer?
  cases pass with
  | merge =>
      have hmerged := merged_mergeRuns p
      exact ⟨mergeRunsFits_of_merged hmerged, (mergeRuns_eq_iff _).2 hmerged, rfl⟩
  | clear =>
      refine ⟨rfl, hclear.everywhere_everywhere p, ?_⟩
      apply hclear.flatMap_visited
      intro r
      rw [clearCount_clearHere]
      rfl
  | multiply =>
      refine ⟨?_, hmultiply.everywhere_everywhere p, ?_⟩
      · have hfits : (p.visited multiplyHere).all multiplyFits = true := h
        refine hmultiply.all_visited ?_ hfits
        exact fun r => multiplyFits_multiplyHere
      · apply hmultiply.flatMap_visited
        intro r
        rw [multiplyTargets_multiplyHere]
        rfl
  | dead =>
      refine ⟨?_, stable_sweep.everywhere_everywhere p, ?_⟩
      · have hfits : (p.visited sweep).all (sweepFits 0) = true := h
        refine stable_sweep.all_visited ?_ hfits
        exact fun r => sweepFits_sweepFrom r
      · apply stable_sweep.flatMap_visited
        intro r
        rw [if_pos (deadStoreCount_sweep r)]
  | zero =>
      refine ⟨rfl, dropZeroLoops_dropZeroLoops p .fresh, ?_⟩
      show List.replicate ((p.dropZeroLoops .fresh).zeroLoopCount .fresh) Event.zeroLoop = []
      rw [zeroLoopCount_dropZeroLoops]
      rfl

/-- A pass that has returned a program returns the same program again when it is run on it, without
leaving the word, and reports only that it has run. -/
theorem second_run_finds_nothing {pass : Pass} {p q : Program} {log : List Event}
    (h : pass.run p = .ok (q, log)) :
    pass.run q = .ok (q, [.ran pass q.nodeCount q.nodeCount]) := by
  rw [eq_apply_of_run h]
  exact (finished_apply (inRange_of_run h)).run_eq

/-- Work for every pass inside a loop: two dead additions to one cell, a clear loop on a cell that has
just been zeroed, and a multiply loop. -/
def untidy : Program :=
  .op (.add 1 0) (.loop (.op (.add 1 2) (.op (.add 1 2) (.op (.shift 2) (.op .setZero
    (.loop (.op (.add (-1) 0) .done) (.op (.shift (-1))
      (.loop (.op (.add (-1) 0) (.op (.add 3 1) .done))
        (.op (.shift (-1)) (.op .input .done))))))))) .done)

/-- Each of these passes changes the program, and none of them does so twice. -/
theorem second_run_finds_nothing_untidy :
    (∃ q log, clear.run untidy = .ok (q, log) ∧ q ≠ untidy ∧
      clear.run q = .ok (q, [.ran .clear q.nodeCount q.nodeCount])) ∧
    (∃ q log, multiply.run untidy = .ok (q, log) ∧ q ≠ untidy ∧
      multiply.run q = .ok (q, [.ran .multiply q.nodeCount q.nodeCount])) ∧
    (∃ q log, dead.run untidy = .ok (q, log) ∧ q ≠ untidy ∧
      dead.run q = .ok (q, [.ran .dead q.nodeCount q.nodeCount])) ∧
    ∃ q log, zero.run untidy = .ok (q, log) ∧ q ≠ untidy ∧
      zero.run q = .ok (q, [.ran .zero q.nodeCount q.nodeCount]) := by
  have hclear : clear.run untidy = .ok (clear.apply untidy, _) := rfl
  have hmultiply : multiply.run untidy = .ok (multiply.apply untidy, _) := rfl
  have hdead : dead.run untidy = .ok (dead.apply untidy, _) := rfl
  have hzero : zero.run untidy = .ok (zero.apply untidy, _) := rfl
  exact ⟨⟨_, _, hclear, by decide, second_run_finds_nothing hclear⟩,
    ⟨_, _, hmultiply, by decide, second_run_finds_nothing hmultiply⟩,
    ⟨_, _, hdead, by decide, second_run_finds_nothing hdead⟩,
    ⟨_, _, hzero, by decide, second_run_finds_nothing hzero⟩⟩

end Pass

end TapeLang
