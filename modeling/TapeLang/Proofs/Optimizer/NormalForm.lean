import TapeLang.Proofs.Nodes
import TapeLang.Proofs.Optimizer.LeftToRight

/-!
# The normal form of merging

A program is normal if, at every depth, no shift and no addition is by nothing, no two shifts are
adjacent, and no two additions at one offset are adjacent. The merging pass computes the normal form
of a program: the only normal program that joins lead to, in whatever order they are made. It leaves
normal programs as they are, and a program may be cut in two and its parts merged before the whole
(`merge_unique_normal_form`).
-/

set_option autoImplicit false

namespace TapeLang

open Relation (ReflTransGen)

namespace Program

/-! ## Normal programs -/

/-- No node is a shift or an addition by nothing, no two neighbours are shifts, and no two are
additions at one offset. -/
structure Reduced (l : List Node) : Prop where
  shift_zero : .op (.shift 0) ∉ l
  add_zero : ∀ offset, .op (.add 0 offset) ∉ l
  shifts : ∀ a b, ¬ [.op (.shift a), .op (.shift b)] <:+: l
  adds : ∀ a b offset, ¬ [.op (.add a offset), .op (.add b offset)] <:+: l

/-- The program itself and the bodies of its loops, at every depth, are reduced. -/
def Normal (p : Program) : Prop := ∀ s ∈ p :: p.bodies, Reduced s.nodes

theorem Reduced.of_cons {x : Node} {l : List Node} (h : Reduced (x :: l)) : Reduced l where
  shift_zero hmem := h.shift_zero (List.mem_cons_of_mem x hmem)
  add_zero offset hmem := h.add_zero offset (List.mem_cons_of_mem x hmem)
  shifts a b hpair := h.shifts a b (List.infix_cons hpair)
  adds a b offset hpair := h.adds a b offset (List.infix_cons hpair)

theorem eq_op_of_prefix_nodes {o : Op} {p : Program} (h : [.op o] <+: p.nodes) :
    ∃ rest, p = op o rest := by
  cases p with
  | done => simp [nodes] at h
  | loop body rest => simp [nodes] at h
  | op first rest =>
      obtain rfl : o = first := by simpa [nodes] using h
      exact ⟨rest, rfl⟩

theorem reduced_op_iff (o : Op) (rest : Program) :
    Reduced (op o rest).nodes ↔
      o.isNoOp = false ∧ rest.joins o = false ∧ Reduced rest.nodes := by
  rw [nodes]
  constructor
  · intro h
    refine ⟨?_, ?_, h.of_cons⟩
    · rw [Bool.eq_false_iff]
      intro hnoOp
      obtain rfl | ⟨offset, rfl⟩ := Op.isNoOp_iff.1 hnoOp
      · exact h.shift_zero List.mem_cons_self
      · exact h.add_zero offset List.mem_cons_self
    · obtain ⟨first, rest, joined, rfl, hj⟩ | hjoins := joins_cases o rest
      · exfalso
        obtain ⟨a, b, rfl, rfl, -⟩ | ⟨a, b, i, rfl, rfl, -⟩ := Op.join?_eq_some hj
        · exact h.shifts a b ⟨[], rest.nodes, rfl⟩
        · exact h.adds a b i ⟨[], rest.nodes, rfl⟩
      · exact hjoins
  · rintro ⟨hnoOp, hjoins, h⟩
    -- a node or a pair that is ruled out starts with the operation, or it lies in what follows
    refine ⟨?_, ?_, ?_, ?_⟩
    · intro hmem
      obtain heq | hmem := List.mem_cons.1 hmem
      · cases heq
        cases hnoOp
      · exact h.shift_zero hmem
    · intro offset hmem
      obtain heq | hmem := List.mem_cons.1 hmem
      · cases heq
        cases hnoOp
      · exact h.add_zero offset hmem
    · intro a b hpair
      obtain hpair | hpair := List.infix_cons_iff.1 hpair
      · obtain ⟨heq, hnext⟩ := List.cons_prefix_cons.1 hpair
        obtain ⟨after, rfl⟩ := eq_op_of_prefix_nodes hnext
        cases heq
        cases hjoins
      · exact h.shifts a b hpair
    · intro a b offset hpair
      obtain hpair | hpair := List.infix_cons_iff.1 hpair
      · obtain ⟨heq, hnext⟩ := List.cons_prefix_cons.1 hpair
        obtain ⟨after, rfl⟩ := eq_op_of_prefix_nodes hnext
        cases heq
        simp [joins, Op.join?] at hjoins
      · exact h.adds a b offset hpair

theorem reduced_loop_iff (body rest : Program) :
    Reduced (loop body rest).nodes ↔ Reduced rest.nodes := by
  rw [nodes]
  constructor
  · exact Reduced.of_cons
  · intro h
    refine ⟨?_, ?_, ?_, ?_⟩
    · simpa using h.shift_zero
    · simpa using h.add_zero
    · simpa [List.infix_cons_iff] using h.shifts
    · simpa [List.infix_cons_iff] using h.adds

/-- The normal programs are the merged ones. -/
theorem normal_iff (p : Program) : p.Normal ↔ p.Merged := by
  induction p with
  | done =>
      refine ⟨fun _ => trivial, fun _ s hs => ?_⟩
      obtain rfl := List.mem_singleton.1 hs
      constructor <;> simp [nodes]
  | op o rest ih =>
      rw [Merged, ← ih]
      simp only [Normal, bodies, List.forall_mem_cons, reduced_op_iff, and_assoc]
  | loop body rest ihbody ihrest =>
      rw [Merged, ← ihbody, ← ihrest]
      simp only [Normal, bodies, List.cons_append, List.forall_mem_cons, List.forall_mem_append,
        reduced_loop_iff]
      constructor
      · rintro ⟨hrest, hbody, hinner, hafter⟩
        exact ⟨⟨hbody, hinner⟩, hrest, hafter⟩
      · rintro ⟨⟨hbody, hinner⟩, hrest, hafter⟩
        exact ⟨hrest, hbody, hinner, hafter⟩

/-! ## The pass -/

/-- The merging pass returns the program `q` for the program `p`. -/
def Merges (p q : Program) : Prop := ∃ log, Pass.merge.run p = .ok (q, log)

theorem merges_iff {p q : Program} : Merges p q ↔ p.mergeRunsFits = true ∧ q = p.mergeRuns := by
  constructor
  · rintro ⟨log, h⟩
    refine ⟨?_, Pass.eq_apply_of_run h⟩
    rw [Pass.run] at h
    split at h
    next hfits => exact hfits
    next => cases h
  · rintro ⟨hfits, rfl⟩
    exact ⟨_, if_pos hfits⟩

theorem mergeRunsFits_of_merged {p : Program} (h : p.Merged) : p.mergeRunsFits = true := by
  rw [mergeRunsFits_eq]
  exact scanFits_of_merged [] h

theorem mergeRunsFits_of_append {p q : Program} (h : (p ++ q).mergeRunsFits = true) :
    p.mergeRunsFits = true := by
  rw [mergeRunsFits_eq] at h ⊢
  exact scanFits_of_append h

/-- Merging the parts of a program first leaves sums that fit if those of the whole do. -/
theorem mergeRunsFits_append_mergeRuns {p q : Program} (hp : p.allOps Op.shiftFits = true)
    (hq : q.allOps Op.shiftFits = true) (h : (p ++ q).mergeRunsFits = true) :
    (p.mergeRuns ++ q.mergeRuns).mergeRunsFits = true := by
  rw [mergeRunsFits_eq] at h ⊢
  apply scanFits_append (merged_mergeRuns q) [] (merged_mergeRuns p)
  -- the sums of the whole say nothing about a shift that none of them contains, so the shifts of the
  -- program have to fit as well
  have hfits := shiftFits_mergeRuns [] trivial (fun o ho => absurd ho List.not_mem_nil)
    (allOps_append.2 ⟨hp, hq⟩) h
  rw [unstack, mergeRuns_append] at hfits
  exact hfits

/-- Merging computes a unique normal form. For a program none of whose sums leaves the word, the pass
returns a normal program that comes from it by joins, and no other normal program does. A normal
program is returned as it is. A program may be cut in two, if its shifts and the sums of the whole
and of the second part fit in the word: the pass then returns a program for each part and for the
two results in a row, and the last is the one it returns for the whole. -/
theorem merge_unique_normal_form :
    (∀ p : Program, p.mergeRunsFits = true →
      ∃ q, Merges p q ∧ q.Normal ∧ ReflTransGen Joining p q ∧
        ∀ r, ReflTransGen Joining p r → r.Normal → r = q) ∧
    (∀ p : Program, p.Normal → Merges p p) ∧
    ∀ p q : Program, p.allOps Op.shiftFits = true → q.allOps Op.shiftFits = true →
      (p ++ q).mergeRunsFits = true → q.mergeRunsFits = true →
        ∃ p' q' r, Merges p p' ∧ Merges q q' ∧ Merges (p ++ q) r ∧ Merges (p' ++ q') r := by
  refine ⟨?_, ?_, ?_⟩
  · intro p hp
    refine ⟨p.mergeRuns, merges_iff.2 ⟨hp, rfl⟩, (normal_iff _).2 (merged_mergeRuns p),
      reaches_mergeRuns p, ?_⟩
    intro r hreaches hr
    exact eq_mergeRuns_of_reaches hreaches ((normal_iff r).1 hr)
  · intro p hp
    rw [normal_iff] at hp
    apply merges_iff.2
    exact ⟨mergeRunsFits_of_merged hp, ((mergeRuns_eq_iff p).2 hp).symm⟩
  · intro p q hp hq hwhole hsecond
    refine ⟨p.mergeRuns, q.mergeRuns, (p ++ q).mergeRuns, ?_, ?_, ?_, ?_⟩
    · exact merges_iff.2 ⟨mergeRunsFits_of_append hwhole, rfl⟩
    · exact merges_iff.2 ⟨hsecond, rfl⟩
    · exact merges_iff.2 ⟨hwhole, rfl⟩
    · apply merges_iff.2
      exact ⟨mergeRunsFits_append_mergeRuns hp hq hwhole, mergeRuns_append p q⟩

/-- A walk to the right with an addition at its end. -/
def outward : Program := op (.shift 1) (op (.shift 2) (op (.add 1 4) done))

/-- Takes the addition back and walks to the left. -/
def homeward : Program := op (.add (-3) 4) (op (.add 2 4) (op (.shift (-5)) (op .output done)))

/-- The additions cancel where the two walks meet, and so the shifts meet. -/
theorem merge_unique_normal_form_cut :
    (op (.shift (-2)) (op .output done)).Normal ∧
      ∃ p q, Merges outward p ∧ Merges homeward q ∧
        Merges (p ++ q) (op (.shift (-2)) (op .output done)) := by
  obtain ⟨hnormal, -, hcut⟩ := merge_unique_normal_form
  obtain ⟨r, hr, hrnormal, -⟩ := hnormal (outward ++ homeward) (by decide)
  obtain ⟨p, q, r', hp, hq, hr', hpq⟩ :=
    hcut outward homeward (by decide) (by decide) (by decide) (by decide)
  obtain ⟨-, rfl⟩ := merges_iff.1 hr
  obtain ⟨-, rfl⟩ := merges_iff.1 hr'
  exact ⟨hrnormal, p, q, hp, hq, hpq⟩

end Program

end TapeLang
