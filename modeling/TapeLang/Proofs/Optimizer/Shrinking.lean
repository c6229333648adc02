import TapeLang.Proofs.Optimizer.Rounds

/-!
# Every change shrinks the program

A pass returns the program it is given or one with fewer nodes (`shrunk_apply`). The relation
`Shrunk` that says so is a partial order, and the rest follows from its laws. Passes cannot undo
each other's work, so a round that changes nothing consists of passes that change nothing
(`run_of_runPasses`). Rounds that change something cannot go on for longer than there are nodes
(`Changes.add_nodeCount_le`), so they reach a program that a round leaves as it is
(`exists_changes`). The optimiser returns such a program unless it stops at its limit
(`changes_of_optimize`).
-/

set_option autoImplicit false

namespace TapeLang

namespace Program

/-- The program `q` is the program `p` or has fewer nodes. -/
def Shrunk (p q : Program) : Prop := q = p ∨ q.nodeCount < p.nodeCount

namespace Shrunk

variable {p q r : Program}

theorem refl (p : Program) : Shrunk p p := Or.inl rfl

theorem of_lt (h : q.nodeCount < p.nodeCount) : Shrunk p q := Or.inr h

theorem nodeCount_le (h : Shrunk p q) : q.nodeCount ≤ p.nodeCount := by
  rcases h with rfl | h
  · exact Nat.le_refl _
  · exact Nat.le_of_lt h

theorem trans (h : Shrunk p q) (h' : Shrunk q r) : Shrunk p r := by
  rcases h with rfl | h
  · exact h'
  · exact of_lt (Nat.lt_of_le_of_lt h'.nodeCount_le h)

/-- What has shrunk into each other is the same. -/
theorem antisymm (h : Shrunk p q) (h' : Shrunk q p) : q = p := by
  rcases h with rfl | h
  · rfl
  · exact absurd h (Nat.not_lt.2 h'.nodeCount_le)

theorem op (o : Op) (h : Shrunk p q) : Shrunk (.op o p) (.op o q) := by
  rcases h with rfl | h
  · exact refl _
  · apply of_lt
    simp only [nodeCount]
    omega

theorem loop {body body' : Program} (hbody : Shrunk body body') (h : Shrunk p q) :
    Shrunk (.loop body p) (.loop body' q) := by
  have hcount := hbody.nodeCount_le
  have hcount' := h.nodeCount_le
  rcases hbody with rfl | hlt
  · rcases h with rfl | hlt
    · exact refl _
    · apply of_lt
      simp only [nodeCount]
      omega
  · apply of_lt
    simp only [nodeCount]
    omega

end Shrunk

/-! ## Single sequences -/

section Everywhere

variable {f : Program → Program} (hf : ∀ p, Shrunk p (f p))

include hf

theorem shrunk_mapBodies (p : Program) : Shrunk p (mapBodies f p) := by
  induction p with
  | done => exact .refl _
  | op o rest ih => exact ih.op o
  | loop body rest ihbody ihrest => exact (ihbody.trans (hf _)).loop ihrest

theorem shrunk_everywhere (p : Program) : Shrunk p (everywhere f p) :=
  (shrunk_mapBodies hf p).trans (hf _)

end Everywhere

theorem shrunk_consEffective (o : Op) (p : Program) : Shrunk (op o p) (consEffective o p) := by
  rw [consEffective]
  split
  · apply Shrunk.of_lt
    simp only [nodeCount]
    omega
  · exact .refl _

theorem shrunk_consFused (o : Op) (p : Program) : Shrunk (op o p) (consFused o p) := by
  cases p with
  | done => exact shrunk_consEffective o .done
  | loop body rest => exact shrunk_consEffective o (.loop body rest)
  | op first rest =>
      rw [consFused]
      split
      next joined _ =>
        -- two operations have become at most one
        have hcount := (shrunk_consEffective joined rest).nodeCount_le
        apply Shrunk.of_lt
        simp only [nodeCount] at hcount ⊢
        omega
      next => exact shrunk_consEffective o (.op first rest)

theorem shrunk_fuse (p : Program) : Shrunk p p.fuse := by
  induction p with
  | done => exact .refl _
  | op o rest ih => exact (ih.op o).trans (shrunk_consFused o rest.fuse)
  | loop body rest _ ih => exact (Shrunk.refl body).loop ih

/-- An operation in place of a loop that has a body. -/
theorem Shrunk.of_body {body rest rest' : Program} (hbody : body ≠ done) (o : Op)
    (h : Shrunk rest rest') : Shrunk (.loop body rest) (.op o rest') := by
  have hcount := h.nodeCount_le
  apply of_lt
  cases body with
  | done => exact absurd rfl hbody
  | op o' after =>
      simp only [nodeCount]
      omega
  | loop body' after =>
      simp only [nodeCount]
      omega

theorem shrunk_clearHere (p : Program) : Shrunk p p.clearHere := by
  induction p with
  | done => exact .refl _
  | op o rest ih => exact ih.op o
  | loop body rest _ ih =>
      rw [clearHere]
      split
      next hclear =>
        apply Shrunk.of_body ?_ _ ih
        rintro rfl
        cases hclear
      next => exact (Shrunk.refl body).loop ih

theorem shrunk_multiplyHere (p : Program) : Shrunk p p.multiplyHere := by
  induction p with
  | done => exact .refl _
  | op o rest ih => exact ih.op o
  | loop body rest _ ih =>
      rw [multiplyHere]
      split
      next factors hfactors =>
        apply Shrunk.of_body ?_ _ ih
        -- an empty body takes nothing from the current cell
        rintro rfl
        simp [factors?, tally?] at hfactors
      next => exact (Shrunk.refl body).loop ih

/-- What follows an operation that is left out. -/
theorem Shrunk.of_rest (o : Op) {rest rest' : Program} (h : Shrunk rest rest') :
    Shrunk (.op o rest) rest' := by
  have hcount := h.nodeCount_le
  apply of_lt
  simp only [nodeCount]
  omega

theorem shrunk_sweepFrom (p : Program) : ∀ here, Shrunk p (sweepFrom here p).program := by
  induction p with
  | done => exact fun here => .refl _
  | loop body rest _ ih => exact fun here => (Shrunk.refl body).loop (ih 0)
  | op o rest ih =>
      intro here
      cases o with
      | shift amount => exact (ih _).op _
      | input => exact (ih _).op _
      | output => exact (ih _).op _
      | multiply factors => exact (ih _).op _
      | add amount offset =>
          simp only [sweepFrom]
          split
          · exact .of_rest _ (ih here)
          · exact (ih here).op _
      | setZero =>
          simp only [sweepFrom]
          split
          · exact .of_rest _ (ih here)
          · exact (ih here).op _

theorem shrunk_dropZeroLoops (p : Program) : ∀ k, Shrunk p (p.dropZeroLoops k) := by
  induction p with
  | done => exact fun k => .refl _
  | op o rest ih =>
      intro k
      rw [dropZeroLoops]
      split
      · exact .of_rest o (ih k)
      · exact (ih (k.after o)).op o
  | loop body rest ihbody ihrest =>
      intro k
      rw [dropZeroLoops]
      split
      · have hcount := (ihrest k).nodeCount_le
        apply Shrunk.of_lt
        simp only [nodeCount]
        omega
      · exact (ihbody .nothing).loop (ihrest .zeroed)

end Program

open Program (Shrunk)

/-! ## Passes and rounds -/

theorem shrunk_apply (pass : Pass) (p : Program) : Shrunk p (pass.apply p) := by
  cases pass with
  | merge => exact Program.shrunk_everywhere Program.shrunk_fuse p
  | clear => exact Program.shrunk_everywhere Program.shrunk_clearHere p
  | multiply => exact Program.shrunk_everywhere Program.shrunk_multiplyHere p
  | dead => exact Program.shrunk_everywhere (fun q => Program.shrunk_sweepFrom q 0) p
  | zero => exact Program.shrunk_dropZeroLoops p .fresh

theorem shrunk_run {pass : Pass} {p q : Program} {log : List Event}
    (h : pass.run p = .ok (q, log)) : Shrunk p q := by
  rw [Pass.eq_apply_of_run h]
  exact shrunk_apply pass p

theorem shrunk_runPasses (passes : List Pass) : ∀ {p q : Program} {log : List Event},
    runPasses passes p = .ok (q, log) → Shrunk p q := by
  induction passes with
  | nil =>
      intro p q log h
      cases h
      exact .refl p
  | cons pass passes ih =>
      intro p q log h
      obtain ⟨p₁, log₁, log₂, hrun, hrest, -⟩ := runPasses_cons_eq_ok_iff.1 h
      exact (shrunk_run hrun).trans (ih hrest)

/-- If several passes together change nothing, each of them on its own changes nothing. -/
theorem run_of_runPasses {p : Program} (passes : List Pass) : ∀ {log : List Event},
    runPasses passes p = .ok (p, log) → ∀ pass ∈ passes, ∃ log', pass.run p = .ok (p, log') := by
  induction passes with
  | nil => exact fun _ pass hmem => absurd hmem List.not_mem_nil
  | cons first passes ih =>
      intro log h pass hmem
      obtain ⟨p₁, log₁, log₂, hrun, hrest, -⟩ := runPasses_cons_eq_ok_iff.1 h
      -- what the first pass takes away no later pass can bring back
      obtain rfl : p₁ = p := (shrunk_run hrun).antisymm (shrunk_runPasses passes hrest)
      rcases List.mem_cons.1 hmem with rfl | hmem
      · exact ⟨log₁, hrun⟩
      · exact ih hrest pass hmem

namespace PassSet

variable {F : PassSet} {p q : Program} {log : List Event}

theorem mem_passes_of_contains {pass : Pass} (h : F.contains pass = true) : pass ∈ F.passes := by
  apply List.mem_filter.2
  refine ⟨?_, h⟩
  cases pass <;> decide

theorem shrunk_round (h : F.round p = .ok (q, log)) : Shrunk p q := shrunk_runPasses F.passes h

/-- A round leaves the program as it is. -/
def Settled (F : PassSet) (p : Program) : Prop := ∃ log, F.round p = .ok (p, log)

/-- What a round leaves as it is, every enabled pass leaves as it is. -/
theorem Settled.run (h : F.Settled p) (pass : Pass) (henabled : F.contains pass = true) :
    ∃ log, pass.run p = .ok (p, log) := by
  obtain ⟨log, hround⟩ := h
  exact run_of_runPasses F.passes hround pass (mem_passes_of_contains henabled)

theorem Settled.apply_eq (h : F.Settled p) (pass : Pass) (henabled : F.contains pass = true) :
    pass.apply p = p := by
  obtain ⟨log, hrun⟩ := h.run pass henabled
  exact (Pass.eq_apply_of_run hrun).symm

/-- A round on the empty program has nothing to do. -/
theorem settled_done (F : PassSet) : F.Settled .done := by
  have hpasses : ∀ passes : List Pass, ∃ log, runPasses passes .done = .ok (.done, log) := by
    intro passes
    induction passes with
    | nil => exact ⟨[], rfl⟩
    | cons pass passes ih =>
        obtain ⟨log, hrest⟩ := ih
        have hrun : ∃ log', pass.run .done = .ok (.done, log') := by
          cases pass <;> exact ⟨_, rfl⟩
        obtain ⟨log', hrun⟩ := hrun
        exact ⟨log' ++ log, runPasses_cons_eq_ok_iff.2 ⟨.done, log', log, hrun, hrest, rfl⟩⟩
  exact hpasses F.passes

/-- So many rounds, each of which changes something, lead from one program to another. -/
inductive Changes (F : PassSet) : Nat → Program → Program → Prop where
  | refl (p : Program) : Changes F 0 p p
  | head {n : Nat} {p q r : Program} {log : List Event} (hround : F.round p = .ok (q, log))
      (hne : q ≠ p) (hrest : Changes F n q r) : Changes F (n + 1) p r

namespace Changes

/-- Each of the rounds takes away a node. -/
theorem add_nodeCount_le {n : Nat} (h : Changes F n p q) : n + q.nodeCount ≤ p.nodeCount := by
  induction h with
  | refl p => exact Nat.le_of_eq (Nat.zero_add _)
  | head hround hne _ ih =>
      rcases shrunk_round hround with heq | hlt
      · exact absurd heq hne
      · omega

/-- If all rounds but the last change something, the result is what the last one makes. -/
theorem settle {n : Nat} {last : Program} (h : Changes F n p last)
    (hlast : F.round last = .ok (q, log)) :
    ∀ number, ∃ log', F.settle n number p = .ok (q, log') := by
  induction h with
  | refl p => exact fun number => ⟨_, settle_zero_eq_ok_iff.2 ⟨log, hlast, rfl⟩⟩
  | @head n p p₁ _ log₁ hround hne _ ih =>
      intro number
      obtain ⟨log', hrest⟩ := ih hlast (number + 1)
      exact ⟨_, settle_succ_eq_ok_iff.2 ⟨p₁, log₁, hround, Or.inr ⟨hne, log', hrest, rfl⟩⟩⟩

/-- If no round but the last leaves the program as it is, the optimiser returns what the last
allowed round makes. -/
theorem optimize {last : Program} (hF : F ≠ empty) (h : Changes F (maxRounds - 1) p last)
    (hlast : F.round last = .ok (q, log)) : ∃ log', F.optimize p = .ok (q, log') := by
  rw [PassSet.optimize, if_neg hF]
  exact h.settle hlast 1

end Changes

/-- From every program rounds that change something lead to a program that a round leaves as it is,
or on which a round overflows. -/
theorem exists_changes (F : PassSet) (p : Program) :
    ∃ n q, Changes F n p q ∧ (F.Settled q ∨ ∃ e, F.round q = .error e) := by
  induction hcount : p.nodeCount using Nat.strongRecOn generalizing p with
  | _ count ih =>
      subst hcount
      cases hround : F.round p with
      | error e => exact ⟨0, p, .refl p, Or.inr ⟨e, hround⟩⟩
      | ok r =>
          obtain ⟨q, log⟩ := r
          rcases shrunk_round hround with rfl | hlt
          · exact ⟨0, q, .refl q, Or.inl ⟨log, hround⟩⟩
          · have hne : q ≠ p := by
              rintro rfl
              exact Nat.lt_irrefl _ hlt
            obtain ⟨n, r, hchanges, hend⟩ := ih _ hlt q rfl
            exact ⟨n + 1, r, .head hround hne hchanges, hend⟩

/-- What repeated rounds return: a program that a round leaves as it is, or what the last allowed
round has made. -/
theorem changes_of_settle (more : Nat) : ∀ {number : Nat} {p q : Program} {log : List Event},
    F.settle more number p = .ok (q, log) →
      F.Settled q ∨ .gaveUp maxRounds ∈ log ∧
        ∃ last log', Changes F more p last ∧ F.round last = .ok (q, log') := by
  induction more with
  | zero =>
      intro number p q log h
      obtain ⟨log₁, hround, rfl⟩ := settle_zero_eq_ok_iff.1 h
      exact Or.inr ⟨by simp, p, log₁, .refl p, hround⟩
  | succ more ih =>
      intro number p q log h
      obtain ⟨p₁, log₁, hround, hlast | hrest⟩ := settle_succ_eq_ok_iff.1 h
      · obtain ⟨rfl, rfl, -⟩ := hlast
        exact Or.inl ⟨log₁, hround⟩
      · obtain ⟨hne, log₂, hrest, rfl⟩ := hrest
        rcases ih hrest with hsettled | ⟨hgaveUp, last, log', hchanges, hlast⟩
        · exact Or.inl hsettled
        · exact Or.inr ⟨List.mem_append_right _ hgaveUp, last, log', .head hround hne hchanges,
            hlast⟩

/-- What the optimiser returns: a program that a round leaves as it is, or what the last of the
allowed rounds has made. -/
theorem changes_of_optimize (h : F.optimize p = .ok (q, log)) :
    F.Settled q ∨ .gaveUp maxRounds ∈ log ∧
      ∃ last log', Changes F (maxRounds - 1) p last ∧ F.round last = .ok (q, log') := by
  rw [optimize] at h
  split at h
  next hempty =>
    cases h
    subst hempty
    exact Or.inl ⟨[], rfl⟩
  next => exact changes_of_settle _ h

/-- The optimiser fails only if a round fails, after rounds that changed something. -/
theorem changes_of_settle_error {e : Overflow} (more : Nat) : ∀ {number : Nat} {p : Program},
    F.settle more number p = .error e → ∃ n q, Changes F n p q ∧ F.round q = .error e := by
  induction more with
  | zero =>
      intro number p h
      cases hround : F.round p with
      | error e' =>
          simp only [settle, hround, bind, Except.bind, Except.error.injEq] at h
          exact ⟨0, p, .refl p, by rw [hround, h]⟩
      | ok r => simp [settle, hround, bind, Except.bind, pure, Except.pure] at h
  | succ more ih =>
      intro number p h
      cases hround : F.round p with
      | error e' =>
          simp only [settle, hround, bind, Except.bind, Except.error.injEq] at h
          exact ⟨0, p, .refl p, by rw [hround, h]⟩
      | ok r =>
          obtain ⟨p₁, log⟩ := r
          simp only [settle, hround, bind, Except.bind, pure, Except.pure] at h
          split at h
          · cases h
          next hne =>
            split at h
            next e' hrest =>
              cases h
              obtain ⟨n, q, hchanges, herror⟩ := ih hrest
              exact ⟨n + 1, q, .head hround hne hchanges, herror⟩
            next => cases h

theorem changes_of_optimize_error {e : Overflow} (h : F.optimize p = .error e) :
    ∃ n q, Changes F n p q ∧ F.round q = .error e := by
  rw [optimize] at h
  split at h
  · cases h
  · exact changes_of_settle_error _ h

theorem Settled.settle (h : F.Settled p) (more number : Nat) :
    ∃ log, F.settle (more + 1) number p = .ok (p, log) := by
  obtain ⟨log, hround⟩ := h
  exact ⟨_, settle_succ_eq_ok_iff.2 ⟨p, log, hround, Or.inl ⟨rfl, rfl, rfl⟩⟩⟩

/-- The optimiser stops at a program that a round leaves as it is. -/
theorem Settled.optimize_of_round (h : F.Settled q) (hround : F.round p = .ok (q, log)) :
    ∃ log', F.optimize p = .ok (q, log') := by
  rw [optimize]
  split
  next hempty =>
    subst hempty
    cases hround
    exact ⟨_, rfl⟩
  next =>
    obtain ⟨log', hsettle⟩ := h.settle (maxRounds - 3) 2
    by_cases heq : q = p
    · subst heq
      exact h.settle (maxRounds - 2) 1
    · exact ⟨_, settle_succ_eq_ok_iff.2 ⟨q, log, hround, Or.inr ⟨heq, log', hsettle, rfl⟩⟩⟩

/-- The optimiser returns the program it is given exactly if a round leaves it as it is. -/
theorem eq_iff_settled_of_optimize (h : F.optimize p = .ok (q, log)) : q = p ↔ F.Settled p := by
  constructor
  · rintro rfl
    rcases changes_of_optimize h with hsettled | ⟨-, last, log', hchanges, hround⟩
    · exact hsettled
    · -- what all rounds but the last have taken away is not brought back by the last
      have hcount := hchanges.add_nodeCount_le
      have hcount' := (shrunk_round hround).nodeCount_le
      simp only [maxRounds] at hcount
      omega
  · intro hsettled
    obtain ⟨log₁, hround⟩ := hsettled
    obtain ⟨log', hoptimize⟩ := Settled.optimize_of_round ⟨log₁, hround⟩ hround
    rw [h] at hoptimize
    injection hoptimize with hpair
    injection hpair

/-- A program with no more nodes than there are rounds is brought to its end. -/
theorem settled_of_nodeCount_le (h : F.optimize p = .ok (q, log)) (hp : p.nodeCount ≤ maxRounds) :
    F.Settled q := by
  rcases changes_of_optimize h with hsettled | ⟨-, last, log', hchanges, hround⟩
  · exact hsettled
  · have hcount := hchanges.add_nodeCount_le
    simp only [maxRounds] at hcount hp
    rcases shrunk_round hround with rfl | hlt
    · exact ⟨log', hround⟩
    · -- after all rounds but one a single node is left at most, and the last round takes it away
      have hzero : q.nodeCount = 0 := by omega
      cases q with
      | done => exact settled_done F
      | op o rest =>
          simp only [Program.nodeCount] at hzero
          omega
      | loop body rest =>
          simp only [Program.nodeCount] at hzero
          omega

/-- A pass returns the program it is given or one with fewer nodes. So a program that a round leaves
as it is is left as it is by every enabled pass; rounds that change something are no more than the
program has nodes, and lead to a program that a round leaves as it is unless one of them overflows;
and the optimiser returns such a program if the one it is given has no more nodes than there are
rounds, again unless a round overflows. -/
theorem rounds_shrink (F : PassSet) (p : Program) :
    (∀ pass q log, Pass.run pass p = .ok (q, log) → q = p ∨ q.nodeCount < p.nodeCount) ∧
    (∀ log, F.round p = .ok (p, log) →
      ∀ pass, F.contains pass = true → ∃ log', pass.run p = .ok (p, log')) ∧
    (∀ n q, Changes F n p q → n + q.nodeCount ≤ p.nodeCount) ∧
    (∃ n q, n ≤ p.nodeCount ∧ Changes F n p q ∧
      ((∃ log, F.round q = .ok (q, log)) ∨ ∃ e, F.round q = .error e)) ∧
    (p.nodeCount ≤ 40 →
      (∃ q log log', F.optimize p = .ok (q, log) ∧ F.round q = .ok (q, log')) ∨
        ∃ n q e, Changes F n p q ∧ F.round q = .error e ∧ F.optimize p = .error e) := by
  refine ⟨?_, ?_, ?_, ?_, ?_⟩
  · exact fun pass q log h => shrunk_run h
  · exact fun log h => Settled.run ⟨log, h⟩
  · exact fun n q h => h.add_nodeCount_le
  · obtain ⟨n, q, hchanges, hend⟩ := exists_changes F p
    have hcount := hchanges.add_nodeCount_le
    exact ⟨n, q, by omega, hchanges, hend⟩
  · intro hp
    cases hoptimize : F.optimize p with
    | ok r =>
        obtain ⟨q, log⟩ := r
        obtain ⟨log', hround⟩ := settled_of_nodeCount_le hoptimize hp
        exact Or.inl ⟨q, log, log', rfl, hround⟩
    | error e =>
        obtain ⟨n, q, hchanges, herror⟩ := changes_of_optimize_error hoptimize
        exact Or.inr ⟨n, q, e, hchanges, herror, rfl⟩

/-- An increment, a clearing loop and two shifts that cancel: the rounds leave nothing of the
program. -/
theorem rounds_shrink_cancelling :
    ∃ n log log', n ≤ 5 ∧
      Changes .all n (.op (.add 1 0) (.loop (.op (.add (-1) 0) .done)
        (.op (.shift 1) (.op (.shift (-1)) .done)))) .done ∧
      PassSet.all.optimize (.op (.add 1 0) (.loop (.op (.add (-1) 0) .done)
        (.op (.shift 1) (.op (.shift (-1)) .done)))) = .ok (.done, log) ∧
      PassSet.all.round .done = .ok (.done, log') := by
  obtain ⟨-, -, hcount, -, hend⟩ := rounds_shrink .all (.op (.add 1 0)
    (.loop (.op (.add (-1) 0) .done) (.op (.shift 1) (.op (.shift (-1)) .done))))
  have hchanges : Changes .all 1 (.op (.add 1 0) (.loop (.op (.add (-1) 0) .done)
      (.op (.shift 1) (.op (.shift (-1)) .done)))) .done :=
    .head rfl (by decide) (.refl .done)
  rcases hend (by decide) with ⟨q, log, log', hoptimize, hround⟩ | ⟨-, -, e, -, -, herror⟩
  · cases hoptimize
    exact ⟨1, _, log', hcount 1 .done hchanges, hchanges, rfl, hround⟩
  · cases herror

end PassSet

end TapeLang
