import TapeLang.Proofs.Optimizer.PassCalls
import TapeLang.Proofs.Optimizer.SecondRuns

/-!
# Loops are recognised in the first round

The two passes that recognise loops change nothing after the first round
(`loops_recognised_in_first_round`). What they recognise is a loop around a straight body, one of
shifts and additions only. No pass makes such a body of another: recognising a loop leaves an
operation that is neither a shift nor an addition, the last of the zeroings that a sweep looks at is
never dead, and what comes first in a body does not run on a cell known to be zero. A straight body
itself is changed by merging only, and merging a second time leaves it as it is. So the straight
bodies that are left after a round have all been seen by every enabled pass (`straight_of_apply`),
and from then on they can only become fewer.
-/

set_option autoImplicit false

namespace TapeLang

/-- A shift or an addition. -/
def Op.isPlain : Op → Bool
  | .shift _ => true
  | .add _ _ => true
  | _ => false

theorem Op.isPlain_of_isNoOp {o : Op} (h : o.isNoOp = true) : o.isPlain = true := by
  cases o <;> first | rfl | cases h

namespace Program

/-- The sequence has shifts and additions only. -/
def isStraight : Program → Bool
  | done => true
  | op o rest => o.isPlain && rest.isStraight
  | loop _ _ => false

@[simp] theorem isStraight_op (o : Op) (rest : Program) :
    (op o rest).isStraight = true ↔ o.isPlain = true ∧ rest.isStraight = true := by
  rw [isStraight, Bool.and_eq_true]

/-- There is no body in a straight sequence that a traversal could change. -/
theorem mapBodies_of_isStraight {f : Program → Program} {p : Program}
    (h : (p.mapBodies f).isStraight = true) : p.mapBodies f = p := by
  induction p with
  | done => rfl
  | op o rest ih =>
      rw [mapBodies_op, isStraight_op] at h
      rw [mapBodies_op, ih h.2]
  | loop body rest _ _ => cases h

/-! ## Merging -/

theorem isStraight_consEffective (o : Op) (p : Program) :
    (consEffective o p).isStraight = (op o p).isStraight := by
  rw [consEffective]
  split
  next hnoOp => rw [isStraight, Op.isPlain_of_isNoOp hnoOp, Bool.true_and]
  next => rfl

theorem isStraight_consFused (o : Op) (p : Program) :
    (consFused o p).isStraight = (op o p).isStraight := by
  cases p with
  | done => exact isStraight_consEffective o .done
  | loop body rest => exact isStraight_consEffective o (.loop body rest)
  | op first rest =>
      rw [consFused]
      split
      next joined hjoin =>
        -- two shifts join to a shift, and two additions to an addition
        rw [isStraight_consEffective]
        rcases Op.join?_eq_some hjoin with ⟨a, b, rfl, rfl, rfl⟩ | ⟨a, b, i, rfl, rfl, rfl⟩ <;> rfl
      next => exact isStraight_consEffective o (.op first rest)

/-- Merging neither makes a sequence straight nor takes that away. -/
theorem isStraight_mergeRuns (p : Program) : p.mergeRuns.isStraight = p.isStraight := by
  induction p with
  | done => rfl
  | op o rest ih => rw [mergeRuns_op, isStraight_consFused, isStraight, ih, isStraight]
  | loop body rest _ _ => rfl

theorem bodies_consEffective (o : Op) (p : Program) : (consEffective o p).bodies = p.bodies := by
  rw [consEffective]
  split <;> rfl

theorem bodies_consFused (o : Op) (p : Program) : (consFused o p).bodies = p.bodies := by
  cases p with
  | done => exact bodies_consEffective o .done
  | loop body rest => exact bodies_consEffective o (.loop body rest)
  | op first rest =>
      rw [consFused]
      split <;> exact bodies_consEffective _ _

theorem bodies_fuse (p : Program) : p.fuse.bodies = p.bodies := by
  induction p with
  | done => rfl
  | op o rest ih => rw [fuse, bodies_consFused, ih, bodies]
  | loop body rest _ ih => rw [fuse, bodies, ih, bodies]

/-- Merging keeps every loop. -/
theorem bodies_mergeRuns (p : Program) : p.mergeRuns.bodies = p.bodies.map mergeRuns :=
  bodies_everywhere bodies_fuse p

/-! ## Recognising loops -/

section Recognise

variable {recognise : Program → Option Op}

/-- A loop is left if it is not recognised, with the loops of its body recognised. -/
theorem of_mem_bodies_recogniseLoops {p b : Program} (h : b ∈ (p.recogniseLoops recognise).bodies) :
    ∃ a ∈ p.bodies, b = a.recogniseLoops recognise ∧ recognise b = none := by
  induction p with
  | done => cases h
  | op o rest ih => exact ih h
  | loop body rest ihbody ihrest =>
      simp only [mem_bodies_loop]
      rw [recogniseLoops] at h
      split at h
      next =>
        obtain ⟨a, ha, hb⟩ := ihrest h
        exact ⟨a, Or.inr (Or.inr ha), hb⟩
      next hnone =>
        rcases mem_bodies_loop.1 h with rfl | h | h
        · exact ⟨body, Or.inl rfl, rfl, hnone⟩
        · obtain ⟨a, ha, hb⟩ := ihbody h
          exact ⟨a, Or.inr (Or.inl ha), hb⟩
        · obtain ⟨a, ha, hb⟩ := ihrest h
          exact ⟨a, Or.inr (Or.inr ha), hb⟩

/-- A recognised loop leaves an operation that no straight sequence has. -/
theorem recogniseLoops_of_isStraight
    (hplain : ∀ {body : Program} {o : Op}, recognise body = some o → o.isPlain = false)
    {p : Program} (h : (p.recogniseLoops recognise).isStraight = true) :
    p.recogniseLoops recognise = p := by
  induction p with
  | done => rfl
  | op o rest ih =>
      rw [recogniseLoops, isStraight_op] at h
      rw [recogniseLoops, ih h.2]
  | loop body rest _ _ =>
      rw [recogniseLoops] at h
      split at h
      next o ho =>
        rw [isStraight_op, hplain ho] at h
        cases h.1
      next => cases h

/-- No loop is recognised if none of the bodies is, at any depth. -/
theorem unrecognised_iff (p : Program) :
    p.Unrecognised recognise ↔ ∀ b ∈ p.bodies, recognise b = none := by
  induction p with
  | done => simp [Unrecognised, bodies]
  | op o rest ih => rw [Unrecognised, ih, bodies]
  | loop body rest ihbody ihrest =>
      rw [Unrecognised, ihbody, ihrest, bodies, List.cons_append, List.forall_mem_cons,
        List.forall_mem_append]

end Recognise

theorem isPlain_of_clear? {body : Program} {o : Op} (h : body.clear? = some o) :
    o.isPlain = false := by
  rw [clear?] at h
  split at h
  next =>
    cases h
    rfl
  next => cases h

theorem isPlain_of_transfer? {body : Program} {o : Op} (h : body.transfer? = some o) :
    o.isPlain = false := by
  obtain ⟨factors, -, rfl⟩ := Option.map_eq_some_iff.1 h
  rfl

/-- The body of a clear loop is straight. -/
theorem isStraight_of_clear? {body : Program} {o : Op} (h : body.clear? = some o) :
    body.isStraight = true := by
  rw [clear?] at h
  split at h
  next hclear =>
    rw [isClearBody.eq_def] at hclear
    split at hclear
    next => rfl
    next => cases hclear
  next => cases h

/-- What can be tallied is straight. -/
theorem isStraight_of_tally? {p : Program} : ∀ {here : Int} {totals : Factors} {r : Int × Factors},
    p.tally? here totals = some r → p.isStraight = true := by
  induction p with
  | done => exact fun _ => rfl
  | op o rest ih =>
      intro here totals r h
      cases o with
      | shift amount => exact ih h
      | add amount offset => exact ih h
      | _ => cases h
  | loop body rest _ _ =>
      intro here totals r h
      cases h

theorem isStraight_of_transfer? {body : Program} {o : Op} (h : body.transfer? = some o) :
    body.isStraight = true := by
  obtain ⟨factors, hfactors, -⟩ := Option.map_eq_some_iff.1 h
  obtain ⟨totals, htally, -⟩ := factors?_eq_some_iff.1 hfactors
  exact isStraight_of_tally? htally

/-! ## Dead stores -/

/-- A sweep that leaves a straight sequence has met no zeroing, so it has nothing carried and has
removed nothing. -/
theorem sweepFrom_of_isStraight {p : Program} : ∀ {here : Int},
    (p.sweepFrom here).program.isStraight = true → p.sweepFrom here = ⟨p, [], 0⟩ := by
  induction p with
  | done => exact fun _ => rfl
  | loop body rest _ _ =>
      intro here h
      cases h
  | op o rest ih =>
      intro here h
      cases o with
      | shift amount =>
          have hrest := ih ((isStraight_op _ _).1 h).2
          simp only [sweepFrom, hrest]
      | add amount offset =>
          simp only [sweepFrom] at h ⊢
          split at h
          next hdead =>
            -- the addition could be dead only because of a zeroing
            rw [ih h] at hdead
            cases hdead
          next hkept =>
            have hrest := ih ((isStraight_op _ _).1 h).2
            rw [if_neg hkept, hrest]
      | setZero =>
          simp only [sweepFrom] at h
          split at h
          next hdead =>
            -- neither could the zeroing itself, and a zeroing that is kept is not straight
            rw [ih h] at hdead
            cases hdead
          next => cases h
      | _ => cases h

theorem bodies_sweepFrom (p : Program) : ∀ here : Int,
    (p.sweepFrom here).program.bodies = p.bodies := by
  induction p with
  | done => exact fun _ => rfl
  | loop body rest _ ih =>
      intro here
      simp only [sweepFrom, bodies, ih]
  | op o rest ih =>
      intro here
      cases o with
      | add amount offset =>
          simp only [sweepFrom]
          split <;> exact ih here
      | setZero =>
          simp only [sweepFrom]
          split <;> exact ih here
      | _ => exact ih _

theorem bodies_removeDeadStores (p : Program) :
    p.removeDeadStores.bodies = p.bodies.map removeDeadStores :=
  bodies_everywhere (fun q => bodies_sweepFrom q 0) p

theorem removeDeadStores_of_isStraight {p : Program} (h : p.removeDeadStores.isStraight = true) :
    p.removeDeadStores = p := by
  have hsweep : p.removeDeadStores = p.mapBodies sweep := by
    rw [removeDeadStores, everywhere, sweep, sweepFrom_of_isStraight h]
  rw [hsweep] at h ⊢
  exact mapBodies_of_isStraight h

/-! ## Loops on a zero cell -/

/-- At the start of a body nothing is known, and shifts and additions teach nothing. -/
theorem dropZeroLoops_of_isStraight {p : Program}
    (h : (p.dropZeroLoops .nothing).isStraight = true) : p.dropZeroLoops .nothing = p := by
  induction p with
  | done => rfl
  | op o rest ih =>
      -- while nothing is known nothing is dropped
      have hkept : (op o rest).dropZeroLoops .nothing =
          op o (rest.dropZeroLoops (Known.nothing.after o)) := rfl
      rw [hkept, isStraight_op] at h
      have hafter : Known.nothing.after o = .nothing := by
        cases o <;> first | rfl | cases h.1
      rw [hafter] at h
      rw [hkept, hafter, ih h.2]
  | loop body rest _ _ => cases h

theorem of_mem_bodies_dropZeroLoops {p b : Program} : ∀ {k : Known},
    b ∈ (p.dropZeroLoops k).bodies → ∃ a ∈ p.bodies, b = a.dropZeroLoops .nothing := by
  induction p with
  | done =>
      intro k h
      cases h
  | op o rest ih =>
      intro k h
      rw [dropZeroLoops] at h
      split at h
      next => exact ih h
      next => exact ih h
  | loop body rest ihbody ihrest =>
      intro k h
      simp only [mem_bodies_loop]
      rw [dropZeroLoops] at h
      split at h
      next =>
        obtain ⟨a, ha, hb⟩ := ihrest h
        exact ⟨a, Or.inr (Or.inr ha), hb⟩
      next =>
        rcases mem_bodies_loop.1 h with rfl | h | h
        · exact ⟨body, Or.inl rfl, rfl⟩
        · obtain ⟨a, ha, hb⟩ := ihbody h
          exact ⟨a, Or.inr (Or.inl ha), hb⟩
        · obtain ⟨a, ha, hb⟩ := ihrest h
          exact ⟨a, Or.inr (Or.inr ha), hb⟩

end Program

open Program

/-! ## Straight bodies along the passes -/

namespace Pass

/-- The pass has nothing to do in a loop with the given straight body, and does not recognise it. -/
def Spares : Pass → Program → Prop
  | merge, body => body.mergeRuns = body
  | clear, body => body.clear? = none
  | multiply, body => body.transfer? = none
  | dead, _ => True
  | zero, _ => True

/-- A straight body that a pass leaves is spared by the pass. It was a straight body before, and
only merging has changed it. -/
theorem straight_of_apply {pass : Pass} {p b : Program} (hb : b ∈ (pass.apply p).bodies)
    (hstraight : b.isStraight = true) :
    pass.Spares b ∧
      ∃ a ∈ p.bodies, a.isStraight = true ∧ (b = a ∨ pass = merge ∧ b = a.mergeRuns) := by
  cases pass with
  | merge =>
      have hmem : b ∈ p.bodies.map mergeRuns := by
        rw [← bodies_mergeRuns]
        exact hb
      obtain ⟨a, ha, rfl⟩ := List.mem_map.1 hmem
      rw [isStraight_mergeRuns] at hstraight
      exact ⟨(mergeRuns_eq_iff _).2 (merged_mergeRuns a), a, ha, hstraight, Or.inr ⟨rfl, rfl⟩⟩
  | clear =>
      have hmem : b ∈ (p.recogniseLoops clear?).bodies := by
        rw [← clearLoops_eq]
        exact hb
      obtain ⟨a, ha, rfl, hnone⟩ := of_mem_bodies_recogniseLoops hmem
      have hsame := recogniseLoops_of_isStraight isPlain_of_clear? hstraight
      rw [hsame] at hstraight hnone ⊢
      exact ⟨hnone, a, ha, hstraight, Or.inl rfl⟩
  | multiply =>
      have hmem : b ∈ (p.recogniseLoops transfer?).bodies := by
        rw [← multiplyLoops_eq]
        exact hb
      obtain ⟨a, ha, rfl, hnone⟩ := of_mem_bodies_recogniseLoops hmem
      have hsame := recogniseLoops_of_isStraight isPlain_of_transfer? hstraight
      rw [hsame] at hstraight hnone ⊢
      exact ⟨hnone, a, ha, hstraight, Or.inl rfl⟩
  | dead =>
      have hmem : b ∈ p.bodies.map removeDeadStores := by
        rw [← bodies_removeDeadStores]
        exact hb
      obtain ⟨a, ha, rfl⟩ := List.mem_map.1 hmem
      have hsame := removeDeadStores_of_isStraight hstraight
      rw [hsame] at hstraight ⊢
      exact ⟨trivial, a, ha, hstraight, Or.inl rfl⟩
  | zero =>
      obtain ⟨a, ha, rfl⟩ := of_mem_bodies_dropZeroLoops hb
      have hsame := dropZeroLoops_of_isStraight hstraight
      rw [hsame] at hstraight ⊢
      exact ⟨trivial, a, ha, hstraight, Or.inl rfl⟩

/-- Without merging the straight bodies can only become fewer. -/
theorem mem_bodies_of_applyAll {passes : List Pass} {b : Program} (hstraight : b.isStraight = true)
    (hmerge : merge ∉ passes) : ∀ {p : Program}, b ∈ (applyAll passes p).bodies → b ∈ p.bodies := by
  induction passes with
  | nil => exact fun h => h
  | cons pass passes ih =>
      intro p h
      have hmerge' : merge ∉ passes := fun hmem => hmerge (List.mem_cons_of_mem _ hmem)
      have hfirst : b ∈ (pass.apply p).bodies := ih hmerge' h
      obtain ⟨-, a, ha, -, rfl | ⟨rfl, -⟩⟩ := straight_of_apply hfirst hstraight
      · exact ha
      · exact absurd List.mem_cons_self hmerge

/-- If merging comes first, every pass has spared the straight bodies that are left in the end. -/
theorem spares_of_applyAll {passes : List Pass} {b : Program} (hstraight : b.isStraight = true)
    (horder : passes.Pairwise fun _ later => later ≠ merge) :
    ∀ {p : Program}, b ∈ (applyAll passes p).bodies → ∀ pass ∈ passes, pass.Spares b := by
  induction passes with
  | nil => exact fun _ _ hmem => absurd hmem List.not_mem_nil
  | cons first passes ih =>
      intro p h pass hmem
      obtain ⟨hlater, horder⟩ := List.pairwise_cons.1 horder
      rcases List.mem_cons.1 hmem with rfl | hmem
      · -- after the first pass nothing is merged any more, so the body is one that it has left
        have hmerge : merge ∉ passes := fun hmem => hlater merge hmem rfl
        have hleft : b ∈ (pass.apply p).bodies := mem_bodies_of_applyAll hstraight hmerge h
        exact (straight_of_apply hleft hstraight).1
      · exact ih horder h pass hmem

end Pass

namespace PassSet

/-- Every enabled pass spares all straight bodies of the program. -/
def Examined (F : PassSet) (p : Program) : Prop :=
  ∀ b ∈ p.bodies, b.isStraight = true → ∀ pass ∈ F.passes, pass.Spares b

variable {F : PassSet} {p : Program}

/-- A round leaves a program that every enabled pass has examined. -/
theorem examined_round (F : PassSet) (p : Program) : F.Examined (Pass.applyAll F.passes p) := by
  intro b hb hstraight
  have hall : Pass.all.Pairwise fun _ later => later ≠ .merge := by decide
  exact Pass.spares_of_applyAll hstraight (hall.filter _) hb

/-- Enabled passes keep a program examined: merging does not change what is merged. -/
theorem Examined.apply {pass : Pass} (h : F.Examined p) (henabled : pass ∈ F.passes) :
    F.Examined (pass.apply p) := by
  intro b hb hstraight
  obtain ⟨-, a, ha, hbefore, rfl | ⟨rfl, rfl⟩⟩ := Pass.straight_of_apply hb hstraight
  · exact h b ha hbefore
  · -- merging is enabled, so the body had been merged before
    have hsame : a.mergeRuns = a := h a ha hbefore .merge henabled
    rw [hsame]
    exact h a ha hbefore

theorem Examined.calls {passes : List Pass} (henabled : ∀ pass ∈ passes, pass ∈ F.passes) :
    ∀ {p : Program}, F.Examined p →
      F.Examined (Pass.applyAll passes p) ∧ ∀ c ∈ Pass.calls passes p, F.Examined c.given := by
  induction passes with
  | nil => exact fun h => ⟨h, fun c hc => absurd hc List.not_mem_nil⟩
  | cons pass passes ih =>
      intro p h
      have hfirst := h.apply (henabled pass List.mem_cons_self)
      have hothers : ∀ pass' ∈ passes, pass' ∈ F.passes :=
        fun pass' hmem => henabled pass' (List.mem_cons_of_mem _ hmem)
      obtain ⟨hlast, hcalls⟩ := ih hothers hfirst
      refine ⟨hlast, ?_⟩
      intro c hc
      rcases List.mem_cons.1 hc with rfl | hc
      · exact h
      · exact hcalls c hc

/-- From an examined program on, every pass is given an examined program. -/
theorem Examined.roundsFrom (more : Nat) : ∀ {p : Program}, F.Examined p →
    ∀ round ∈ F.roundsFrom more p, ∀ c ∈ round, F.Examined c.given := by
  induction more with
  | zero =>
      intro p h round hround
      rw [List.mem_singleton.1 hround]
      exact (Examined.calls (fun _ hmem => hmem) h).2
  | succ more ih =>
      intro p h round hround
      have hcalls := Examined.calls (fun _ hmem => hmem) h
      rw [PassSet.roundsFrom] at hround
      split at hround
      next =>
        rw [List.mem_singleton.1 hround]
        exact hcalls.2
      next =>
        rcases List.mem_cons.1 hround with rfl | hround
        · exact hcalls.2
        · exact ih hcalls.1 round hround

/-- After the first round every pass is given an examined program. -/
theorem examined_of_mem_tail {round : List PassCall} (hround : round ∈ (F.rounds p).tail) :
    ∀ c ∈ round, F.Examined c.given := by
  have hlater : ∀ more, round ∈ (F.roundsFrom more p).tail → ∀ c ∈ round, F.Examined c.given := by
    intro more hround
    cases more with
    | zero => cases hround
    | succ more =>
        rw [PassSet.roundsFrom] at hround
        split at hround
        next => cases hround
        next => exact (examined_round F p).roundsFrom more round hround
  rw [rounds] at hround
  split at hround
  next => cases hround
  next => exact hlater _ hround

/-- In an examined program no loop is recognised. -/
theorem Examined.recogniseLoops_eq (h : F.Examined p) {pass : Pass} (henabled : pass ∈ F.passes)
    {recognise : Program → Option Op}
    (hstraight : ∀ {body : Program} {o : Op}, recognise body = some o → body.isStraight = true)
    (hspares : ∀ body, pass.Spares body → recognise body = none) :
    p.recogniseLoops recognise = p := by
  rw [recogniseLoops_eq_iff, unrecognised_iff]
  intro b hb
  -- a body that is recognised is straight, and the pass would have spared it
  cases hrecognise : recognise b with
  | none => rfl
  | some o =>
      have hnone := hspares b (h b hb (hstraight hrecognise) pass henabled)
      rw [hrecognise] at hnone
      exact hnone

theorem Examined.clearLoops_eq (h : F.Examined p) (henabled : .clear ∈ F.passes) :
    p.clearLoops = p := by
  rw [Program.clearLoops_eq]
  exact h.recogniseLoops_eq henabled isStraight_of_clear? fun _ hspares => hspares

theorem Examined.multiplyLoops_eq (h : F.Examined p) (henabled : .multiply ∈ F.passes) :
    p.multiplyLoops = p := by
  rw [Program.multiplyLoops_eq]
  exact h.recogniseLoops_eq henabled isStraight_of_transfer? fun _ hspares => hspares

/-- Loops are recognised in the first round or not at all. The calls of the optimiser's rounds, in
each of them those of the enabled passes, lead from the program to the result and are the ones that
the log reports; and in every round after the first the two passes that recognise loops return the
program that they are given. -/
theorem loops_recognised_in_first_round {q : Program} {log : List Event}
    (h : F.optimize p = .ok (q, log)) :
    (∀ round ∈ F.rounds p, round.map PassCall.pass = F.passes) ∧
      PassCall.Leads p (F.rounds p).flatten q ∧
      (F ≠ empty → ∃ ending, Ends (F.rounds p).length q ending ∧
        log = (F.rounds p).flatten.flatMap PassCall.log ++ ending) ∧
      ∀ round ∈ (F.rounds p).tail, ∀ c ∈ round, c.pass = .clear ∨ c.pass = .multiply →
        c.returned = c.given := by
  have hleads := leads_of_optimize h
  refine ⟨fun round => map_pass_of_mem_rounds, hleads, fun hF => (rounds_of_optimize hF h).2.2, ?_⟩
  intro round hround c hc hpass
  have hround' : round ∈ F.rounds p := List.mem_of_mem_tail hround
  have henabled : c.pass ∈ F.passes := by
    rw [← map_pass_of_mem_rounds hround']
    exact List.mem_map_of_mem hc
  -- what the pass is given has been through the first round
  have hexamined : F.Examined c.given := examined_of_mem_tail hround c hc
  rw [Pass.eq_apply_of_run (hleads.run_of_mem (List.mem_flatten_of_mem hround' hc))]
  rcases hpass with hpass | hpass
  · rw [hpass] at henabled ⊢
    exact hexamined.clearLoops_eq henabled
  · rw [hpass] at henabled ⊢
    exact hexamined.multiplyLoops_eq henabled

/-- A loop that adds to the next cell, zeroes the cell after it, zeroes the next cell and takes one
from its own. The addition is dead, and without it two shifts meet. -/
def fading : Program :=
  .op .input (.loop (.op (.shift 1) (.op (.add 1 0) (.op (.shift 1)
    (.loop (.op (.add (-1) 0) .done) (.op (.shift (-1)) (.loop (.op (.add (-1) 0) .done)
      (.op (.shift (-1)) (.op (.add (-1) 0) .done)))))))) .done)

/-- Clear loops are found in the first round. The second merges the shifts that have met, and
neither it nor the third, which changes nothing, finds a loop to recognise in what is left. -/
theorem loops_recognised_in_first_round_fading :
    ∃ q log first second third, PassSet.all.optimize fading = .ok (q, log) ∧
      PassSet.all.rounds fading = [first, second, third] ∧
      (∃ c ∈ first, c.pass = .clear ∧ c.returned ≠ c.given) ∧
      (∃ c ∈ second, c.pass = .merge ∧ c.returned ≠ c.given) ∧
      (∃ c ∈ second, c.pass = .clear ∧ c.returned = c.given) ∧
      ∃ c ∈ third, c.pass = .multiply ∧ c.returned = c.given := by
  have hoptimize : PassSet.all.optimize fading = .ok (_, _) := rfl
  have hrounds : PassSet.all.rounds fading = [_, _, _] := rfl
  obtain ⟨-, -, -, hlater⟩ := loops_recognised_in_first_round hoptimize
  rw [hrounds, List.tail_cons] at hlater
  have hsecond := hlater _ List.mem_cons_self
  have hthird := hlater _ (List.mem_cons_of_mem _ List.mem_cons_self)
  refine ⟨_, _, _, _, _, hoptimize, hrounds, ?_, ?_, ?_, ?_⟩
  · exact ⟨_, List.mem_cons_of_mem _ List.mem_cons_self, rfl, by decide⟩
  · exact ⟨_, List.mem_cons_self, rfl, by decide⟩
  · refine ⟨_, List.mem_cons_of_mem _ List.mem_cons_self, rfl, ?_⟩
    apply hsecond _ (List.mem_cons_of_mem _ List.mem_cons_self)
    exact Or.inl rfl
  · refine ⟨_, List.mem_cons_of_mem _ (List.mem_cons_of_mem _ List.mem_cons_self), rfl, ?_⟩
    apply hthird _ (List.mem_cons_of_mem _ (List.mem_cons_of_mem _ List.mem_cons_self))
    exact Or.inr rfl

end PassSet

end TapeLang
