import TapeLang.Proofs.FactorTables
import TapeLang.Proofs.Optimizer.Rounds
import TapeLang.Source.Parser

/-!
# The operations of a program

A test that every operation of a program passes is passed by every operation of what the optimiser
makes of it, if it lets the operations through that the passes bring in (`allOps_optimize`). Those
are two operations joined to one, zeroings, and multiplications whose offsets and factors are not
zero. A program that was read from a source text has shifts, additions, inputs and outputs only. So
no multiplication that comes from a source text changes the current cell twice.
-/

set_option autoImplicit false

namespace TapeLang

/-- A multiplication that has no factor for the current cell, or any other operation. -/
def Op.sparesCurrent : Op → Bool
  | .multiply factors => (factors.get? 0).isNone
  | _ => true

namespace Program

/-- Every operation, those inside loop bodies included, passes a test. -/
def allOps (test : Op → Bool) : Program → Bool
  | done => true
  | op o rest => test o && rest.allOps test
  | loop body rest => body.allOps test && rest.allOps test

section AllOps

variable {test : Op → Bool}

@[simp] theorem allOps_op (o : Op) (rest : Program) :
    (op o rest).allOps test = true ↔ test o = true ∧ rest.allOps test = true := by
  rw [allOps, Bool.and_eq_true]

@[simp] theorem allOps_loop (body rest : Program) :
    (loop body rest).allOps test = true ↔ body.allOps test = true ∧ rest.allOps test = true := by
  rw [allOps, Bool.and_eq_true]

theorem allOps_append {p q : Program} :
    (p ++ q).allOps test = true ↔ p.allOps test = true ∧ q.allOps test = true := by
  induction p with
  | done => simp [allOps]
  | op o rest ih => rw [op_append, allOps_op, allOps_op, ih, and_assoc]
  | loop body rest _ ih => rw [loop_append, allOps_loop, allOps_loop, ih, and_assoc]

theorem allOps_of_forall (h : ∀ o, test o = true) (p : Program) : p.allOps test = true := by
  induction p with
  | done => rfl
  | op o rest ih => exact (allOps_op o rest).2 ⟨h o, ih⟩
  | loop body rest ihbody ihrest => exact (allOps_loop body rest).2 ⟨ihbody, ihrest⟩

/-- A change of single sequences that keeps the test keeps it when it is made everywhere. -/
theorem allOps_everywhere {f : Program → Program}
    (hf : ∀ {p : Program}, p.allOps test = true → (f p).allOps test = true) {p : Program}
    (hp : p.allOps test = true) : (everywhere f p).allOps test = true := by
  have hbodies : ∀ {p : Program}, p.allOps test = true → (mapBodies f p).allOps test = true := by
    intro p
    induction p with
    | done => exact id
    | op o rest ih =>
        intro h
        rw [allOps_op] at h
        rw [mapBodies_op, allOps_op]
        exact ⟨h.1, ih h.2⟩
    | loop body rest ihb ihr =>
        intro h
        rw [allOps_loop] at h
        rw [mapBodies_loop, allOps_loop]
        exact ⟨hf (ihb h.1), ihr h.2⟩
  exact hf (hbodies hp)

end AllOps

/-! ## The passes -/

/-- A test that lets the operations through that the passes bring in. -/
structure Admits (test : Op → Bool) : Prop where
  join : ∀ {o o' joined : Op}, o.join? o' = some joined → test o = true → test o' = true →
    test joined = true
  setZero : test .setZero = true
  multiply : ∀ factors : Factors, (∀ k v, factors.get? k = some v → k ≠ 0 ∧ v ≠ 0) →
    test (.multiply factors) = true

namespace Admits

variable {test : Op → Bool} {p : Program}

theorem consEffective {o : Op} (ho : test o = true) (hp : p.allOps test = true) :
    (consEffective o p).allOps test = true := by
  rw [Program.consEffective]
  split
  · exact hp
  · exact (allOps_op o p).2 ⟨ho, hp⟩

theorem fuse (h : Admits test) : ∀ {p : Program}, p.allOps test = true →
    p.fuse.allOps test = true := by
  intro p
  induction p with
  | done => exact id
  | op o rest ih =>
      intro hp
      rw [allOps_op] at hp
      have hrest := ih hp.2
      rw [Program.fuse]
      cases hfuse : rest.fuse with
      | done => exact consEffective hp.1 rfl
      | loop body after =>
          rw [hfuse] at hrest
          exact consEffective hp.1 hrest
      | op first after =>
          rw [hfuse] at hrest
          rw [consFused]
          split
          next joined hj =>
            rw [allOps_op] at hrest
            exact consEffective (h.join hj hp.1 hrest.1) hrest.2
          next => exact consEffective hp.1 hrest
  | loop body rest _ ih =>
      intro hp
      rw [allOps_loop] at hp
      exact (allOps_loop _ _).2 ⟨hp.1, ih hp.2⟩

theorem clearHere (h : Admits test) : ∀ {p : Program}, p.allOps test = true →
    p.clearHere.allOps test = true := by
  intro p
  induction p with
  | done => exact id
  | op o rest ih =>
      intro hp
      rw [allOps_op] at hp
      exact (allOps_op _ _).2 ⟨hp.1, ih hp.2⟩
  | loop body rest _ ih =>
      intro hp
      rw [allOps_loop] at hp
      rw [Program.clearHere]
      split
      · exact (allOps_op _ _).2 ⟨h.setZero, ih hp.2⟩
      · exact (allOps_loop _ _).2 ⟨hp.1, ih hp.2⟩

/-- The factors of a multiply loop, and their offsets, are not zero. -/
theorem factors {body : Program} {factors : Factors} (h : Admits test)
    (hbody : body.factors? = some factors) : test (.multiply factors) = true := by
  apply h.multiply
  intro k v hv
  obtain ⟨totals, -, -, rfl⟩ := factors?_eq_some_iff.1 hbody
  rw [Factors.get?_filter, Option.filter_eq_some_iff] at hv
  simpa using hv.2

theorem multiplyHere (h : Admits test) : ∀ {p : Program}, p.allOps test = true →
    p.multiplyHere.allOps test = true := by
  intro p
  induction p with
  | done => exact id
  | op o rest ih =>
      intro hp
      rw [allOps_op] at hp
      exact (allOps_op _ _).2 ⟨hp.1, ih hp.2⟩
  | loop body rest _ ih =>
      intro hp
      rw [allOps_loop] at hp
      rw [Program.multiplyHere]
      split
      next factors hfactors => exact (allOps_op _ _).2 ⟨h.factors hfactors, ih hp.2⟩
      next => exact (allOps_loop _ _).2 ⟨hp.1, ih hp.2⟩

end Admits

/-- What is left of a sequence without its dead stores has operations of the sequence only. -/
theorem allOps_sweepFrom {test : Op → Bool} {p : Program} : ∀ {here : Int},
    p.allOps test = true → (sweepFrom here p).program.allOps test = true := by
  induction p with
  | done => exact id
  | op o rest ih =>
      intro here hp
      rw [allOps_op] at hp
      cases o with
      | shift amount => exact (allOps_op _ _).2 ⟨hp.1, ih hp.2⟩
      | input => exact (allOps_op _ _).2 ⟨hp.1, ih hp.2⟩
      | output => exact (allOps_op _ _).2 ⟨hp.1, ih hp.2⟩
      | multiply factors => exact (allOps_op _ _).2 ⟨hp.1, ih hp.2⟩
      | add amount offset =>
          simp only [sweepFrom]
          split
          · exact ih hp.2
          · exact (allOps_op _ _).2 ⟨hp.1, ih hp.2⟩
      | setZero =>
          simp only [sweepFrom]
          split
          · exact ih hp.2
          · exact (allOps_op _ _).2 ⟨hp.1, ih hp.2⟩
  | loop body rest _ ih =>
      intro here hp
      rw [allOps_loop] at hp
      exact (allOps_loop _ _).2 ⟨hp.1, ih hp.2⟩

theorem allOps_dropZeroLoops {test : Op → Bool} {p : Program} : ∀ {k : Known},
    p.allOps test = true → (p.dropZeroLoops k).allOps test = true := by
  induction p with
  | done => exact id
  | op o rest ih =>
      intro k hp
      rw [allOps_op] at hp
      rw [dropZeroLoops]
      split
      · exact ih hp.2
      · exact (allOps_op _ _).2 ⟨hp.1, ih hp.2⟩
  | loop body rest ihb ihr =>
      intro k hp
      rw [allOps_loop] at hp
      rw [dropZeroLoops]
      split
      · exact ihr hp.2
      · exact (allOps_loop _ _).2 ⟨ihb hp.1, ihr hp.2⟩

theorem allOps_apply {test : Op → Bool} (h : Admits test) (pass : Pass) {p : Program}
    (hp : p.allOps test = true) : (pass.apply p).allOps test = true := by
  cases pass with
  | merge => exact allOps_everywhere h.fuse hp
  | clear => exact allOps_everywhere h.clearHere hp
  | multiply => exact allOps_everywhere h.multiplyHere hp
  | dead => exact allOps_everywhere allOps_sweepFrom hp
  | zero => exact allOps_dropZeroLoops hp

/-- What enabled passes make of a program, one after the other. -/
theorem allOps_of_applies {test : Op → Bool} (h : Admits test) {F : PassSet} {p q : Program}
    (hp : p.allOps test = true) (hq : Relation.ReflTransGen F.Applies p q) :
    q.allOps test = true := by
  induction hq with
  | refl => exact hp
  | tail _ happlies ih =>
      rcases happlies with ⟨pass, -, rfl⟩
      exact allOps_apply h pass ih

theorem allOps_optimize {test : Op → Bool} (h : Admits test) {F : PassSet} {p q : Program}
    {log : List Event} (hq : F.optimize p = .ok (q, log)) (hp : p.allOps test = true) :
    q.allOps test = true :=
  allOps_of_applies h hp (F.applies_optimize hq)

end Program

/-! ## Source texts -/

namespace Source

/-- Every operation that has been read so far passes a test. -/
def Reading.Passes (test : Op → Bool) (r : Reading) : Prop :=
  r.program.allOps test = true ∧ ∀ e ∈ r.closings, e.2.allOps test = true

theorem Reading.Passes.cons {test : Op → Bool}
    (htest : ∀ c o, Op.ofChar? c = some o → test o = true) {r : Reading} (h : r.Passes test)
    (c : Char) (index : Nat) : (Reading.cons c index r).Passes test := by
  rcases h with ⟨hprogram, hclosings⟩
  simp only [Reading.cons]
  split
  next =>
    -- what has been read so far waits for the bracket that opens it
    refine ⟨rfl, ?_⟩
    intro e he
    rcases List.mem_cons.1 he with rfl | he
    · exact hprogram
    · exact hclosings e he
  next =>
    split
    next entry after closings heq =>
      rw [heq] at hclosings
      exact ⟨(Program.allOps_loop _ _).2 ⟨hprogram, hclosings _ List.mem_cons_self⟩,
        fun e he => hclosings e (List.mem_cons_of_mem _ he)⟩
    next => exact ⟨hprogram, fun e he => by cases he⟩
  next =>
    split
    next o ho => exact ⟨(Program.allOps_op _ _).2 ⟨htest _ o ho, hprogram⟩, hclosings⟩
    next => exact ⟨hprogram, hclosings⟩

/-- A test that lets the operations of the instruction characters through is passed by everything
that is read. -/
theorem allOps_parse {test : Op → Bool} (htest : ∀ c o, Op.ofChar? c = some o → test o = true)
    {source : String} {p : Program} (h : parse source = .ok p) : p.allOps test = true := by
  have hread : ∀ l : List (Char × Nat),
      (l.foldr (fun e r => r.cons e.1 e.2) Reading.empty).Passes test := by
    intro l
    induction l with
    | nil => exact ⟨rfl, fun e he => by cases he⟩
    | cons e rest ih => exact ih.cons htest e.1 e.2
  rw [parse, parseChars] at h
  split at h
  next =>
    cases h
    exact (hread _).1
  next => cases h

end Source

/-- No multiplication that the optimiser makes of a source text has a factor for the current
cell. -/
theorem sparesCurrent_optimize_parse {source : String} {F : PassSet} {p q : Program}
    {log : List Event} (hp : Source.parse source = .ok p) (hq : F.optimize p = .ok (q, log)) :
    q.allOps Op.sparesCurrent = true := by
  have hadmits : Program.Admits Op.sparesCurrent := by
    refine ⟨?_, rfl, ?_⟩
    · intro o o' joined hj _ _
      rcases Op.join?_eq_some hj with ⟨a, b, -, -, rfl⟩ | ⟨a, b, i, -, -, rfl⟩ <;> rfl
    intro factors h
    rw [Op.sparesCurrent, Option.isNone_iff_eq_none, Option.eq_none_iff_forall_ne_some]
    intro v hv
    exact (h 0 v hv).1 rfl
  have hchars : ∀ c o, Op.ofChar? c = some o → o.sparesCurrent = true := by
    intro c o ho
    simp only [Op.ofChar?] at ho
    split at ho <;> cases ho <;> rfl
  exact Program.allOps_optimize hadmits hq (Source.allOps_parse hchars hp)

end TapeLang
