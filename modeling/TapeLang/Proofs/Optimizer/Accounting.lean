import Mathlib.Algebra.Order.BigOperators.Group.List
import Mathlib.Algebra.Order.Ring.Nat
import Mathlib.Data.List.Chain
import TapeLang.Proofs.Optimizer.PassCalls
import TapeLang.Proofs.Optimizer.Shrinking
import TapeLang.Proofs.Optimizer.StoreRemoval

/-!
# The log accounts for the nodes

The log of the optimiser tells what has become of every node (`log_accounts_for_nodes`). Cut after
the event of each pass (`sections`), it consists of one report for each pass that has run. The
reports follow each other as the passes do in the rounds, each starts with as many nodes as the one
before it has left, and the nodes that a pass has removed agree with what it has found.

What a traversal finds it reports sequence by sequence, inner ones first, while the nodes are
counted in the whole program. The two are brought together by `nodeCount_everywhere`: the nodes that
are missing after a traversal are those that were taken from the single sequences.
-/

set_option autoImplicit false

namespace TapeLang

namespace Program

/-! ## The nodes that a pass removes -/

/-- The nodes that a traversal removes are those that it removes from the sequences it visits. -/
theorem nodeCount_everywhere {f : Program → Program} {cost : Program → Nat}
    (hf : ∀ s, s.nodeCount = (f s).nodeCount + cost s) (p : Program) :
    p.nodeCount = (p.everywhere f).nodeCount + ((p.visited f).map cost).sum := by
  have hbodies : p.nodeCount = (p.mapBodies f).nodeCount + ((p.visitedBodies f).map cost).sum := by
    induction p with
    | done => rfl
    | op o rest ih =>
        simp only [nodeCount, mapBodies_op, visitedBodies_op]
        omega
    | loop body rest ihbody ihrest =>
        -- the body is visited after its own bodies and before what follows the loop
        have hbody := hf (body.mapBodies f)
        simp only [nodeCount, mapBodies_loop, visitedBodies_loop, List.map_append, List.map_cons,
          List.sum_append, List.sum_cons]
        omega
  have hlast := hf (p.mapBodies f)
  simp only [everywhere, visited_eq, List.map_append, List.map_singleton, List.sum_append,
    List.sum_singleton]
  omega

/-- A clear loop has two nodes, and one is left. -/
theorem nodeCount_clearHere (s : Program) :
    s.nodeCount = s.clearHere.nodeCount + s.clearCount := by
  induction s with
  | done => rfl
  | op o rest ih =>
      simp only [nodeCount, clearHere, clearCount]
      omega
  | loop body rest _ ih =>
      rw [clearHere, clearCount]
      split
      next hclear =>
        have hbody : body.nodeCount = 1 := by
          rw [isClearBody.eq_def] at hclear
          split at hclear
          next => rfl
          next => cases hclear
        simp only [nodeCount]
        omega
      next =>
        simp only [nodeCount]
        omega

/-- A multiply loop has at least two nodes, and one is left. -/
theorem nodeCount_multiplyHere (s : Program) :
    s.multiplyHere.nodeCount + s.multiplyTargets.length ≤ s.nodeCount := by
  induction s with
  | done => exact Nat.le_refl 0
  | op o rest ih =>
      simp only [nodeCount, multiplyHere, multiplyTargets]
      omega
  | loop body rest _ ih =>
      rw [multiplyHere, multiplyTargets]
      split
      next factors hfactors =>
        have hbody : 0 < body.nodeCount := by
          cases body with
          | done => simp [factors?, tally?] at hfactors
          | op o after =>
              simp only [nodeCount]
              omega
          | loop inner after =>
              simp only [nodeCount]
              omega
        simp only [nodeCount, List.length_cons]
        omega
      next =>
        simp only [nodeCount]
        omega

/-- Of the nodes that go with the multiply loops each loop has at least one. -/
theorem nodeCount_multiplyLoops (p : Program) :
    p.multiplyLoops.nodeCount +
      ((p.visited multiplyHere).map fun s => s.multiplyTargets.length).sum ≤ p.nodeCount := by
  have hcost : ∀ s : Program, s.nodeCount = s.multiplyHere.nodeCount +
      (s.nodeCount - s.multiplyHere.nodeCount) := by
    intro s
    have hsequence := nodeCount_multiplyHere s
    omega
  rw [nodeCount_everywhere hcost p]
  apply Nat.add_le_add_left
  apply List.sum_le_sum
  intro s _
  have hsequence := nodeCount_multiplyHere s
  omega

/-- Every dead store is one node, and a sweep removes nothing else. -/
theorem nodeCount_sweep (s : Program) : s.nodeCount = s.sweep.nodeCount + s.deadStoreCount :=
  size_sweepFrom nodeCount (fun _ _ => rfl) (fun _ _ => rfl) s 0

/-- Whatever is dropped has at least one node. -/
theorem nodeCount_dropZeroLoops (p : Program) : ∀ k : Known,
    (p.dropZeroLoops k).nodeCount + p.zeroLoopCount k ≤ p.nodeCount := by
  induction p with
  | done => exact fun _ => Nat.le_refl 0
  | op o rest ih =>
      intro k
      rw [dropZeroLoops, zeroLoopCount]
      split
      next =>
        have hrest := ih k
        simp only [nodeCount]
        omega
      next =>
        have hrest := ih (k.after o)
        simp only [nodeCount]
        omega
  | loop body rest ihbody ihrest =>
      intro k
      rw [dropZeroLoops, zeroLoopCount]
      split
      next =>
        have hrest := ihrest k
        simp only [nodeCount]
        omega
      next =>
        have hbody := ihbody .nothing
        have hrest := ihrest .zeroed
        simp only [nodeCount]
        omega

end Program

/-! ## Reports -/

namespace Event

/-- The pass that has run, with the nodes before and after it. -/
def ran? : Event → Option (Pass × Nat × Nat)
  | ran pass before after => some (pass, before, after)
  | _ => none

/-- A multiply loop was replaced. -/
def isMultiplyLoop : Event → Bool
  | multiplyLoop _ => true
  | _ => false

/-- The number of dead stores that were removed from a sequence. -/
def removed : Event → Nat
  | deadStores removed => removed
  | _ => 0

end Event

/-- What a log says of a pass: the events since the pass before it, and its own event. -/
structure Report where
  findings : List Event
  pass : Pass
  before : Nat
  after : Nat

namespace Report

/-- The nodes that the pass has removed agree with what it has found. A clear loop is one node less,
and so is a dead store. A multiply loop is at least one node less, and so is a loop on a zero cell.
Merging finds nothing. -/
def Balances (r : Report) : Prop :=
  match r.pass with
  | .merge => r.findings = [] ∧ r.after ≤ r.before
  | .clear => r.before = r.after + r.findings.count .clearLoop
  | .multiply => r.after + r.findings.countP Event.isMultiplyLoop ≤ r.before
  | .dead => r.before = r.after + (r.findings.map Event.removed).sum
  | .zero => r.after + r.findings.count .zeroLoop ≤ r.before

end Report

/-- A log cut after the event of each pass: the reports of the passes, and the events after the last
of them. The events `findings` have been read since the last cut. -/
def sections (findings : List Event) : List Event → List Report × List Event
  | [] => ([], findings)
  | e :: log =>
      match e.ran? with
      | some (pass, before, after) =>
          let r := sections [] log
          (⟨findings, pass, before, after⟩ :: r.1, r.2)
      | none => sections (findings ++ [e]) log

/-- The reports of a log. -/
def reports (log : List Event) : List Report := (sections [] log).1

/-- The events of a log after the last pass. -/
def afterReports (log : List Event) : List Event := (sections [] log).2

/-- Events that are not those of a pass wait for the next pass. -/
theorem sections_of_findings {events : List Event} (h : ∀ e ∈ events, e.ran? = none) :
    ∀ (findings log : List Event),
      sections findings (events ++ log) = sections (findings ++ events) log := by
  induction events with
  | nil =>
      intro findings log
      rw [List.nil_append, List.append_nil]
  | cons e events ih =>
      intro findings log
      obtain ⟨hfirst, hrest⟩ := List.forall_mem_cons.1 h
      rw [List.cons_append, sections, hfirst]
      simp only [ih hrest, List.append_assoc, List.singleton_append]

/-! ## What the passes find -/

namespace Pass

open Program

/-- Among what a pass finds there is no pass that has run. -/
theorem ran?_of_mem_findings {pass : Pass} {p : Program} {e : Event} (h : e ∈ pass.findings p) :
    e.ran? = none := by
  cases pass with
  | merge => cases h
  | clear =>
      obtain ⟨s, -, he⟩ := List.mem_flatMap.1 h
      rw [List.eq_of_mem_replicate he]
      rfl
  | multiply =>
      obtain ⟨s, -, he⟩ := List.mem_flatMap.1 h
      obtain ⟨targets, -, rfl⟩ := List.mem_map.1 he
      rfl
  | dead =>
      obtain ⟨s, -, he⟩ := List.mem_flatMap.1 h
      split at he
      next => cases he
      next =>
        rw [List.mem_singleton.1 he]
        rfl
  | zero =>
      rw [List.eq_of_mem_replicate h]
      rfl

theorem count_findings_clear (p : Program) :
    (clear.findings p).count .clearLoop = ((p.visited clearHere).map clearCount).sum := by
  rw [findings, List.count_flatMap]
  simp [Function.comp_def]

theorem countP_findings_multiply (p : Program) :
    (multiply.findings p).countP Event.isMultiplyLoop =
      ((p.visited multiplyHere).map fun s => s.multiplyTargets.length).sum := by
  rw [findings, List.countP_flatMap]
  simp [Function.comp_def, Event.isMultiplyLoop]

theorem sum_findings_dead (p : Program) :
    ((dead.findings p).map Event.removed).sum =
      ((p.visited sweep).map deadStoreCount).sum := by
  rw [findings, List.map_flatMap, List.flatMap_def, List.sum_flatten, List.map_map]
  -- a sequence without a dead store has no event, and adds nothing to the sum either
  congr 2
  funext s
  simp only [Function.comp_def]
  split
  next hzero =>
    rw [hzero]
    rfl
  next => rfl

end Pass

namespace PassCall

open Program

/-- The report of a call. -/
def report (c : PassCall) : Report :=
  ⟨c.pass.findings c.given, c.pass, c.given.nodeCount, c.returned.nodeCount⟩

/-- The log of some calls is cut into their reports. -/
theorem sections_log {ending : List Event} (hending : ∀ e ∈ ending, e.ran? = none)
    (calls : List PassCall) :
    sections [] (calls.flatMap log ++ ending) = (calls.map report, ending) := by
  induction calls with
  | nil =>
      have hsections := sections_of_findings hending [] []
      rw [List.append_nil] at hsections
      exact hsections
  | cons c calls ih =>
      -- what the pass has found is read first, then its own event closes the report
      rw [List.flatMap_cons, log, List.append_assoc, List.append_assoc,
        sections_of_findings fun e he => Pass.ran?_of_mem_findings he, List.nil_append,
        List.singleton_append, sections]
      simp only [Event.ran?, ih, List.map_cons, report]

/-- What a pass has found agrees with the nodes that it has removed. -/
theorem balances_report {c : PassCall} (h : c.returned = c.pass.apply c.given) :
    c.report.Balances := by
  obtain ⟨pass, p, q⟩ := c
  dsimp only at h
  subst h
  cases pass with
  | merge => exact ⟨rfl, (shrunk_apply .merge p).nodeCount_le⟩
  | clear =>
      have hcount := nodeCount_everywhere nodeCount_clearHere p
      rw [← Pass.count_findings_clear] at hcount
      exact hcount
  | multiply =>
      have hcount := nodeCount_multiplyLoops p
      rw [← Pass.countP_findings_multiply] at hcount
      exact hcount
  | dead =>
      have hcount := nodeCount_everywhere nodeCount_sweep p
      rw [← Pass.sum_findings_dead] at hcount
      exact hcount
  | zero =>
      show p.removeZeroLoops.nodeCount + (List.replicate _ Event.zeroLoop).count _ ≤ _
      rw [List.count_replicate_self]
      exact nodeCount_dropZeroLoops p .fresh

/-- Each call is given what the one before it has returned. -/
theorem Leads.isChain {q : Program} : ∀ {calls : List PassCall} {p : Program}, Leads p calls q →
    calls.IsChain fun c c' => c'.given = c.returned := by
  intro calls
  induction calls with
  | nil => exact fun _ => .nil
  | cons c calls ih =>
      rintro p ⟨-, -, hrest⟩
      cases calls with
      | nil => exact .singleton c
      | cons c' calls => exact .cons_cons hrest.1 (ih hrest)

theorem Leads.head? {p q : Program} {calls : List PassCall} (h : Leads p calls q)
    (hcalls : calls ≠ []) : ∃ c, calls.head? = some c ∧ c.given = p := by
  cases calls with
  | nil => exact absurd rfl hcalls
  | cons c calls => exact ⟨c, rfl, h.1⟩

theorem Leads.getLast? {q : Program} : ∀ {calls : List PassCall} {p : Program}, Leads p calls q →
    calls ≠ [] → ∃ c, calls.getLast? = some c ∧ c.returned = q := by
  intro calls
  induction calls with
  | nil => exact fun _ hcalls => absurd rfl hcalls
  | cons c calls ih =>
      rintro p ⟨-, -, hrest⟩ -
      cases calls with
      | nil => exact ⟨c, rfl, hrest.symm⟩
      | cons c' calls => exact ih hrest (List.cons_ne_nil _ _)

end PassCall

/-! ## The log of the optimiser -/

namespace PassSet

variable {F : PassSet} {p q : Program} {log : List Event}

theorem ran?_of_ends {count : Nat} {ending : List Event} (h : Ends count q ending) :
    ∀ e ∈ ending, e.ran? = none := by
  rcases h with rfl | ⟨-, rfl⟩
  · simp [Event.ran?]
  · simp [Event.ran?]

theorem passes_ne_nil (hF : F ≠ empty) : F.passes ≠ [] := by
  intro hpasses
  apply hF
  have hnone : ∀ pass, F.contains pass = false := by
    intro pass
    rw [Bool.eq_false_iff]
    intro henabled
    have hmem := mem_passes_of_contains henabled
    rw [hpasses] at hmem
    cases hmem
  obtain ⟨merge, clear, multiply, dead, zero⟩ := F
  simp only [empty, mk.injEq]
  exact ⟨hnone .merge, hnone .clear, hnone .multiply, hnone .dead, hnone .zero⟩

theorem flatten_rounds_ne_nil (hF : F ≠ empty) (hrounds : F.rounds p ≠ []) :
    (F.rounds p).flatten ≠ [] := by
  obtain ⟨round, hround⟩ := List.exists_mem_of_ne_nil _ hrounds
  intro hflatten
  have hnil : round = [] := List.flatten_eq_nil_iff.1 hflatten round hround
  have hpasses := map_pass_of_mem_rounds hround
  rw [hnil] at hpasses
  exact passes_ne_nil hF hpasses.symm

/-- The log accounts for every node. Its reports are those of the enabled passes, in their order and
once in each of the rounds, whose number and result the end of the log tells. The first report
starts with the nodes of the program, each other one with the nodes that the one before it has left,
and the last one leaves the nodes of the result. In every report the nodes that are gone agree with
what the pass has found. -/
theorem log_accounts_for_nodes (hF : F ≠ empty) (h : F.optimize p = .ok (q, log)) :
    ∃ count, (reports log).map Report.pass = (List.replicate count F.passes).flatten ∧
      Ends count q (afterReports log) ∧
      (reports log).head?.map Report.before = some p.nodeCount ∧
      (reports log).IsChain (fun r r' => r'.before = r.after) ∧
      (reports log).getLast?.map Report.after = some q.nodeCount ∧
      ∀ r ∈ reports log, r.Balances := by
  obtain ⟨hrounds, hleads, ending, hends, rfl⟩ := rounds_of_optimize hF h
  have hcalls := flatten_rounds_ne_nil hF hrounds
  rw [reports, afterReports, PassCall.sections_log (ran?_of_ends hends)]
  refine ⟨(F.rounds p).length, ?_, hends, ?_, ?_, ?_, ?_⟩
  · have hpasses : (F.rounds p).map (List.map PassCall.pass) =
        List.replicate (F.rounds p).length F.passes :=
      List.map_eq_replicate_iff.2 fun round => map_pass_of_mem_rounds
    rw [← hpasses, ← List.map_flatten, List.map_map]
    rfl
  · obtain ⟨c, hhead, hgiven⟩ := hleads.head? hcalls
    rw [List.head?_map, hhead, ← hgiven]
    rfl
  · apply List.isChain_map_of_isChain _ _ hleads.isChain
    intro c c' hgiven
    rw [PassCall.report, hgiven]
    rfl
  · obtain ⟨c, hlast, hreturned⟩ := hleads.getLast? hcalls
    rw [List.getLast?_map, hlast, ← hreturned]
    rfl
  · intro r hr
    obtain ⟨c, hc, rfl⟩ := List.mem_map.1 hr
    exact PassCall.balances_report (Pass.eq_apply_of_run (hleads.run_of_mem hc))

/-- A cell is read and moved to the next, a clear loop runs on what is left of it, and after one
more addition another does. -/
def emptying : Program :=
  .op .input (.loop (.op (.add (-1) 0) (.op (.add 3 1) .done))
    (.loop (.op (.add (-1) 0) .done) (.op (.add 1 0) (.loop (.op (.add (-1) 0) .done)
      (.op (.shift 1) (.op .output .done))))))

/-- In two rounds eleven nodes become four. Two of them go with the clear loops, two with the
multiply loop, two are dead stores, and one runs on a zero cell. -/
theorem log_accounts_for_nodes_emptying :
    ∃ q log count, PassSet.all ≠ empty ∧ PassSet.all.optimize emptying = .ok (q, log) ∧
      emptying.nodeCount = 11 ∧ q.nodeCount = 4 ∧
      (reports log).map Report.pass = (List.replicate count PassSet.all.passes).flatten ∧
      Ends count q (afterReports log) ∧ afterReports log = [.fixedPoint 2 4, .settled q.summary] ∧
      (reports log).head?.map Report.before = some 11 ∧
      (reports log).IsChain (fun r r' => r'.before = r.after) ∧
      (reports log).getLast?.map Report.after = some 4 ∧
      (reports log).take 5 = [⟨[], .merge, 11, 11⟩, ⟨[.clearLoop, .clearLoop], .clear, 11, 9⟩,
        ⟨[.multiplyLoop 1], .multiply, 9, 7⟩, ⟨[.deadStores 2], .dead, 7, 5⟩,
        ⟨[.zeroLoop], .zero, 5, 4⟩] ∧
      ∀ r ∈ reports log, r.Balances := by
  have hnonempty : PassSet.all ≠ empty := by decide
  have hoptimize : PassSet.all.optimize emptying = .ok (_, _) := rfl
  obtain ⟨count, hpasses, hends, hfirst, hchain, hlast, hbalances⟩ :=
    log_accounts_for_nodes hnonempty hoptimize
  exact ⟨_, _, count, hnonempty, hoptimize, rfl, rfl, hpasses, hends, rfl, hfirst, hchain, hlast,
    rfl, hbalances⟩

end PassSet

end TapeLang
