import TapeLang.Proofs.Optimizer.Rounds

/-!
# The passes that the optimiser runs

`rounds` lists what the optimiser does with a program: for each round the passes that it runs, each
with the program that the pass is given and the program that it returns. The list is faithful to
`optimize` (`rounds_of_optimize`): the passes lead from the program to the result, each of them run
on what the one before it has returned, and the log consists of what the single calls log, in order,
and of how the rounds ended.
-/

set_option autoImplicit false

namespace TapeLang

/-- A pass, the program that it was given and the program that it returned. -/
structure PassCall where
  pass : Pass
  given : Program
  returned : Program
  deriving DecidableEq

namespace PassCall

/-- What is logged of a call: what the pass found, then that it has run. -/
def log (c : PassCall) : List Event :=
  c.pass.findings c.given ++ [.ran c.pass c.given.nodeCount c.returned.nodeCount]

/-- The calls lead from one program to another: each pass is run, without an overflow, on what the
pass before it has returned. -/
def Leads : Program → List PassCall → Program → Prop
  | p, [], q => q = p
  | p, c :: calls, q =>
      c.given = p ∧ c.pass.run p = .ok (c.returned, c.log) ∧ Leads c.returned calls q

theorem Leads.append {calls' : List PassCall} {q r : Program} (h' : Leads q calls' r) :
    ∀ {calls : List PassCall} {p : Program}, Leads p calls q → Leads p (calls ++ calls') r := by
  intro calls
  induction calls with
  | nil =>
      intro p h
      cases h
      exact h'
  | cons c calls ih =>
      rintro p ⟨hgiven, hrun, hrest⟩
      exact ⟨hgiven, hrun, ih hrest⟩

/-- Every one of the calls has been made. -/
theorem Leads.run_of_mem {q : Program} {c : PassCall} : ∀ {calls : List PassCall} {p : Program},
    Leads p calls q → c ∈ calls → c.pass.run c.given = .ok (c.returned, c.log) := by
  intro calls
  induction calls with
  | nil => exact fun _ hmem => absurd hmem List.not_mem_nil
  | cons first calls ih =>
      rintro p ⟨rfl, hrun, hrest⟩ hmem
      rcases List.mem_cons.1 hmem with rfl | hmem
      · exact hrun
      · exact ih hrest hmem

end PassCall

open PassCall (Leads)

namespace Pass

/-- The calls of several passes, one after the other. -/
def calls : List Pass → Program → List PassCall
  | [], _ => []
  | pass :: passes, p => ⟨pass, p, pass.apply p⟩ :: calls passes (pass.apply p)

/-- What several passes make of a program, one after the other. -/
def applyAll : List Pass → Program → Program
  | [], p => p
  | pass :: passes, p => applyAll passes (pass.apply p)

theorem map_pass_calls (passes : List Pass) : ∀ p : Program,
    (calls passes p).map PassCall.pass = passes := by
  induction passes with
  | nil => exact fun _ => rfl
  | cons pass passes ih =>
      intro p
      rw [calls, List.map_cons, ih]

theorem log_of_run {pass : Pass} {p q : Program} {log : List Event}
    (h : pass.run p = .ok (q, log)) : log = PassCall.log ⟨pass, p, q⟩ := by
  rw [run] at h
  split at h
  next =>
    cases h
    rfl
  next => cases h

/-- Passes that return a program have made these calls, and have logged what the calls log. -/
theorem calls_of_runPasses (passes : List Pass) : ∀ {p q : Program} {log : List Event},
    runPasses passes p = .ok (q, log) →
      q = applyAll passes p ∧ Leads p (calls passes p) q ∧
        log = (calls passes p).flatMap PassCall.log := by
  induction passes with
  | nil =>
      intro p q log h
      cases h
      exact ⟨rfl, rfl, rfl⟩
  | cons pass passes ih =>
      intro p q log h
      obtain ⟨p₁, log₁, log₂, hrun, hrest, rfl⟩ := runPasses_cons_eq_ok_iff.1 h
      obtain rfl := eq_apply_of_run hrun
      obtain rfl := log_of_run hrun
      obtain ⟨hq, hleads, rfl⟩ := ih hrest
      exact ⟨hq, ⟨rfl, hrun, hleads⟩, rfl⟩

end Pass

namespace PassSet

/-- The calls of the rounds that the optimiser runs, if at most `more` follow the first. -/
def roundsFrom (F : PassSet) : (more : Nat) → Program → List (List PassCall)
  | 0, p => [Pass.calls F.passes p]
  | more + 1, p =>
      if Pass.applyAll F.passes p = p then [Pass.calls F.passes p]
      else Pass.calls F.passes p :: F.roundsFrom more (Pass.applyAll F.passes p)

/-- The calls that the optimiser makes, round by round. -/
def rounds (F : PassSet) (p : Program) : List (List PassCall) :=
  if F = empty then [] else F.roundsFrom (maxRounds - 1) p

theorem map_pass_of_mem_roundsFrom {F : PassSet} {round : List PassCall} (more : Nat) :
    ∀ {p : Program}, round ∈ F.roundsFrom more p → round.map PassCall.pass = F.passes := by
  induction more with
  | zero =>
      intro p h
      rw [List.mem_singleton.1 h]
      exact Pass.map_pass_calls _ _
  | succ more ih =>
      intro p h
      rw [roundsFrom] at h
      split at h
      next =>
        rw [List.mem_singleton.1 h]
        exact Pass.map_pass_calls _ _
      next =>
        rcases List.mem_cons.1 h with rfl | h
        · exact Pass.map_pass_calls _ _
        · exact ih h

/-- In every round the enabled passes are run, in their order. -/
theorem map_pass_of_mem_rounds {F : PassSet} {p : Program} {round : List PassCall}
    (h : round ∈ F.rounds p) : round.map PassCall.pass = F.passes := by
  rw [rounds] at h
  split at h
  next => cases h
  next => exact map_pass_of_mem_roundsFrom _ h

/-- How a log ends after so many rounds: with the round that changed nothing and the program that is
returned, or because no more rounds are allowed. -/
def Ends (count : Nat) (q : Program) (ending : List Event) : Prop :=
  ending = [.fixedPoint count q.nodeCount, .settled q.summary] ∨
    count = maxRounds ∧ ending = [.gaveUp maxRounds]

/-- The rounds that are left lead to the result. By induction on how many may follow, with the
number of rounds that lie before them. -/
theorem rounds_of_settle {F : PassSet} (more : Nat) :
    ∀ {before : Nat} {p q : Program} {log : List Event},
      F.settle more (before + 1) p = .ok (q, log) → before + more + 1 = maxRounds →
      Leads p (F.roundsFrom more p).flatten q ∧
        ∃ ending, Ends (before + (F.roundsFrom more p).length) q ending ∧
          log = (F.roundsFrom more p).flatten.flatMap PassCall.log ++ ending := by
  induction more with
  | zero =>
      intro before p q log h hcount
      obtain ⟨log₁, hround, rfl⟩ := settle_zero_eq_ok_iff.1 h
      obtain ⟨-, hleads, rfl⟩ := Pass.calls_of_runPasses F.passes hround
      simp only [roundsFrom, List.flatten_singleton, List.length_singleton]
      exact ⟨hleads, _, Or.inr ⟨hcount, rfl⟩, rfl⟩
  | succ more ih =>
      intro before p q log h hcount
      obtain ⟨p₁, log₁, hround, hend⟩ := settle_succ_eq_ok_iff.1 h
      obtain ⟨rfl, hleads, rfl⟩ := Pass.calls_of_runPasses F.passes hround
      rw [roundsFrom]
      rcases hend with ⟨heq, rfl, rfl⟩ | ⟨hne, log₂, hrest, rfl⟩
      · -- the round has changed nothing: it is the last one, and its number is logged
        rw [heq] at hleads
        rw [if_pos heq]
        simp only [List.flatten_singleton, List.length_singleton]
        exact ⟨hleads, _, Or.inl rfl, rfl⟩
      · obtain ⟨hleads', ending, hends, rfl⟩ := ih hrest (by omega)
        rw [if_neg hne, List.flatten_cons, List.flatMap_append, List.length_cons]
        refine ⟨hleads'.append hleads, ending, ?_, ?_⟩
        · rw [Nat.add_right_comm, Nat.add_assoc] at hends
          exact hends
        · rw [List.append_assoc]

theorem roundsFrom_ne_nil (F : PassSet) (more : Nat) (p : Program) : F.roundsFrom more p ≠ [] := by
  cases more with
  | zero => exact List.cons_ne_nil _ _
  | succ more =>
      rw [roundsFrom]
      split <;> exact List.cons_ne_nil _ _

/-- The calls lead from the program to the result, and the log tells of them in order and then of
how the rounds ended. -/
theorem rounds_of_optimize {F : PassSet} {p q : Program} {log : List Event} (hF : F ≠ empty)
    (h : F.optimize p = .ok (q, log)) :
    F.rounds p ≠ [] ∧ Leads p (F.rounds p).flatten q ∧
      ∃ ending, Ends (F.rounds p).length q ending ∧
        log = (F.rounds p).flatten.flatMap PassCall.log ++ ending := by
  rw [optimize, if_neg hF] at h
  rw [rounds, if_neg hF]
  have hsettle : F.settle (maxRounds - 1) (0 + 1) p = .ok (q, log) := h
  obtain ⟨hleads, ending, hends, hlog⟩ := rounds_of_settle _ hsettle rfl
  rw [Nat.zero_add] at hends
  exact ⟨F.roundsFrom_ne_nil _ p, hleads, ending, hends, hlog⟩

/-- Without a pass there is no call, and the result is the program itself. -/
theorem leads_of_optimize {F : PassSet} {p q : Program} {log : List Event}
    (h : F.optimize p = .ok (q, log)) : Leads p (F.rounds p).flatten q := by
  by_cases hF : F = empty
  · rw [optimize, if_pos hF] at h
    cases h
    rw [rounds, if_pos hF]
    rfl
  · exact (rounds_of_optimize hF h).2.1

end PassSet

end TapeLang
