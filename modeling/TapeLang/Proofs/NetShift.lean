import TapeLang.Proofs.BigStep
import TapeLang.Proofs.HighestCell
import TapeLang.Proofs.Nodes
import TapeLang.Proofs.Optimizer.TapeNeed

/-!
# The net shift of a program is exact

The search for the net shift goes through every body once, and a run through a body as often as the
data say. They agree (`netShift_exact`): where there is a net shift, every run that completes ends
that far from where it started. There is none exactly if some body, at any depth, does not come back
to where it is entered.

A run that completes is a derivation (`BigStep`), and the proof is by induction on it. A round of a
loop is one of its parts, and so is the same loop after that round, so the number of rounds does not
matter.
-/

set_option autoImplicit false

namespace TapeLang

namespace Program

/-- There is a net shift exactly if every body comes back to where it is entered. -/
theorem netShift?_ne_none_iff (p : Program) :
    p.netShift? ≠ none ↔ ∀ body ∈ p.bodies, body.netShift? = some 0 := by
  induction p with
  | done => exact ⟨fun _ _ hmem => absurd hmem List.not_mem_nil, fun _ => Option.some_ne_none 0⟩
  | op o rest ih => rw [netShift?_op, ne_eq, Option.map_eq_none_iff, ← ne_eq, ih, bodies]
  | loop body rest ihbody ihrest =>
      have hmem : (∀ b ∈ (loop body rest).bodies, b.netShift? = some 0) ↔
          body.netShift? = some 0 ∧ (∀ b ∈ body.bodies, b.netShift? = some 0) ∧
            ∀ b ∈ rest.bodies, b.netShift? = some 0 := by
        rw [bodies, List.cons_append, List.forall_mem_cons, List.forall_mem_append]
      rw [hmem, netShift?]
      split
      next hbody =>
        -- the body has a net shift, so the bodies inside it come back too
        have hinner := ihbody.1 (by rw [hbody]; exact Option.some_ne_none 0)
        rw [ihrest]
        exact ⟨fun hrest => ⟨hbody, hinner, hrest⟩, fun hall => hall.2.2⟩
      next hbody => exact ⟨fun hnone => absurd rfl hnone, fun hall => absurd hall.1 hbody⟩

theorem netShift?_eq_none_iff (p : Program) :
    p.netShift? = none ↔ ∃ body ∈ p.bodies,
      body.netShift? = none ∨ ∃ d, body.netShift? = some d ∧ d ≠ 0 := by
  have hmoves : ∀ b : Program, b.netShift? ≠ some 0 ↔
      b.netShift? = none ∨ ∃ d, b.netShift? = some d ∧ d ≠ 0 := by
    intro b
    cases b.netShift? <;> simp
  have hiff := not_congr p.netShift?_ne_none_iff
  rw [not_ne_iff] at hiff
  simp only [hiff, ← hmoves, not_forall, exists_prop, ne_eq]

/-- Where the sums from left to right fit in a word and stop without an answer, they stop at a body
whose own sums fit and which does not come back. -/
theorem body_of_shiftScan_none {p : Program} : ∀ {total : Int}, p.shiftScan total = (none, true) →
    ∃ body ∈ p.bodies, (body.shiftScan 0).2 = true ∧ body.netShift? ≠ some 0 := by
  induction p with
  | done =>
      intro total h
      cases h
  | op o rest ih =>
      intro total h
      cases o with
      | shift amount =>
          rw [shiftScan, Prod.mk.injEq, Bool.and_eq_true] at h
          exact ih (Prod.ext h.1 h.2.2)
      | _ => exact ih h
  | loop body rest _ ih =>
      intro total h
      rw [shiftScan] at h
      have hscan := body.shiftScan_fst 0
      split at h
      next =>
        rw [Prod.mk.injEq, Bool.and_eq_true] at h
        obtain ⟨b, hb, hmoves⟩ := ih (Prod.ext h.1 h.2.2)
        exact ⟨b, mem_bodies_loop.2 (Or.inr (Or.inr hb)), hmoves⟩
      next hmoves =>
        refine ⟨body, mem_bodies_loop.2 (Or.inl rfl), (Prod.mk.inj h).2, ?_⟩
        intro hzero
        rw [hzero] at hscan
        exact hmoves hscan

end Program

namespace Machine

variable {σ : Type} {D : Device σ}

/-- A program that ends with a machine has moved the pointer by its net shift. -/
theorem BigStep.pointer_eq {p : Program} {s : State σ} {n : Nat} {x : Step σ}
    (h : BigStep D p s n x) : ∀ {d : Int} {t : State σ}, p.netShift? = some d → x = .next t →
      (t.tape.pointer : Int) = s.tape.pointer + d := by
  induction h with
  | done s =>
      intro d t hd heq
      cases hd
      cases heq
      rw [Int.add_zero]
  | op first _ ih =>
      intro d t hd heq
      rw [Program.netShift?_op, Option.map_eq_some_iff] at hd
      obtain ⟨d', hd', rfl⟩ := hd
      rw [ih hd' heq, pointer_of_exec first, Int.add_assoc]
  | op_failed =>
      intro d t _ heq
      cases heq
  | loop_left _ _ ih =>
      intro d t hd heq
      exact ih (Program.netShift?_loop hd).2 heq
  | loop_entered _ _ _ ihround ihagain =>
      intro d t hd heq
      -- the round ends where it began, and the same loop goes on from there
      rw [ihagain hd heq, ihround (Program.netShift?_loop hd).1 rfl, Int.add_zero]
  | loop_failed =>
      intro d t _ heq
      cases heq

/-- A run that completes within its limit is a run without a limit. -/
theorem halts_of_run_completed {p : Program} {s t : State σ} {fuel n : Nat} {limit : Option Nat}
    (h : run D fuel limit p s = some ⟨.ok (.completed n), t⟩) :
    Halts D p s ⟨.ok (.completed n), t⟩ := by
  cases limit with
  | none => exact ⟨fuel, h⟩
  | some m =>
      refine ⟨m, ?_⟩
      cases hadvance : advance D m 0 [p] s with
      | completed k u =>
          rw [run_of_completed hadvance] at h
          rwa [run_of_completed hadvance]
      | failed fault k u =>
          rw [run_of_failed hadvance] at h
          cases h
      | suspended frames k u =>
          -- a run that has been cut off says so, or its last flush has failed
          rw [run_some_of_suspended hadvance, Option.some.injEq] at h
          rcases conclude_result (D := D) (.outOfSteps k) u with hresult | ⟨e, hresult⟩ <;>
            rw [h] at hresult <;> cases hresult

/-- A run that completes has moved the pointer by the net shift of its program. -/
theorem pointer_of_halts {p : Program} {s t : State σ} {n : Nat} {d : Int}
    (h : Halts D p s ⟨.ok (.completed n), t⟩) (hd : p.netShift? = some d) :
    (t.tape.pointer : Int) = s.tape.pointer + d := by
  obtain ⟨u, hu, hend⟩ := (halts_completed_iff p s t n).1 h
  -- the flush at the end leaves the tape alone
  have htape := tape_conclude (D := D) (.completed n) u
  rw [hend] at htape
  rw [htape]
  exact hu.pointer_eq hd rfl

/-- The net shift of a program is exact. Where there is one, every run that completes ends that far
from where it started: on every device, from every tape and pointer, with a step limit or without.
There is none exactly if some loop, at any depth, has a body whose own net shift is unknown or not
zero. The sums that are formed from left to right give the same answer, and where they fit in a word
and give none, so do those of such a body. -/
theorem netShift_exact (D : Device σ) (p : Program) (s : State σ) :
    (∀ d, p.netShift? = some d → ∀ fuel limit n t,
      run D fuel limit p s = some ⟨.ok (.completed n), t⟩ →
        (t.tape.pointer : Int) = s.tape.pointer + d) ∧
    (p.netShift? = none ↔ ∃ body ∈ p.bodies,
      body.netShift? = none ∨ ∃ d, body.netShift? = some d ∧ d ≠ 0) ∧
    (p.shiftScan 0).1 = p.netShift? ∧
    (p.shiftScan 0 = (none, true) →
      ∃ body ∈ p.bodies, (body.shiftScan 0).2 = true ∧ body.netShift? ≠ some 0) := by
  refine ⟨?_, p.netShift?_eq_none_iff, ?_, Program.body_of_shiftScan_none⟩
  · intro d hd fuel limit n t hrun
    exact pointer_of_halts (halts_of_run_completed hrun) hd
  · rw [Program.shiftScan_fst]
    simp

/-- Two cells to the right, two nested loops that come back, and one cell to the left. -/
def carrying : Program :=
  .op (.shift 2) (.loop (.op (.shift (-1)) (.op (.add 1 0)
    (.loop (.op (.add (-1) 0) (.op (.shift 3) (.op (.add 1 0) (.op (.shift (-3)) .done))))
      (.op (.shift 1) (.op (.add (-1) 0) .done))))) (.op (.shift (-1)) .done))

/-- A loop whose body comes back, but for a loop inside it that looks for a zero. -/
def seeking : Program :=
  .loop (.op (.shift 1) (.loop (.op (.shift 1) .done) (.op (.shift (-1)) .done))) .done

/-- Two rounds of the outer loop lead one cell to the right, as the search says. Where a loop looks
for a zero the search says nothing. -/
theorem netShift_exact_carrying :
    carrying.shiftScan 0 = (some 1, true) ∧
      run Buffers.device 30 none carrying ⟨⟨#[0, 0, 0, 2], 1⟩, ⟨[], #[]⟩⟩ =
        some ⟨.ok (.completed 25), ⟨⟨#[0, 0, 0, 0, 0, 2], 2⟩, ⟨[], #[]⟩⟩⟩ ∧
      (((⟨#[0, 0, 0, 0, 0, 2], 2⟩ : Tape).pointer : Int) =
        (⟨#[0, 0, 0, 2], 1⟩ : Tape).pointer + 1) ∧
      seeking.netShift? = none ∧
      ∃ body ∈ seeking.bodies, (body.shiftScan 0).2 = true ∧ body.netShift? ≠ some 0 := by
  have hscan : carrying.shiftScan 0 = (some 1, true) := by decide
  have hrun : run Buffers.device 30 none carrying ⟨⟨#[0, 0, 0, 2], 1⟩, ⟨[], #[]⟩⟩ =
      some ⟨.ok (.completed 25), ⟨⟨#[0, 0, 0, 0, 0, 2], 2⟩, ⟨[], #[]⟩⟩⟩ := rfl
  obtain ⟨hexact, -, hanswer, -⟩ :=
    netShift_exact Buffers.device carrying ⟨⟨#[0, 0, 0, 2], 1⟩, ⟨[], #[]⟩⟩
  obtain ⟨-, hnone, -, hbody⟩ := netShift_exact Buffers.device seeking (.fresh (.ofInput []))
  refine ⟨hscan, hrun, ?_, ?_, hbody (by decide)⟩
  · rw [hscan] at hanswer
    exact hexact 1 hanswer.symm 30 none 25 _ hrun
  · -- the loop inside has a net shift that is not zero
    exact hnone.2 ⟨_, List.mem_cons_of_mem _ List.mem_cons_self, Or.inr ⟨1, by decide, by decide⟩⟩

end Machine

end TapeLang
