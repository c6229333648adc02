import TapeLang.Device.Buffers
import TapeLang.Proofs.Turns

/-!
# What a program means, by recursion on its structure

`BigStep D p s n x` says that `p`, run from the machine `s`, ends after `n` steps as `x` says: with
a machine, or with the fault of an operation. There is no stack in it. A sequence is run from the
front; a loop is a test and then either nothing more or its body and the same loop again; a fault
ends everything. A program that never ends has no derivation.

The machine with its stack of frames does the same (`run_iff_bigStep`). The meaning of a stack is
that its frames are run one after the other (`Frames`). A turn of the machine can be undone in that
meaning (`Frames.head`), so that a run which ends is a derivation, by induction on its turns; and a
derivation is a run above whatever frames lie below it (`BigStep.advance_eq`).
-/

set_option autoImplicit false

namespace TapeLang.Machine

variable {σ : Type} {D : Device σ}

/-- The run of a program from a machine ends, after this number of steps and in this way. -/
inductive BigStep (D : Device σ) : Program → State σ → Nat → Step σ → Prop
  /-- Nothing to run takes no step. -/
  | done (s : State σ) : BigStep D .done s 0 (.next s)
  /-- An operation is one step, and then the rest is run. -/
  | op {o : Op} {rest : Program} {s t : State σ} {n : Nat} {x : Step σ}
      (first : exec D o s = .next t) (later : BigStep D rest t n x) :
      BigStep D (.op o rest) s (1 + n) x
  /-- An operation that fails is the last step. -/
  | op_failed {o : Op} {rest : Program} {s t : State σ} {fault : Fault}
      (first : exec D o s = .failed fault t) : BigStep D (.op o rest) s 1 (.failed fault t)
  /-- The test of a loop on a zero cell is one step, and then the rest is run. -/
  | loop_left {body rest : Program} {s : State σ} {n : Nat} {x : Step σ}
      (zero : s.tape.current = 0) (later : BigStep D rest s n x) :
      BigStep D (.loop body rest) s (1 + n) x
  /-- The test of a loop on another cell is one step, and then the body is run, and then the same
  loop again. -/
  | loop_entered {body rest : Program} {s t : State σ} {m n : Nat} {x : Step σ}
      (nonzero : s.tape.current ≠ 0) (round : BigStep D body s m (.next t))
      (again : BigStep D (.loop body rest) t n x) : BigStep D (.loop body rest) s (1 + m + n) x
  /-- A body that fails ends its loop. -/
  | loop_failed {body rest : Program} {s t : State σ} {m : Nat} {fault : Fault}
      (nonzero : s.tape.current ≠ 0) (round : BigStep D body s m (.failed fault t)) :
      BigStep D (.loop body rest) s (1 + m) (.failed fault t)

/-- The frames of a stack, run one after the other. -/
inductive Frames (D : Device σ) : List Program → State σ → Nat → Step σ → Prop
  | nil (s : State σ) : Frames D [] s 0 (.next s)
  | cons {p : Program} {K : List Program} {s t : State σ} {m n : Nat} {x : Step σ}
      (first : BigStep D p s m (.next t)) (later : Frames D K t n x) :
      Frames D (p :: K) s (m + n) x
  | failed {p : Program} {K : List Program} {s t : State σ} {m : Nat} {fault : Fault}
      (first : BigStep D p s m (.failed fault t)) : Frames D (p :: K) s m (.failed fault t)

/-! ## From runs to derivations -/

namespace Frames

variable {K : List Program} {s t : State σ} {n : Nat} {x : Step σ}

theorem done (h : Frames D K s n x) : Frames D (.done :: K) s n x := by
  have hcons := Frames.cons (.done s) h
  rwa [Nat.zero_add] at hcons

/-- What runs `rest` above some frames runs an operation, or a loop that is left, before it. -/
theorem prepend {p rest : Program} (h : Frames D (rest :: K) t n x)
    (hstep : ∀ {m : Nat} {y : Step σ}, BigStep D rest t m y → BigStep D p s (1 + m) y) :
    Frames D (p :: K) s (1 + n) x := by
  cases h with
  | cons first later =>
      rw [← Nat.add_assoc]
      exact .cons (hstep first) later
  | failed first => exact .failed (hstep first)

/-- What runs a body above its loop runs the loop, on a cell that is not zero. -/
theorem enter {body rest : Program} (hnonzero : s.tape.current ≠ 0)
    (h : Frames D (body :: .loop body rest :: K) s n x) :
    Frames D (.loop body rest :: K) s (1 + n) x := by
  cases h with
  | failed round => exact .failed (.loop_failed hnonzero round)
  | @cons _ _ _ t m n _ round later =>
      rw [← Nat.add_assoc]
      cases later with
      | failed again => exact .failed (.loop_entered hnonzero round again)
      | cons again later =>
          rw [← Nat.add_assoc]
          exact .cons (.loop_entered hnonzero round again) later

/-- A turn can be undone: what the machine does after it, it does with one step more before it.
Frames with nothing left are popped by the same turn, so the proof goes down the frames. -/
theorem head {c₁ : Config σ} : ∀ {K : List Program}, turn D ⟨K, s⟩ = .next c₁ →
    Frames D c₁.frames c₁.state n x → Frames D K s (1 + n) x := by
  intro K
  induction K with
  | nil =>
      intro hturn _
      cases hturn
  | cons p K ih =>
      intro hturn h
      cases p with
      | done => exact (ih hturn h).done
      | op o rest =>
          rw [turn_op] at hturn
          cases hexec : exec D o s with
          | next t =>
              rw [hexec, Step.toTurn] at hturn
              cases hturn
              exact h.prepend (.op hexec)
          | failed fault t =>
              rw [hexec, Step.toTurn] at hturn
              cases hturn
      | loop body rest =>
          by_cases hzero : s.tape.current = 0
          · rw [turn_loop_zero D K s body rest hzero] at hturn
            cases hturn
            exact h.prepend (.loop_left hzero)
          · rw [turn_loop_nonzero D K s body rest hzero] at hturn
            cases hturn
            exact h.enter hzero

theorem of_finished : ∀ {K : List Program}, turn D ⟨K, s⟩ = .finished →
    Frames D K s 0 (.next s) := by
  intro K
  induction K with
  | nil => exact fun _ => .nil s
  | cons p K ih =>
      intro hturn
      cases p with
      | done => exact (ih hturn).done
      | op o rest => cases hturn' : exec D o s <;> simp [turn_op, hturn', Step.toTurn] at hturn
      | loop body rest => simp [turn, next] at hturn

theorem of_failed {fault : Fault} : ∀ {K : List Program},
    turn D ⟨K, s⟩ = .failed fault t → Frames D K s 1 (.failed fault t) := by
  intro K
  induction K with
  | nil =>
      intro hturn
      cases hturn
  | cons p K ih =>
      intro hturn
      cases p with
      | done => exact (ih hturn).done
      | loop body rest => simp [turn, next] at hturn
      | op o rest =>
          rw [turn_op] at hturn
          cases hexec : exec D o s with
          | next u =>
              rw [hexec, Step.toTurn] at hturn
              cases hturn
          | failed fault' u =>
              rw [hexec, Step.toTurn] at hturn
              cases hturn
              exact .failed (.op_failed hexec)

/-- Some turns can be undone. -/
theorem of_turns {m : Nat} {c c' : Config σ} (h : Turns D m c c')
    (hend : Frames D c'.frames c'.state n x) : Frames D c.frames c.state (m + n) x := by
  induction h with
  | refl c =>
      rw [Nat.zero_add]
      exact hend
  | @head m c c₁ c' first _ ih =>
      have hhead := (ih hend).head first
      rwa [← Nat.add_assoc, Nat.add_comm 1 m] at hhead

/-- One frame is one program. -/
theorem bigStep {p : Program} (h : Frames D [p] s n x) : BigStep D p s n x := by
  cases h with
  | failed first => exact first
  | cons first later =>
      cases later
      exact first

end Frames

/-! ## From derivations to runs -/

/-- The rest of a run, if its first part has ended in some way. -/
def Step.resume (D : Device σ) (m k : Nat) (K : List Program) : Step σ → Progress σ
  | .next t => advance D m k K t
  | .failed fault t => .failed fault k t

/-- A derivation is a run above any frames. When it is over the run goes on with these frames, and
ends as they end. -/
theorem BigStep.advance_eq {p : Program} {s : State σ} {n : Nat} {x : Step σ}
    (h : BigStep D p s n x) : ∀ (K : List Program) (m k : Nat),
      ¬ (x.resume D m (k + n) K).Suspended →
        advance D (n + m) k (p :: K) s = x.resume D m (k + n) K := by
  induction h with
  | done s =>
      intro K m k hended
      rw [Nat.zero_add]
      -- an empty frame is popped in the turn that the frames below it take
      cases m with
      | succ m => rfl
      | zero =>
          by_cases hover : turn D ⟨K, s⟩ = .finished
          · exact (advance_finished (c := ⟨.done :: K, s⟩) hover 0 k).trans
              (advance_finished hover 0 k).symm
          · have hzero : (Step.next s).resume D 0 (k + 0) K = .suspended K k s :=
              advance_zero hover k
            rw [hzero] at hended
            exact absurd trivial hended
  | @op o rest s t n x first _ ih =>
      intro K m k hended
      have hturn : turn D ⟨.op o rest :: K, s⟩ = .next ⟨rest :: K, t⟩ := by
        rw [turn_op, first, Step.toTurn]
      rw [← Nat.add_assoc] at hended ⊢
      rw [show 1 + n + m = n + m + 1 by omega, ← ih K m (k + 1) hended]
      exact advance_next hturn (n + m) k
  | @op_failed o rest s t fault first =>
      intro K m k _
      have hturn : turn D ⟨.op o rest :: K, s⟩ = .failed fault t := by
        rw [turn_op, first, Step.toTurn]
      rw [Nat.add_comm 1 m]
      exact advance_failed hturn m k
  | @loop_left body rest s n x zero _ ih =>
      intro K m k hended
      rw [← Nat.add_assoc] at hended ⊢
      rw [show 1 + n + m = n + m + 1 by omega, ← ih K m (k + 1) hended]
      exact advance_next (turn_loop_zero D K s body rest zero) (n + m) k
  | @loop_entered body rest s t m' n x nonzero _ _ ihround ihagain =>
      intro K m k hended
      rw [show k + (1 + m' + n) = k + 1 + m' + n by omega] at hended ⊢
      -- the loop lies below its body and is run again when the body is over
      have hagain := ihagain K m (k + 1 + m') hended
      have hround := ihround (.loop body rest :: K) (n + m) (k + 1)
      rw [Step.resume, hagain] at hround
      rw [show 1 + m' + n + m = m' + (n + m) + 1 by omega, ← hround hended]
      exact advance_next (turn_loop_nonzero D K s body rest nonzero) (m' + (n + m)) k
  | @loop_failed body rest s t m' fault nonzero _ ih =>
      intro K m k hended
      rw [← Nat.add_assoc] at hended ⊢
      have hround := ih (.loop body rest :: K) m (k + 1) hended
      rw [show 1 + m' + m = m' + m + 1 by omega]
      exact (advance_next (turn_loop_nonzero D K s body rest nonzero) (m' + m) k).trans hround

/-- A derivation is a run, and a run has one end. -/
theorem BigStep.unique {p : Program} {s : State σ} {m n : Nat} {x y : Step σ}
    (hx : BigStep D p s m x) (hy : BigStep D p s n y) : m = n ∧ x = y := by
  have hresume : ∀ (z : Step σ) (k k' : Nat), z.resume D k k' [] =
      match z with
      | .next t => .completed k' t
      | .failed fault t => .failed fault k' t := by
    intro z k k'
    cases z with
    | next t => exact advance_finished (c := ⟨[], t⟩) (turn_nil D t) k k'
    | failed fault t => rfl
  have hended : ∀ (z : Step σ) (k k' : Nat), ¬ (z.resume D k k' []).Suspended := by
    intro z k k'
    rw [hresume]
    cases z <;> exact id
  have hrun := (hx.advance_eq [] n 0 (hended x n _)).symm.trans
    ((congrArg (fun k => advance D k 0 [p] s) (Nat.add_comm m n)).trans
      (hy.advance_eq [] m 0 (hended y m _)))
  rw [hresume, hresume, Nat.zero_add, Nat.zero_add] at hrun
  cases x <;> cases y <;> cases hrun <;> exact ⟨rfl, rfl⟩

/-! ## The two meanings agree -/

theorem bigStep_of_finished {p : Program} {s : State σ} {n : Nat} {c : Config σ}
    (h : Turns D n ⟨[p], s⟩ c) (hend : turn D c = .finished) : BigStep D p s n (.next c.state) :=
  (Frames.of_turns h (.of_finished hend)).bigStep

theorem bigStep_of_failed {p : Program} {s t : State σ} {n : Nat} {c : Config σ} {fault : Fault}
    (h : Turns D n ⟨[p], s⟩ c) (hend : turn D c = .failed fault t) :
    BigStep D p s (n + 1) (.failed fault t) :=
  (Frames.of_turns h (.of_failed hend)).bigStep

/-- A run without a limit ends as a derivation says, but for its last flush. -/
theorem halts_iff_bigStep (p : Program) (s : State σ) (r : Run σ) :
    Halts D p s r ↔
      (∃ n t, BigStep D p s n (.next t) ∧ r = conclude D (.completed n) t) ∨
      ∃ n fault t, BigStep D p s n (.failed fault t) ∧ r = abandon D fault t := by
  constructor
  · intro h
    rcases (halts_iff p s r).1 h with ⟨n, c, hturns, hend, hr⟩ |
      ⟨n, c, fault, t, hturns, hend, hr⟩
    · exact Or.inl ⟨n, c.state, bigStep_of_finished hturns hend, hr⟩
    · exact Or.inr ⟨n + 1, fault, t, bigStep_of_failed hturns hend, hr⟩
  · rintro (⟨n, t, h, rfl⟩ | ⟨n, fault, t, h, rfl⟩)
    · have hadvance := h.advance_eq [] 0 0 id
      rw [Nat.zero_add] at hadvance
      exact ⟨n, run_of_completed hadvance⟩
    · exact ⟨n, run_of_failed (h.advance_eq [] 0 0 id)⟩

theorem halts_completed_iff (p : Program) (s u : State σ) (n : Nat) :
    Halts D p s ⟨.ok (.completed n), u⟩ ↔
      ∃ t, BigStep D p s n (.next t) ∧
        conclude D (.completed n) t = ⟨.ok (.completed n), u⟩ := by
  refine (halts_iff_bigStep p s _).trans ⟨?_, ?_⟩
  · rintro (⟨m, t, h, hr⟩ | ⟨m, fault, t, -, hr⟩)
    · have hresult : (conclude D (.completed m) t).result = .ok (.completed n) := by rw [← hr]
      obtain ⟨rfl, -⟩ := conclude_completed (.refl t) m hresult
      exact ⟨t, h, hr.symm⟩
    · cases hr
  · rintro ⟨t, h, hr⟩
    exact Or.inl ⟨n, t, h, hr.symm⟩

/-- A run without a limit and the meaning of its program. If the flush at the end of the run
succeeds, the run completes in `n` steps exactly if the program ends in `n` steps, with the machine
that it leaves; it fails exactly if the program ends with that fault, with the machine on which it
failed; and it never ends exactly if the program does not end. The machine is seen after the last
flush. -/
theorem run_iff_bigStep (D : Device σ) (p : Program) (s : State σ)
    (hflush : ∀ n t, BigStep D p s n (.next t) → (D.flush t.streams).1 = .ok ()) :
    (∀ n t', (∃ fuel, run D fuel none p s = some ⟨.ok (.completed n), t'⟩) ↔
      ∃ t, BigStep D p s n (.next t) ∧ t' = t.flushed D) ∧
    (∀ fault t', (∃ fuel, run D fuel none p s = some ⟨.error fault, t'⟩) ↔
      ∃ n t, BigStep D p s n (.failed fault t) ∧ t' = t.flushed D) ∧
    ((∀ fuel, run D fuel none p s = none) ↔ ∀ n x, ¬ BigStep D p s n x) := by
  refine ⟨fun n t' => ?_, fun fault t' => ?_, ?_⟩
  · refine (halts_iff_bigStep p s _).trans ⟨?_, ?_⟩
    · rintro (⟨m, t, h, hr⟩ | ⟨m, fault, t, -, hr⟩)
      · rw [conclude_of_flush (hflush m t h)] at hr
        cases hr
        exact ⟨t, h, rfl⟩
      · cases hr
    · rintro ⟨t, h, rfl⟩
      exact Or.inl ⟨n, t, h, (conclude_of_flush (hflush n t h) _).symm⟩
  · refine (halts_iff_bigStep p s _).trans ⟨?_, ?_⟩
    · rintro (⟨m, t, h, hr⟩ | ⟨m, fault', t, h, hr⟩)
      · rw [conclude_of_flush (hflush m t h)] at hr
        cases hr
      · cases hr
        exact ⟨m, t, h, rfl⟩
    · rintro ⟨m, t, h, rfl⟩
      exact Or.inr ⟨m, fault, t, h, rfl⟩
  · constructor
    · intro hendless n x h
      -- a derivation would be a run that ends
      have hnot : ∀ r, ¬ Halts D p s r := by
        rintro r ⟨fuel, hr⟩
        rw [hendless fuel] at hr
        cases hr
      cases x with
      | next t => exact hnot _ ((halts_iff_bigStep p s _).2 (Or.inl ⟨n, t, h, rfl⟩))
      | failed fault t => exact hnot _ ((halts_iff_bigStep p s _).2 (Or.inr ⟨n, fault, t, h, rfl⟩))
    · intro hnone fuel
      cases hr : run D fuel none p s with
      | none => rfl
      | some r =>
          rcases (halts_iff_bigStep p s r).1 ⟨fuel, hr⟩ with ⟨n, t, h, -⟩ | ⟨n, fault, t, h, -⟩
          · exact absurd h (hnone n _)
          · exact absurd h (hnone n _)

/-- Counts the current cell down and clears the next one in each round, then writes the cell to the
left. -/
def clearing : Program :=
  .loop (.op (.shift 1) (.loop (.op (.add (-1) 0) .done)
    (.op (.shift (-1)) (.op (.add (-1) 0) .done)))) (.op (.shift (-1)) (.op .output .done))

/-- Two nested loops on two machines: on the first they are followed by a move to the left and an
output, and on the second there is no cell to the left. -/
theorem run_iff_bigStep_clearing :
    (∀ n t, BigStep Buffers.device clearing ⟨⟨#[7, 2, 3], 1⟩, ⟨[], #[]⟩⟩ n (.next t) →
      (Buffers.device.flush t.streams).1 = .ok ()) ∧
    BigStep Buffers.device clearing ⟨⟨#[7, 2, 3], 1⟩, ⟨[], #[]⟩⟩ 19
      (.next ⟨⟨#[7, 0, 0], 0⟩, ⟨[], #[7]⟩⟩) ∧
    ∃ n, BigStep Buffers.device clearing ⟨⟨#[2, 3], 0⟩, ⟨[], #[]⟩⟩ n
      (.failed (.tape (.underflow 0 (-1))) ⟨⟨#[0, 0], 0⟩, ⟨[], #[]⟩⟩) := by
  have hflush : ∀ s n t, BigStep Buffers.device clearing s n (.next t) →
      (Buffers.device.flush t.streams).1 = .ok () := fun _ _ _ _ => rfl
  obtain ⟨hcompletes, -, -⟩ := run_iff_bigStep Buffers.device clearing
    ⟨⟨#[7, 2, 3], 1⟩, ⟨[], #[]⟩⟩ (hflush _)
  obtain ⟨-, hfails, -⟩ := run_iff_bigStep Buffers.device clearing ⟨⟨#[2, 3], 0⟩, ⟨[], #[]⟩⟩
    (hflush _)
  refine ⟨hflush _, ?_, ?_⟩
  · -- a flush in memory changes nothing, so the machine after it is the machine before it
    obtain ⟨t, ht, heq⟩ :=
      (hcompletes 19 ⟨⟨#[7, 0, 0], 0⟩, ⟨[], #[7]⟩⟩).1 ⟨30, rfl⟩
    rwa [heq]
  · obtain ⟨n, t, ht, heq⟩ := (hfails (.tape (.underflow 0 (-1)))
      ⟨⟨#[0, 0], 0⟩, ⟨[], #[]⟩⟩).1 ⟨40, rfl⟩
    exact ⟨n, by rwa [heq]⟩

end TapeLang.Machine
