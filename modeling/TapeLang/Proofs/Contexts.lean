import TapeLang.Optimizer.Traversal
import TapeLang.Proofs.Operations

/-!
# Simulation of programs in every context

`Simulated D p q` says that `q` can stand in for `p` whatever is run after it: on machines with the
same bytes, a simulation of what follows gives a simulation of the whole. The relation is closed
under everything that programs are built from. A loop is where the number of paired turns counts:
both machines test the loop in one turn, so a simulation of the loop for `n + 1` turns needs one of
the same loop for `n`.

`Improves D` closes `Simulated D` under composition. A change that improves each sequence on its own
improves a program when it is made everywhere (`improves_everywhere`), and improvement gives
refinement on machines with the same bytes (`Improves.refines`).
-/

set_option autoImplicit false

namespace TapeLang.Machine

variable {σ : Type} {D : Device σ} {n : Nat} {K K' : List Program}

/-! ## One operation -/

/-- Any two operations that succeed, one on each side. -/
theorem sim_pair {o o' : Op} {rest rest' : Program} {s s' t t' : State σ}
    (hstreams : s.streams = s'.streams) (ht : exec D o s = .next t) (ht' : exec D o' s' = .next t')
    (hrest : Sim D n ⟨rest :: K, t⟩ ⟨rest' :: K', t'⟩) :
    Sim D n ⟨.op o rest :: K, s⟩ ⟨.op o' rest' :: K', s'⟩ := by
  have left : turn D ⟨.op o rest :: K, s⟩ = .next ⟨rest :: K, t⟩ := by
    rw [turn_op, ht, Step.toTurn]
  have right : turn D ⟨.op o' rest' :: K', s'⟩ = .next ⟨rest' :: K', t'⟩ := by
    rw [turn_op, ht', Step.toTurn]
  exact (Sim.both left right hstreams hrest).mono (Nat.le_succ n)

/-- The same operation on both sides, where the cells that it uses agree. -/
theorem sim_op {o : Op} {rest rest' : Program} {X : Set Nat} {s s' : State σ}
    (h : State.AgreeOff X s s') (hX : ∀ i ∈ o.uses s.tape.pointer, i ∉ X)
    (hrest : ∀ t t', exec D o s = .next t → exec D o s' = .next t' →
      State.AgreeOff X t t' → Sim D n ⟨rest :: K, t⟩ ⟨rest' :: K', t'⟩) :
    Sim D n ⟨.op o rest :: K, s⟩ ⟨.op o rest' :: K', s'⟩ := by
  have hexec := exec_agreeOff D o h hX
  cases hs : exec D o s with
  | next t =>
      cases hs' : exec D o s' with
      | next t' =>
          rw [hs, hs'] at hexec
          exact sim_pair h.streams_eq hs hs' (hrest t t' hs hs' hexec)
      | failed fault t' =>
          -- two machines that agree do not part here
          rw [hs, hs'] at hexec
          exact hexec.elim
  | failed fault t =>
      cases hs' : exec D o s' with
      | next t' =>
          rw [hs, hs'] at hexec
          exact hexec.elim
      | failed fault' t' =>
          rw [hs, hs'] at hexec
          obtain ⟨rfl, hstreams⟩ := hexec
          have left : turn D ⟨.op o rest :: K, s⟩ = .failed fault t := by
            rw [turn_op, hs, Step.toTurn]
          have right : turn D ⟨.op o rest' :: K', s'⟩ = .failed fault t' := by
            rw [turn_op, hs', Step.toTurn]
          exact .fail left right h.streams_eq hstreams

/-- An operation on the left side only that changes nothing but the tape. -/
theorem sim_silent {o : Op} {rest : Program} {s t : State σ} {c' : Config σ}
    (ht : exec D o s = .next t) (hstreams : t.streams = s.streams)
    (hrest : Sim D n ⟨rest :: K, t⟩ c') : Sim D n ⟨.op o rest :: K, s⟩ c' := by
  refine .skip ?_ hstreams hrest
  rw [turn_op, ht, Step.toTurn]

/-- An operation under which the tape fails. -/
theorem sim_crash {o : Op} {rest : Program} {s : State σ} {e : TapeFault} {c' : Config σ}
    (ht : exec D o s = .failed (.tape e) s) (hstreams : s.streams = c'.state.streams) :
    Sim D n ⟨.op o rest :: K, s⟩ c' := by
  have left : turn D ⟨.op o rest :: K, s⟩ = .failed (.tape e) s := by
    rw [turn_op, ht, Step.toTurn]
  exact .crash left rfl hstreams

/-- A shift on the left side only. -/
theorem sim_shift {amount : Int} {rest : Program} {s : State σ} {c' : Config σ}
    (hstreams : s.streams = c'.state.streams)
    (hrest : ∀ i, s.tape.index amount = .ok i →
      Sim D n ⟨rest :: K, { s with tape := { s.tape with pointer := i } }⟩ c') :
    Sim D n ⟨.op (.shift amount) rest :: K, s⟩ c' := by
  cases hi : s.tape.index amount with
  | error e => exact sim_crash (exec_shift_of_error hi) hstreams
  | ok i => exact sim_silent (exec_shift_of_ok hi) rfl (hrest i hi)

/-- An addition on the left side only. -/
theorem sim_add {amount : Int8} {offset : Int} {rest : Program} {s : State σ} {c' : Config σ}
    (hstreams : s.streams = c'.state.streams)
    (hrest : ∀ i v, s.tape.revise offset (· + amount.toUInt8) = .ok (i, v) →
      Sim D n ⟨rest :: K, { s with tape := s.tape.put i v }⟩ c') :
    Sim D n ⟨.op (.add amount offset) rest :: K, s⟩ c' := by
  cases hr : s.tape.revise offset (· + amount.toUInt8) with
  | error e => exact sim_crash (exec_add_of_error hr) hstreams
  | ok iv => exact sim_silent (exec_add_of_ok hr) rfl (hrest iv.1 iv.2 hr)

/-! ## Sequences and loops -/

/-- What follows on both sides is simulated on machines with the same bytes. -/
def Resumes (D : Device σ) (n : Nat) (K K' : List Program) : Prop :=
  ∀ t t', State.Same t t' → Sim D n ⟨K, t⟩ ⟨K', t'⟩

/-- A sequence that is over leaves its frame. -/
theorem sim_done (h : Resumes D n K K') {s s' : State σ} (hs : s.Same s') :
    Sim D n ⟨.done :: K, s⟩ ⟨.done :: K', s'⟩ := by
  have hsim : Sim D n ⟨K, s⟩ ⟨.done :: K', s'⟩ :=
    (h s s' hs).congr_right (turn_done D K' s') rfl
  exact hsim.congr_left (turn_done D K s) rfl

/-- The second program can stand in for the first, whatever follows. -/
def Simulated (D : Device σ) (p q : Program) : Prop :=
  ∀ n K K', Resumes D n K K' → ∀ s s', State.Same s s' → Sim D n ⟨p :: K, s⟩ ⟨q :: K', s'⟩

/-- A loop whose body can be replaced, by induction on the number of paired turns: a round through
the body ends at the same loop with fewer turns left. After the loop the current cell is zero. -/
theorem sim_loop {body body' rest rest' : Program} (hbody : Simulated D body body')
    (hrest : ∀ t t', State.Same t t' → t.tape.current = 0 →
      Sim D n ⟨rest :: K, t⟩ ⟨rest' :: K', t'⟩) :
    ∀ s s', State.Same s s' →
      Sim D n ⟨.loop body rest :: K, s⟩ ⟨.loop body' rest' :: K', s'⟩ := by
  induction n with
  | zero =>
      intro s s' h
      exact .stop h.streams_eq
  | succ n ih =>
      intro s s' h
      have hcurrent := h.current_eq
      -- the test is a paired turn, so what comes after it is needed for one turn less
      have hfewer : ∀ t t', State.Same t t' → t.tape.current = 0 →
          Sim D n ⟨rest :: K, t⟩ ⟨rest' :: K', t'⟩ :=
        fun t t' ht hzero => (hrest t t' ht hzero).mono (Nat.le_succ n)
      by_cases hzero : s.tape.current = 0
      · exact .both (turn_loop_zero D K s body rest hzero)
          (turn_loop_zero D K' s' body' rest' (hcurrent ▸ hzero)) h.streams_eq
          (hfewer s s' h hzero)
      · exact .both (turn_loop_nonzero D K s body rest hzero)
          (turn_loop_nonzero D K' s' body' rest' (hcurrent ▸ hzero)) h.streams_eq
          (hbody n _ _ (ih hfewer) s s' h)

namespace Simulated

theorem op (o : Op) {rest rest' : Program} (h : Simulated D rest rest') :
    Simulated D (.op o rest) (.op o rest') := by
  intro n K K' hK s s' hs
  exact sim_op hs (fun i _ => Set.notMem_empty i) fun t t' _ _ ht => h n K K' hK t t' ht

theorem loop {body body' rest rest' : Program} (hbody : Simulated D body body')
    (hrest : Simulated D rest rest') : Simulated D (.loop body rest) (.loop body' rest') := by
  intro n K K' hK s s' hs
  exact sim_loop hbody (fun t t' ht _ => hrest n K K' hK t t' ht) s s' hs

theorem refl (D : Device σ) (p : Program) : Simulated D p p := by
  induction p with
  | done => exact fun n K K' hK s s' hs => sim_done hK hs
  | op o rest ih => exact ih.op o
  | loop body rest ihbody ihrest => exact ihbody.loop ihrest

theorem refines {p q : Program} (h : Simulated D p q) {s s' : State σ} (hs : s.Same s') :
    Refines D ⟨[p], s⟩ ⟨[q], s'⟩ := by
  refine refines_of_sim fun n => h n [] [] (fun t t' ht => ?_) s s' hs
  exact .finish (turn_nil D t) (turn_nil D t') ht

end Simulated

/-! ## Improvement -/

/-- The second program is reached from the first by replacements that hold in every context. -/
abbrev Improves (D : Device σ) : Program → Program → Prop :=
  Relation.ReflTransGen (Simulated D)

namespace Improves

theorem op (o : Op) {rest rest' : Program} (h : Improves D rest rest') :
    Improves D (.op o rest) (.op o rest') := by
  induction h with
  | refl => exact .refl
  | tail _ hstep ih => exact ih.tail (hstep.op o)

theorem loop_body {body body' : Program} (rest : Program) (h : Improves D body body') :
    Improves D (.loop body rest) (.loop body' rest) := by
  induction h with
  | refl => exact .refl
  | tail _ hstep ih => exact ih.tail (hstep.loop (Simulated.refl D rest))

theorem loop_rest {rest rest' : Program} (body : Program) (h : Improves D rest rest') :
    Improves D (.loop body rest) (.loop body rest') := by
  induction h with
  | refl => exact .refl
  | tail _ hstep ih => exact ih.tail ((Simulated.refl D body).loop hstep)

theorem refines {p q : Program} (h : Improves D p q) {s s' : State σ} (hs : s.Same s') :
    Refines D ⟨[p], s⟩ ⟨[q], s'⟩ := by
  induction h generalizing s' with
  | refl => exact (Simulated.refl D p).refines hs
  | tail _ hstep ih => exact (ih (State.Same.refl s)).trans (hstep.refines hs)

end Improves

theorem improves_mapBodies {f : Program → Program} (hf : ∀ p, Improves D p (f p)) (p : Program) :
    Improves D p (p.mapBodies f) := by
  induction p with
  | done => exact .refl
  | op o rest ih =>
      rw [Program.mapBodies_op]
      exact Improves.op o ih
  | loop body rest ihbody ihrest =>
      -- first the body is replaced, then what follows the loop
      rw [Program.mapBodies_loop]
      have hbody : Improves D body (f (body.mapBodies f)) := ihbody.trans (hf (body.mapBodies f))
      exact (Improves.loop_body rest hbody).trans (Improves.loop_rest _ ihrest)

/-- What improves each sequence improves a program when it is done everywhere. -/
theorem improves_everywhere {f : Program → Program} (hf : ∀ p, Improves D p (f p))
    (p : Program) : Improves D p (p.everywhere f) :=
  (improves_mapBodies hf p).trans (hf (p.mapBodies f))

end TapeLang.Machine
