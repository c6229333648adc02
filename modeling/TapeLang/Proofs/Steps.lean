import TapeLang.Machine
import TapeLang.Proofs.Calls

/-!
# A machine step by step

`turn` is what a machine does next: nothing more, one step, or one step that fails. `advance` is
`turn` repeated, and the lemmas here say so case by case, so that later proofs speak of turns only.
A run with more steps goes on where a run with fewer stopped: an end that was reached stays
(`advance_mono`), and the device has only been called more often (`later_advance_succ`).
-/

set_option autoImplicit false

namespace TapeLang.Machine

variable {σ : Type}

/-- What is left to run, and the machine it is run on. -/
structure Config (σ : Type) where
  frames : List Program
  state : State σ

/-- What a machine does next. -/
inductive Turn (σ : Type) where
  | finished
  | next (c : Config σ)
  | failed (fault : Fault) (s : State σ)

/-- The end of an operation, with the frames that follow it. -/
def Step.toTurn (frames : List Program) : Step σ → Turn σ
  | .next s => .next ⟨frames, s⟩
  | .failed fault s => .failed fault s

/-- What a machine does next. -/
def turn (D : Device σ) (c : Config σ) : Turn σ :=
  match next c.frames with
  | .finished => .finished
  | .test entered left => .next ⟨if c.state.tape.current = 0 then left else entered, c.state⟩
  | .op o frames => (exec D o c.state).toTurn frames

section Turn

variable (D : Device σ) (K : List Program) (s : State σ)

@[simp] theorem turn_nil : turn D ⟨[], s⟩ = .finished := rfl

@[simp] theorem turn_done : turn D ⟨.done :: K, s⟩ = turn D ⟨K, s⟩ := rfl

theorem turn_op (o : Op) (rest : Program) :
    turn D ⟨.op o rest :: K, s⟩ = (exec D o s).toTurn (rest :: K) := rfl

theorem turn_loop_zero (body rest : Program) (h : s.tape.current = 0) :
    turn D ⟨.loop body rest :: K, s⟩ = .next ⟨rest :: K, s⟩ := by
  simp [turn, next, h]

theorem turn_loop_nonzero (body rest : Program) (h : s.tape.current ≠ 0) :
    turn D ⟨.loop body rest :: K, s⟩ = .next ⟨body :: .loop body rest :: K, s⟩ := by
  simp [turn, next, h]

end Turn

section TurnCases

variable {D : Device σ} {c c₁ : Config σ} {s : State σ} {fault : Fault}

theorem next_of_turn_finished (h : turn D c = .finished) : next c.frames = .finished := by
  rw [turn] at h
  cases hn : next c.frames with
  | finished => rfl
  | op o frames =>
      rw [hn] at h
      cases he : exec D o c.state <;> simp [he, Step.toTurn] at h
  | test entered left => simp [hn] at h

/-- A turn after which the machine goes on is the test of a loop or an operation that succeeds. -/
theorem cases_of_turn_next (h : turn D c = .next c₁) :
    (∃ entered left, next c.frames = .test entered left ∧
        c₁ = ⟨if c.state.tape.current = 0 then left else entered, c.state⟩) ∨
      ∃ o frames t, next c.frames = .op o frames ∧ exec D o c.state = .next t ∧
        c₁ = ⟨frames, t⟩ := by
  rw [turn] at h
  cases hn : next c.frames with
  | finished => simp [hn] at h
  | op o frames =>
      rw [hn] at h
      cases he : exec D o c.state with
      | next t =>
          simp only [he, Step.toTurn, Turn.next.injEq] at h
          exact Or.inr ⟨o, frames, t, rfl, he, h.symm⟩
      | failed f t => simp [he, Step.toTurn] at h
  | test entered left =>
      simp only [hn, Turn.next.injEq] at h
      exact Or.inl ⟨entered, left, rfl, h.symm⟩

/-- A turn that fails is an operation that fails. -/
theorem exec_of_turn_failed (h : turn D c = .failed fault s) :
    ∃ o frames, next c.frames = .op o frames ∧ exec D o c.state = .failed fault s := by
  rw [turn] at h
  cases hn : next c.frames with
  | finished => simp [hn] at h
  | op o frames =>
      rw [hn] at h
      cases he : exec D o c.state with
      | next t => simp [he, Step.toTurn] at h
      | failed f t =>
          simp only [he, Step.toTurn, Turn.failed.injEq] at h
          obtain ⟨rfl, rfl⟩ := h
          exact ⟨o, frames, rfl, he⟩
  | test entered left => simp [hn] at h

end TurnCases

/-- The machine as it stands. -/
def Progress.state : Progress σ → State σ
  | .completed _ s => s
  | .failed _ _ s => s
  | .suspended _ _ s => s

/-- A run that is not over. -/
def Progress.Suspended : Progress σ → Prop
  | .suspended _ _ _ => True
  | _ => False

/-- The steps of a configuration. -/
abbrev Config.advance (D : Device σ) (fuel taken : Nat) (c : Config σ) : Progress σ :=
  Machine.advance D fuel taken c.frames c.state

section Advance

variable {D : Device σ} {c c₁ : Config σ} {s : State σ} {fault : Fault}

theorem advance_finished (h : turn D c = .finished) (m k : Nat) :
    c.advance D m k = .completed k c.state := by
  have hn := next_of_turn_finished h
  cases m <;> simp [Config.advance, advance, hn]

/-- As long as something is left to run, no steps lead nowhere. -/
theorem advance_zero (h : turn D c ≠ .finished) (k : Nat) :
    c.advance D 0 k = .suspended c.frames k c.state := by
  cases hn : next c.frames with
  | finished => exact absurd (by simp [turn, hn]) h
  | op o frames => simp [Config.advance, advance, hn]
  | test entered left => simp [Config.advance, advance, hn]

theorem advance_next (h : turn D c = .next c₁) (m k : Nat) :
    c.advance D (m + 1) k = c₁.advance D m (k + 1) := by
  rcases cases_of_turn_next h with ⟨entered, left, hn, rfl⟩ | ⟨o, frames, t, hn, he, rfl⟩
  · simp [Config.advance, advance, hn]
  · simp [Config.advance, advance, hn, he]

theorem advance_failed (h : turn D c = .failed fault s) (m k : Nat) :
    c.advance D (m + 1) k = .failed fault (k + 1) s := by
  rcases exec_of_turn_failed h with ⟨o, frames, hn, he⟩
  simp [Config.advance, advance, hn, he]

end Advance

/-! ## More steps -/

/-- An end that a run has reached stays the same with one more step allowed. -/
theorem advance_succ (D : Device σ) (m : Nat) : ∀ (k : Nat) (c : Config σ),
    ¬ (c.advance D m k).Suspended → c.advance D (m + 1) k = c.advance D m k := by
  induction m with
  | zero =>
      -- without steps only a run with nothing left to do has an end
      intro k c h
      cases ht : turn D c with
      | finished => rw [advance_finished ht, advance_finished ht]
      | next c₁ =>
          rw [advance_zero (by simp [ht])] at h
          exact absurd trivial h
      | failed f s =>
          rw [advance_zero (by simp [ht])] at h
          exact absurd trivial h
  | succ m ih =>
      intro k c h
      cases ht : turn D c with
      | finished => rw [advance_finished ht, advance_finished ht]
      | next c₁ =>
          rw [advance_next ht] at h ⊢
          rw [advance_next ht]
          exact ih (k + 1) c₁ h
      | failed f s => rw [advance_failed ht, advance_failed ht]

/-- An end that a run has reached stays the same with more steps allowed. -/
theorem advance_mono (D : Device σ) {m m' : Nat} (hm : m ≤ m') (k : Nat) (c : Config σ)
    (h : ¬ (c.advance D m k).Suspended) : c.advance D m' k = c.advance D m k := by
  induction hm with
  | refl => rfl
  | step _ ih => rw [advance_succ D _ k c (by rw [ih]; exact h), ih]

/-! ## Calls along a run -/

/-- The machine after an operation. -/
def Step.state : Step σ → State σ
  | .next s => s
  | .failed _ s => s

theorem later_readByte (D : Device σ) (s : σ) : D.Later s (readByte D s).2 := by
  have hflush : D.Later s (D.flush s).2 := D.later_perform .flush s
  have hread : D.Later s (D.read (D.flush s).2).2 := hflush.trans (D.later_perform .read _)
  rw [readByte]
  rcases hf : D.flush s with ⟨result, s₁⟩
  rw [hf] at hflush hread
  cases result with
  | error e => exact hflush
  | ok _ =>
      rcases hr : D.read s₁ with ⟨result, s₂⟩
      simp only [hr] at hread ⊢
      cases result with
      | ok byte => exact hread
      | error e => by_cases he : e.kind = .unexpectedEnd <;> simpa [he] using hread

/-- The device after an operation, whether it fails or not: an input reads, an output writes, and no
other operation makes a call. -/
theorem streams_exec (D : Device σ) (o : Op) (s : State σ) :
    (exec D o s).state.streams =
      match o with
      | .input => (readByte D s.streams).2
      | .output => (D.write s.tape.current s.streams).2
      | _ => s.streams := by
  cases o with
  | shift amount =>
      simp only [exec]
      cases s.tape.index amount <;> rfl
  | add amount offset =>
      simp only [exec]
      cases s.tape.revise offset (· + amount.toUInt8) <;> rfl
  | input =>
      simp only [exec]
      rcases readByte D s.streams with ⟨result, streams⟩
      cases result with
      | error e => rfl
      | ok byte => cases hroom : Tape.hasRoom s.tape.pointer byte <;> simp [hroom, Step.state]
  | output =>
      simp only [exec]
      rcases D.write s.tape.current s.streams with ⟨result, streams⟩
      cases result <;> rfl
  | setZero => rfl
  | multiply factors =>
      simp only [exec]
      split
      · rfl
      · cases spread s.tape.current s.tape factors.entries <;> rfl

/-- An operation changes the device only by calling it. -/
theorem later_exec (D : Device σ) (o : Op) (s : State σ) :
    D.Later s.streams (exec D o s).state.streams := by
  rw [streams_exec]
  cases o with
  | input => exact later_readByte D s.streams
  | output => exact D.later_perform (.write s.tape.current) s.streams
  | _ => exact .refl

theorem later_of_turn_next {D : Device σ} {c c₁ : Config σ} (h : turn D c = .next c₁) :
    D.Later c.state.streams c₁.state.streams := by
  rcases cases_of_turn_next h with ⟨entered, left, -, rfl⟩ | ⟨o, frames, t, -, he, rfl⟩
  · exact .refl
  · have hexec := later_exec D o c.state
    rwa [he] at hexec

theorem later_of_turn_failed {D : Device σ} {c : Config σ} {fault : Fault} {s : State σ}
    (h : turn D c = .failed fault s) : D.Later c.state.streams s.streams := by
  rcases exec_of_turn_failed h with ⟨o, frames, -, he⟩
  have hexec := later_exec D o c.state
  rwa [he] at hexec

/-- Some steps change the device only by calling it. -/
theorem later_advance (D : Device σ) (m : Nat) : ∀ (k : Nat) (c : Config σ),
    D.Later c.state.streams (c.advance D m k).state.streams := by
  induction m with
  | zero =>
      intro k c
      by_cases ht : turn D c = .finished
      · rw [advance_finished ht]
        exact .refl
      · rw [advance_zero ht]
        exact .refl
  | succ m ih =>
      intro k c
      cases ht : turn D c with
      | finished =>
          rw [advance_finished ht]
          exact .refl
      | next c₁ =>
          rw [advance_next ht]
          exact (later_of_turn_next ht).trans (ih (k + 1) c₁)
      | failed f s =>
          rw [advance_failed ht]
          exact later_of_turn_failed ht

theorem later_advance_succ (D : Device σ) (m : Nat) : ∀ (k : Nat) (c : Config σ),
    D.Later (c.advance D m k).state.streams (c.advance D (m + 1) k).state.streams := by
  induction m with
  | zero =>
      intro k c
      by_cases ht : turn D c = .finished
      · rw [advance_finished ht, advance_finished ht]
      · rw [advance_zero ht]
        exact later_advance D 1 k c
  | succ m ih =>
      intro k c
      cases ht : turn D c with
      | finished => rw [advance_finished ht, advance_finished ht]
      | next c₁ =>
          rw [advance_next ht, advance_next ht]
          exact ih (k + 1) c₁
      | failed f s => rw [advance_failed ht, advance_failed ht]

end TapeLang.Machine
