import TapeLang.Device.Buffers
import TapeLang.Proofs.Counter

/-!
# The step limit is exact

A run with a limit is the run without one, cut off: it ends as that run ends if the limit is at
least the number of its steps, and is out of steps otherwise (`run_limit_exact`). What it leaves
when it is cut off is the machine after exactly as many turns as the limit says, flushed.

What a device has written is seen on `D.transcribed`, which behaves as `D` and takes down each byte
that was written. A run that is cut off earlier has written a prefix of what a run that is cut off
later, or not at all, has written.
-/

set_option autoImplicit false

namespace TapeLang

namespace Device

variable {σ : Type}

/-- A device that takes down the bytes that it has written, the latest at the end. -/
def transcribed (D : Device σ) : Device (σ × List UInt8) where
  read := fun s => ((D.read s.1).1, (D.read s.1).2, s.2)
  write := fun b s =>
    ((D.write b s.1).1, (D.write b s.1).2,
      match (D.write b s.1).1 with
      | .ok _ => s.2 ++ [b]
      | .error _ => s.2)
  flush := fun s => ((D.flush s.1).1, (D.flush s.1).2, s.2)

theorem prefix_transcribed_perform (D : Device σ) (call : Call) (s : σ × List UInt8) :
    s.2 <+: (D.transcribed.perform call s).2 := by
  cases call with
  | read => exact List.prefix_refl s.2
  | flush => exact List.prefix_refl s.2
  | write b =>
      simp only [perform, transcribed]
      cases (D.write b s.1).1 with
      | ok _ => exact List.prefix_append s.2 [b]
      | error e => exact List.prefix_refl s.2

theorem Later.written_prefix {D : Device σ} {a b : σ × List UInt8}
    (h : D.transcribed.Later a b) : a.2 <+: b.2 := by
  induction h with
  | refl => exact List.prefix_refl a.2
  | @tail b c _ hstep ih =>
      obtain ⟨call, rfl⟩ := hstep
      exact ih.trans (D.prefix_transcribed_perform call b)

end Device

namespace Machine

variable {σ : Type} {D : Device σ} {p : Program} {s : State σ}

/-- A longer run splits at every number of turns, and is not over there. -/
theorem Turns.split {n : Nat} {a c : Config σ} (h : Turns D n a c) :
    ∀ {m : Nat}, m < n → ∃ b, Turns D m a b ∧ turn D b ≠ .finished := by
  induction h with
  | refl a =>
      intro m hm
      exact absurd hm (Nat.not_lt_zero m)
  | @head n a a₁ c first _ ih =>
      intro m hm
      cases m with
      | zero => exact ⟨a, .refl a, by simp [first]⟩
      | succ m =>
          obtain ⟨b, hturns, hmore⟩ := ih (Nat.lt_of_succ_lt_succ hm)
          exact ⟨b, .head first hturns, hmore⟩

/-! ## Runs with a limit -/

/-- Within a limit of `m` steps the run does not end. -/
def CutOff (D : Device σ) (fuel m : Nat) (p : Program) (s : State σ) : Prop :=
  ∃ u, run D fuel (some m) p s = some ⟨.ok (.outOfSteps m), u⟩

section Limit

variable {n m : Nat} {c : Config σ}

theorem run_limit_of_finished (h : Turns D n ⟨[p], s⟩ c) (hend : turn D c = .finished)
    (hm : n ≤ m) (fuel : Nat) :
    run D fuel (some m) p s = some (conclude D (.completed n) c.state) := by
  have hadvance := h.completed hend hm 0
  rw [Nat.zero_add] at hadvance
  exact run_of_completed hadvance

theorem run_limit_of_failed {fault : Fault} {t : State σ} (h : Turns D n ⟨[p], s⟩ c)
    (hend : turn D c = .failed fault t) (hm : n < m) (fuel : Nat) :
    run D fuel (some m) p s = some (abandon D fault t) :=
  run_of_failed (h.failed hend hm 0)

theorem cutOff_of_turns (hflush : ∀ x, (D.flush x).1 = .ok ()) (h : Turns D m ⟨[p], s⟩ c)
    (hmore : turn D c ≠ .finished) (fuel : Nat) : CutOff D fuel m p s := by
  have hadvance := h.suspended hmore 0
  rw [Nat.zero_add] at hadvance
  refine ⟨c.state.flushed D, ?_⟩
  rw [run_some_of_suspended hadvance, conclude_of_flush (hflush _)]

/-- A run that is out of steps has taken as many turns as its limit says. -/
theorem turns_of_outOfSteps {fuel steps : Nat} {u : State σ}
    (h : run D fuel (some m) p s = some ⟨.ok (.outOfSteps steps), u⟩) :
    steps = m ∧ ∃ c, Turns D m ⟨[p], s⟩ c ∧ turn D c ≠ .finished ∧ u = c.state.flushed D := by
  rcases advance_cases D m 0 ⟨[p], s⟩ with ⟨n, c, -, -, -, heq⟩ | ⟨n, c, fault, t, -, -, -, heq⟩ |
    ⟨c, hturns, hmore, heq⟩
  · -- a run that has completed says so, or its last flush has failed
    rw [run_of_completed heq, Option.some.injEq] at h
    rcases conclude_result (D := D) (.completed (0 + n)) c.state with hresult | ⟨e, hresult⟩
    · rw [h] at hresult
      cases hresult
    · rw [h] at hresult
      cases hresult
  · rw [run_of_failed heq] at h
    cases h
  · rw [run_some_of_suspended heq, Nat.zero_add, Option.some.injEq, conclude] at h
    rcases hf : D.flush c.state.streams with ⟨result, streams⟩
    rw [hf] at h
    cases result with
    | error e => cases h
    | ok _ =>
        cases h
        exact ⟨rfl, c, hturns, hmore, by rw [State.flushed, hf]⟩

end Limit

/-! ## What has been written -/

/-- Every run leaves the machine where its steps have led, flushed. -/
theorem state_of_run {fuel : Nat} {limit : Option Nat} {r : Run σ}
    (h : run D fuel limit p s = some r) :
    r.state = (advance D (limit.getD fuel) 0 [p] s).state.flushed D := by
  have hconclude : ∀ (outcome : Outcome) (t : State σ),
      (conclude D outcome t).state = t.flushed D := by
    intro outcome t
    rw [conclude, State.flushed]
    rcases D.flush t.streams with ⟨result, streams⟩
    cases result <;> rfl
  rw [run] at h
  cases hadvance : advance D (limit.getD fuel) 0 [p] s with
  | completed k t =>
      rw [hadvance, Option.some.injEq] at h
      rw [← h]
      exact hconclude _ t
  | failed fault k t =>
      rw [hadvance, Option.some.injEq] at h
      rw [← h]
      rfl
  | suspended frames k t =>
      simp only [hadvance] at h
      split at h
      · cases h
        exact hconclude _ t
      · cases h

/-- More steps are more calls of the device. -/
theorem later_advance_of_le {m m' : Nat} (hm : m ≤ m') (k : Nat) (c : Config σ) :
    D.Later (c.advance D m k).state.streams (c.advance D m' k).state.streams := by
  induction hm with
  | refl => exact .refl
  | step _ ih => exact ih.trans (later_advance_succ D _ k c)

/-- A run without a limit that ends takes more steps than one that is cut off. -/
theorem le_fuel_of_suspended {m fuel : Nat} {r : Run σ}
    (hsuspended : (advance D m 0 [p] s).Suspended) (h : run D fuel none p s = some r) :
    m ≤ fuel := by
  by_contra hlt
  have hended : ¬ (advance D fuel 0 [p] s).Suspended := by
    rw [← run_none_eq_none_iff, h]
    exact Option.some_ne_none r
  have hmono := advance_mono D (Nat.le_of_not_le hlt) 0 ⟨[p], s⟩ hended
  rw [Config.advance, Config.advance] at hmono
  rw [hmono] at hsuspended
  exact hended hsuspended

/-! ## The limit -/

section Halts

variable (hflush : ∀ x, (D.flush x).1 = .ok ())

include hflush

theorem limit_of_completed {n : Nat} {t : State σ} (h : Halts D p s ⟨.ok (.completed n), t⟩)
    (m fuel : Nat) :
    (n ≤ m → run D fuel (some m) p s = some ⟨.ok (.completed n), t⟩) ∧
      (m < n → CutOff D fuel m p s) := by
  rcases (halts_iff p s _).1 h with ⟨n', c, hturns, hend, hr⟩ | ⟨n', c, fault, u, -, -, hr⟩
  · rw [conclude_of_flush (hflush _)] at hr
    cases hr
    refine ⟨fun hm => ?_, fun hm => ?_⟩
    · rw [run_limit_of_finished hturns hend hm, conclude_of_flush (hflush _)]
    · obtain ⟨b, hb, hmore⟩ := hturns.split hm
      exact cutOff_of_turns hflush hb hmore fuel
  · cases hr

/-- A run that fails has failed in some turn, and every limit cuts it off before that turn or not at
all. -/
theorem limit_of_failed {fault : Fault} {t : State σ} (h : Halts D p s ⟨.error fault, t⟩) :
    ∃ k c u, Turns D k ⟨[p], s⟩ c ∧ turn D c = .failed fault u ∧ t = u.flushed D ∧
      ∀ m fuel, (k + 1 ≤ m → run D fuel (some m) p s = some ⟨.error fault, t⟩) ∧
        (m < k + 1 → CutOff D fuel m p s) := by
  rcases (halts_iff p s _).1 h with ⟨k, c, -, -, hr⟩ | ⟨k, c, fault', u, hturns, hend, hr⟩
  · rw [conclude_of_flush (hflush _)] at hr
    cases hr
  · cases hr
    refine ⟨k, c, u, hturns, hend, rfl, fun m fuel => ⟨fun hm => ?_, fun hm => ?_⟩⟩
    · exact run_limit_of_failed hturns hend hm fuel
    · rcases Nat.lt_or_eq_of_le (Nat.le_of_lt_succ hm) with hlt | rfl
      · obtain ⟨b, hb, hmore⟩ := hturns.split hlt
        exact cutOff_of_turns hflush hb hmore fuel
      · -- the last turn before the one that fails
        exact cutOff_of_turns hflush hturns (by simp [hend]) fuel

theorem limit_of_endless (h : ∀ fuel, run D fuel none p s = none) (m fuel : Nat) :
    CutOff D fuel m p s := by
  obtain ⟨c, hturns, hmore⟩ := turns_of_endless (p := p) (s := s) (D := D) (by
    rintro r ⟨fuel, hr⟩
    rw [h fuel] at hr
    cases hr) m
  exact cutOff_of_turns hflush hturns hmore fuel

end Halts

/-- A run that is cut off has written a prefix of what a run with a larger limit, or with none, has
written. -/
theorem written_prefix_of_outOfSteps {D : Device σ} {s : State (σ × List UInt8)}
    {m fuel steps : Nat} {u : State (σ × List UInt8)}
    (h : run D.transcribed fuel (some m) p s = some ⟨.ok (.outOfSteps steps), u⟩)
    {limit : Option Nat} (hlimit : ∀ m', limit = some m' → m ≤ m') {fuel' : Nat}
    {r : Run (σ × List UInt8)} (hr : run D.transcribed fuel' limit p s = some r) :
    u.streams.2 <+: r.state.streams.2 := by
  obtain ⟨-, c, hturns, hmore, rfl⟩ := turns_of_outOfSteps h
  have hadvance := hturns.suspended hmore 0
  have hle : m ≤ limit.getD fuel' := by
    cases limit with
    | some m' => exact hlimit m' rfl
    | none =>
        refine le_fuel_of_suspended ?_ hr
        rw [show advance D.transcribed m 0 [p] s = _ from hadvance]
        trivial
  have hlater := later_advance_of_le (D := D.transcribed) hle 0 ⟨[p], s⟩
  rw [hadvance] at hlater
  -- the flush at the end of a run writes nothing
  rw [state_of_run hr]
  exact hlater.written_prefix

/-- The step limit is exact, on every machine and for every program, if no flush fails. A run that
completes in `n` steps completes in the same way with every limit from `n` on and is out of steps
with every smaller one; a run that fails in its step `k + 1` fails in the same way with every limit
from `k + 1` on and is out of steps with every smaller one; and a run that never ends is out of
steps with every limit. A run that is out of steps leaves the machine after exactly as many turns as
its limit says, flushed, and has written what was written in these turns, which is a prefix of what
is written under any larger limit. The steps that were counted before the run make no difference to
it. -/
theorem run_limit_exact (D : Device σ) (hflush : ∀ x, (D.flush x).1 = .ok ()) (p : Program)
    (s : State (σ × List UInt8)) :
    (∀ n t, Halts D.transcribed p s ⟨.ok (.completed n), t⟩ → ∀ m fuel,
      (n ≤ m → run D.transcribed fuel (some m) p s = some ⟨.ok (.completed n), t⟩) ∧
        (m < n → CutOff D.transcribed fuel m p s)) ∧
    (∀ fault t, Halts D.transcribed p s ⟨.error fault, t⟩ →
      ∃ k c u, Turns D.transcribed k ⟨[p], s⟩ c ∧ turn D.transcribed c = .failed fault u ∧
        t = u.flushed D.transcribed ∧ ∀ m fuel,
          (k + 1 ≤ m → run D.transcribed fuel (some m) p s = some ⟨.error fault, t⟩) ∧
            (m < k + 1 → CutOff D.transcribed fuel m p s)) ∧
    ((∀ fuel, run D.transcribed fuel none p s = none) →
      ∀ m fuel, CutOff D.transcribed fuel m p s) ∧
    (∀ m fuel steps u, run D.transcribed fuel (some m) p s = some ⟨.ok (.outOfSteps steps), u⟩ →
      steps = m ∧ ∃ c, Turns D.transcribed m ⟨[p], s⟩ c ∧ u.tape = c.state.tape ∧
        u.streams = ((D.flush c.state.streams.1).2, c.state.streams.2) ∧
        ∀ limit fuel' r, (∀ m', limit = some m' → m ≤ m') →
          run D.transcribed fuel' limit p s = some r → u.streams.2 <+: r.state.streams.2) ∧
    ∀ m k, advance D.transcribed m k [p] s =
      (advance D.transcribed m 0 [p] s).countedFrom k := by
  have hflush' : ∀ x, (D.transcribed.flush x).1 = .ok () := fun x => hflush x.1
  refine ⟨fun n t => limit_of_completed hflush', fun fault t => limit_of_failed hflush',
    limit_of_endless hflush', fun m fuel steps u h => ?_, fun m k => ?_⟩
  · obtain ⟨hsteps, c, hturns, -, rfl⟩ := turns_of_outOfSteps h
    exact ⟨hsteps, c, hturns, rfl, rfl, fun limit fuel' r hlimit hr =>
      written_prefix_of_outOfSteps h hlimit hr⟩
  · exact advance_countedFrom D.transcribed m k ⟨[p], s⟩

/-- Reads and writes as many bytes as the current cell says, counting each of them down to zero. -/
def echoing : Program :=
  .loop (.op (.shift 1) (.op .input (.op .output (.loop (.op (.add (-1) 0) .done)
    (.op (.shift (-1)) (.op (.add (-1) 0) .done)))))) .done

/-- A later run of a session, which has written a byte before. The limit of twenty steps is one less
than the run needs, and the limit of twelve ends it inside its outer loop. -/
theorem run_limit_exact_echoing :
    (∀ x, (Buffers.device.flush x).1 = .ok ()) ∧
      run Buffers.device.transcribed 0 (some 21) echoing ⟨⟨#[2], 0⟩, ⟨[2, 1], #[9]⟩, [9]⟩ =
        some ⟨.ok (.completed 21), ⟨⟨#[0, 0], 0⟩, ⟨[], #[9, 2, 1]⟩, [9, 2, 1]⟩⟩ ∧
      CutOff Buffers.device.transcribed 0 20 echoing ⟨⟨#[2], 0⟩, ⟨[2, 1], #[9]⟩, [9]⟩ ∧
      ([9, 2] : List UInt8) <+: [9, 2, 1] := by
  have hflush : ∀ x, (Buffers.device.flush x).1 = .ok () := fun _ => rfl
  obtain ⟨hcompleted, -, -, hcut, -⟩ :=
    run_limit_exact Buffers.device hflush echoing ⟨⟨#[2], 0⟩, ⟨[2, 1], #[9]⟩, [9]⟩
  have hlimit := hcompleted 21 ⟨⟨#[0, 0], 0⟩, ⟨[], #[9, 2, 1]⟩, [9, 2, 1]⟩ ⟨30, rfl⟩
  obtain ⟨-, c, -, -, -, hprefix⟩ :=
    hcut 12 0 12 ⟨⟨#[1, 0], 0⟩, ⟨[1], #[9, 2]⟩, [9, 2]⟩ rfl
  refine ⟨hflush, (hlimit 21 0).1 (Nat.le_refl 21), (hlimit 20 0).2 (Nat.lt_succ_self 20), ?_⟩
  exact hprefix (some 21) 0 _ (fun m' hm => by cases hm; decide)
    ((hlimit 21 0).1 (Nat.le_refl 21))

end Machine

end TapeLang
