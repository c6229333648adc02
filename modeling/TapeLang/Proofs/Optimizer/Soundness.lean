import TapeLang.Device.Script
import TapeLang.Proofs.Counter
import TapeLang.Proofs.Optimizer.Pipeline

/-!
# The optimiser is sound

Three readings of the refinement that the optimiser achieves. A run on a new tape that completes
within a limit is matched by a run of the optimised program within the same limit, with the same
output and the same tape (`execute_optimize`). On any device the optimised program makes the same
calls in the same order, whether the run completes, fails, is cut off or never ends
(`calls_optimize`). And a session whose pieces are optimised one by one goes on from equal machines
after each piece (`play_optimize`).
-/

set_option autoImplicit false

namespace TapeLang.Machine

variable {σ ε : Type}

theorem refines_optimize_fresh (D : Device σ) {F : PassSet} {p q : Program} {log : List Event}
    (h : F.optimize p = .ok (q, log)) (streams : σ) :
    Refines D ⟨[p], .fresh streams⟩ ⟨[q], .fresh streams⟩ :=
  refines_optimize h (State.Same.refl _) fun _ => Tape.blank_empty

/-! ## Runs with input and output in memory -/

/-- Where a program on a new tape completes, the optimised program completes under the same limit,
in no more steps, with the same output, pointer and tape. -/
theorem execute_optimize {F : PassSet} {p q : Program} {log : List Event}
    (h : F.optimize p = .ok (q, log)) (fuel : Nat) (limit : Option Nat) (input : List UInt8)
    {r : Run Buffers} {n : Nat} (hr : execute fuel limit p input = some r)
    (hn : r.result = .ok (.completed n)) :
    ∃ n' r', execute fuel limit q input = some r' ∧ r'.result = .ok (.completed n') ∧ n' ≤ n ∧
      r'.state.streams.output = r.state.streams.output ∧
      r'.state.tape.pointer = r.state.tape.pointer ∧
      r'.state.tape.trimmed = r.state.tape.trimmed := by
  obtain ⟨n', r', hr', hn', hle, hsame⟩ :=
    (refines_optimize_fresh Buffers.device h (.ofInput input)).run_completed hr hn
  exact ⟨n', r', hr', hn', hle, congrArg Buffers.output hsame.streams_eq.symm,
    hsame.tape.pointer_eq.symm, (Tape.Same.trimmed_eq hsame.tape).symm⟩

/-- A loop on a zero cell, additions that cancel, and a loop that doubles one cell into the next. -/
def doubling : Program :=
  .loop (.op .output .done) (.op (.add 1 0) (.op (.add (-1) 0) (.op (.add 1 0)
    (.loop (.op (.add (-1) 0) (.op (.shift 1) (.op (.add 2 0) (.op (.shift (-1)) .done))))
      (.op (.shift 1) (.op .output .done))))))

/-- What all passes make of `doubling`. -/
def doubled : Program :=
  .op (.add 1 0) (.op (.multiply (.ofList [(1, 2)])) (.op (.shift 1) (.op .output .done)))

/-- The limit of twelve steps is the number that the program itself takes. -/
theorem execute_optimize_doubling :
    ∃ log, PassSet.all.optimize doubling = .ok (doubled, log) ∧
      ∃ n' r', execute 50 (some 12) doubled [] = some r' ∧ r'.result = .ok (.completed n') ∧
        n' ≤ 12 ∧ r'.state.streams.output = #[2] ∧ r'.state.tape.pointer = 1 ∧
        r'.state.tape.trimmed = Tape.trimmed ⟨#[0, 2], 1⟩ :=
  ⟨_, rfl, execute_optimize (F := .all) (p := doubling) rfl 50 (some 12) []
    (r := ⟨.ok (.completed 12), ⟨⟨#[0, 2], 1⟩, ⟨[], #[2]⟩⟩⟩) rfl rfl⟩

/-! ## Calls of the device -/

/-- The calls that the operations of a program make in its first `m` steps on a new tape. -/
def callsWithin (D : Device σ) (m : Nat) (p : Program) (streams : σ) : List Device.Call :=
  (advance D.recorded m 0 [p] (.fresh (streams, []))).state.streams.2

/-- The optimised program calls the device as the program does. In as many steps it has made at
least the calls that the program has made; if the program completes or ends with a failure of the
device, it ends in the same way with the same calls; and if the program never ends, it never ends
and makes no other calls. -/
theorem calls_optimize (D : Device σ) {F : PassSet} {p q : Program} {log : List Event}
    (h : F.optimize p = .ok (q, log)) (streams : σ) :
    (∀ m, callsWithin D m p streams <+: callsWithin D m q streams) ∧
    (∀ fuel r n, run D.recorded fuel none p (.fresh (streams, [])) = some r →
      r.result = .ok (.completed n) →
        ∃ r' n', run D.recorded fuel none q (.fresh (streams, [])) = some r' ∧
          r'.result = .ok (.completed n') ∧ r'.state.streams = r.state.streams) ∧
    (∀ fuel r e, run D.recorded fuel none p (.fresh (streams, [])) = some r →
      r.result = .error (.stream e) →
        ∃ r', run D.recorded fuel none q (.fresh (streams, [])) = some r' ∧
          r'.result = .error (.stream e) ∧ r'.state.streams = r.state.streams) ∧
    ((∀ fuel, run D.recorded fuel none p (.fresh (streams, [])) = none) →
      (∀ fuel, run D.recorded fuel none q (.fresh (streams, [])) = none) ∧
        ∀ m calls, calls <+: callsWithin D m q streams →
          ∃ m', calls <+: callsWithin D m' p streams) := by
  have hrefines := refines_optimize_fresh D.recorded h (streams, [])
  refine ⟨fun m => ?_, fun fuel r n hr hn => ?_, fun fuel r e hr he => ?_, fun hp => ?_⟩
  · exact (hrefines.matched m).later.calls_prefix
  · obtain ⟨n', r', hr', hn', -, hsame⟩ := hrefines.run_completed hr hn
    exact ⟨r', n', hr', hn', hsame.streams_eq.symm⟩
  · obtain ⟨r', hr', he', hstreams⟩ := hrefines.run_stream hr he
    exact ⟨r', hr', he', hstreams.symm⟩
  · refine ⟨fun fuel => (hrefines.run_endless hp fuel).1, fun m calls hcalls => ?_⟩
    obtain ⟨-, m', hlater⟩ := hrefines.run_endless hp m
    exact ⟨m', hcalls.trans hlater.calls_prefix⟩

/-- A device whose first write fails. -/
theorem calls_optimize_doubling :
    ∃ log, PassSet.all.optimize doubling = .ok (doubled, log) ∧
      ∃ r', run Script.device.recorded 50 none doubled
          (.fresh (.start [] ⟨none, some 0, none, .nothingWritten⟩, [])) = some r' ∧
        r'.result = .error (.stream .nothingWritten) ∧
        r'.state.streams.2 = [.write 2, .flush] := by
  refine ⟨_, rfl, ?_⟩
  obtain ⟨-, -, hstream, -⟩ := calls_optimize Script.device (F := .all) (p := doubling)
    (q := doubled) rfl (.start [] ⟨none, some 0, none, .nothingWritten⟩)
  obtain ⟨r', hr', he, hstreams⟩ := hstream 50 _ .nothingWritten rfl rfl
  exact ⟨r', hr', he, congrArg Prod.snd hstreams⟩

/-! ## Sessions -/

/-- Programs that are run one after the other without a step limit. -/
def unlimited (pieces : List Program) : List (Except ε Job) := pieces.map fun p => .ok ⟨p, none⟩

/-- The pieces of a session, optimised one by one: the first with any passes, since it meets a new
tape, and the later ones without the pass that relies on one. -/
def OptimizedPieces : List Program → List Program → Prop
  | [], [] => True
  | p :: ps, q :: qs =>
      (∃ F log, PassSet.optimize F p = .ok (q, log)) ∧
        List.Forall₂ (fun p q => ∃ F log, F.zero = false ∧ PassSet.optimize F p = .ok (q, log))
          ps qs
  | _, _ => False

/-- A run that has completed. -/
def Completed : Except ε (Run σ) → Prop
  | .ok r => ∃ n, r.result = .ok (.completed n)
  | .error _ => False

/-- Two runs that have completed, the second in no more steps, and have left equal devices, the same
pointer and the same bytes on the tape. -/
def NoWorse : Except ε (Run σ) → Except ε (Run σ) → Prop
  | .ok r, .ok r' =>
      ∃ n n', r.result = .ok (.completed n) ∧ r'.result = .ok (.completed n') ∧ n' ≤ n ∧
        r'.state.streams = r.state.streams ∧ r'.state.tape.pointer = r.state.tape.pointer ∧
        r'.state.tape.trimmed = r.state.tape.trimmed
  | _, _ => False

/-- The session `qs` from the one machine ends each run as the session `ps` from the other does. -/
def SessionNoWorse (ε : Type) (D : Device σ) (fuel : Nat) (ps qs : List Program)
    (s s' : State σ) : Prop :=
  ∀ runs : List (Except ε (Run σ)), play D fuel (unlimited ps) s = some runs →
    (∀ r ∈ runs, Completed r) →
      ∃ runs', play D fuel (unlimited qs) s' = some runs' ∧ List.Forall₂ NoWorse runs runs'

theorem play_unlimited_cons (D : Device σ) (fuel : Nat) (p : Program) (ps : List Program)
    (s : State σ) {r : Run σ} (hr : run D fuel none p s = some r) {n : Nat}
    (hn : r.result = .ok (.completed n)) :
    play (ε := ε) D fuel (unlimited (p :: ps)) s =
      (play D fuel (unlimited ps) r.state).map (.ok r :: ·) := by
  have hfatal : r.isFatal = false := by simp only [Run.isFatal, hn]
  rw [unlimited, List.map_cons, play_ok, hr, Option.bind_some, hfatal]
  rfl

/-- The first run of a session that is not stopped by it. -/
theorem exists_run_of_play {D : Device σ} {fuel : Nat} {p : Program} {ps : List Program}
    {s : State σ} {runs : List (Except ε (Run σ))}
    (h : play D fuel (unlimited (p :: ps)) s = some runs) (hdone : ∀ r ∈ runs, Completed r) :
    ∃ r n, run D fuel none p s = some r ∧ r.result = .ok (.completed n) := by
  rw [unlimited, List.map_cons, play_ok] at h
  obtain ⟨r, hr, hrest⟩ := Option.bind_eq_some_iff.1 h
  have hmem : .ok r ∈ runs := by
    split at hrest
    next =>
      obtain rfl := Option.some.inj hrest
      exact List.mem_singleton_self _
    next =>
      obtain ⟨later, -, rfl⟩ := Option.map_eq_some_iff.1 hrest
      exact List.mem_cons_self
  obtain ⟨n, hn⟩ := hdone (.ok r) hmem
  exact ⟨r, n, hr, hn⟩

/-- A session whose first piece is refined, from machines that need not be equal. -/
theorem SessionNoWorse.cons {D : Device σ} {fuel : Nat} {p q : Program} {ps qs : List Program}
    {s s' : State σ} (hpq : Refines D ⟨[p], s⟩ ⟨[q], s'⟩)
    (htail : ∀ t t', State.Same t t' → SessionNoWorse ε D fuel ps qs t t') :
    SessionNoWorse ε D fuel (p :: ps) (q :: qs) s s' := by
  intro runs hplay hdone
  obtain ⟨r, n, hr, hn⟩ := exists_run_of_play hplay hdone
  obtain ⟨n', r', hr', hn', hle, hsame⟩ := hpq.run_completed hr hn
  rw [play_unlimited_cons D fuel p ps s hr hn] at hplay
  obtain ⟨later, hlater, rfl⟩ := Option.map_eq_some_iff.1 hplay
  obtain ⟨later', hlater', hnoworse⟩ := htail _ _ hsame later hlater fun x hx =>
    hdone x (List.mem_cons_of_mem _ hx)
  refine ⟨.ok r' :: later', ?_, .cons ?_ hnoworse⟩
  · rw [play_unlimited_cons D fuel q qs s' hr' hn', hlater', Option.map_some]
  · exact ⟨n, n', hn, hn', hle, hsame.streams_eq.symm, hsame.tape.pointer_eq.symm,
      (Tape.Same.trimmed_eq hsame.tape).symm⟩

/-- The later pieces, on whatever tape the pieces before them have left. -/
theorem sessionNoWorse_later {D : Device σ} {fuel : Nat} {ps qs : List Program}
    (h : List.Forall₂ (fun p q => ∃ F log, F.zero = false ∧ PassSet.optimize F p = .ok (q, log))
      ps qs) :
    ∀ s s', State.Same s s' → SessionNoWorse ε D fuel ps qs s s' := by
  induction h with
  | nil =>
      intro s s' _ runs hplay _
      exact ⟨[], rfl, by cases hplay; exact .nil⟩
  | cons hpq _ ih =>
      intro s s' hs
      obtain ⟨F, log, hzero, hopt⟩ := hpq
      exact SessionNoWorse.cons (refines_optimize hopt hs fun h => absurd (hzero ▸ h) nofun) ih

/-- A session fed in optimised pieces. If every run of the session completes, every run of the
optimised pieces completes in no more steps, after the same calls of the device, and leaves an equal
device, the same pointer and the same bytes on the tape. -/
theorem play_optimize (D : Device σ) (fuel : Nat) (streams : σ) {pieces optimized : List Program}
    (h : OptimizedPieces pieces optimized)
    {runs : List (Except ε (Run (σ × List Device.Call)))}
    (hplay : play D.recorded fuel (unlimited pieces) (.fresh (streams, [])) = some runs)
    (hdone : ∀ r ∈ runs, Completed r) :
    ∃ runs', play D.recorded fuel (unlimited optimized) (.fresh (streams, [])) = some runs' ∧
      List.Forall₂ NoWorse runs runs' := by
  cases pieces with
  | nil =>
      cases optimized with
      | nil => exact sessionNoWorse_later .nil _ _ (State.Same.refl _) runs hplay hdone
      | cons q qs => exact h.elim
  | cons p ps =>
      cases optimized with
      | nil => exact h.elim
      | cons q qs =>
          obtain ⟨⟨F, log, hopt⟩, hlater⟩ := h
          exact SessionNoWorse.cons (refines_optimize_fresh D.recorded hopt (streams, []))
            (sessionNoWorse_later hlater) runs hplay hdone

/-- A session of two pieces, of which the second meets the tape that the first has left. -/
theorem play_optimize_doubling :
    ∃ runs : List (Except Empty (Run (Buffers × List Device.Call))),
      play Buffers.device.recorded 50
          (unlimited [doubling, .loop (.op (.add (-1) 0) .done) (.op .output .done)])
          (.fresh (.ofInput [], [])) = some runs ∧
        ∃ runs', play Buffers.device.recorded 50
            (unlimited [doubled, .op .setZero (.op .output .done)])
            (.fresh (.ofInput [], [])) = some runs' ∧ List.Forall₂ NoWorse runs runs' := by
  have hpieces : OptimizedPieces [doubling, .loop (.op (.add (-1) 0) .done) (.op .output .done)]
      [doubled, .op .setZero (.op .output .done)] :=
    ⟨⟨.all, _, rfl⟩, .cons ⟨{ PassSet.all with zero := false }, _, rfl, rfl⟩ .nil⟩
  refine ⟨[.ok ⟨.ok (.completed 12), ⟨⟨#[0, 2], 1⟩, ⟨[], #[2]⟩, [.write 2, .flush]⟩⟩,
    .ok ⟨.ok (.completed 6), ⟨⟨#[0, 0], 1⟩, ⟨[], #[2, 0]⟩,
      [.write 2, .flush, .write 0, .flush]⟩⟩], rfl,
    play_optimize Buffers.device 50 (.ofInput []) hpieces rfl fun r hr => ?_⟩
  rcases List.mem_cons.1 hr with rfl | hr
  · exact ⟨12, rfl⟩
  · obtain rfl := List.mem_singleton.1 hr
    exact ⟨6, rfl⟩

end TapeLang.Machine
