import TapeLang.Proofs.Budget
import TapeLang.Proofs.Executed
import TapeLang.Proofs.StreamCalls

/-!
# What has been written goes out

Over a whole session, on streams that may fail in any way at any call, three things hold
(`flush_discipline`). Each run that ends has ended with a flush. No read call is made while a byte
that the writer has taken has not been flushed. And the bytes that the writer has taken are the
values of the current cell at the outputs that have succeeded, in the order in which these were
executed. The last two are kept by every operation (`orderly_exec`), and so by some steps of a run,
by a whole run and by a session.

The runs of a session are those that are played one after the other (`session_of_play`). A run on a
script is a run on its single calls (`run_watched_script`), so all this holds for scripts.
-/

set_option autoImplicit false

namespace TapeLang.Machine

open Streams (Call Watched Disciplined Orderly)

variable {σ : Type}

/-! ## Sessions -/

/-- The byte that an operation has written: the value of the current cell, if it is an output that
has succeeded. -/
def written (D : Device σ) : Op × State σ → Option UInt8
  | (.output, s) =>
      match exec D .output s with
      | .next _ => some s.tape.current
      | .failed _ _ => none
  | _ => none

theorem written_output (D : Device σ) (s : State σ) :
    (written D (.output, s)).toList =
      if (D.write s.tape.current s.streams).1.isOk then [s.tape.current] else [] := by
  simp only [written, exec]
  rcases D.write s.tape.current s.streams with ⟨result, streams⟩
  cases result <;> rfl

/-- A machine that some runs have led to, one after the other, and the operations that these have
executed. The runs may have ended in any way. -/
inductive Session (D : Device σ) (start : State σ) : List (Op × State σ) → State σ → Prop
  | start : Session D start [] start
  | run {acts : List (Op × State σ)} {s : State σ} {fuel : Nat} {limit : Option Nat} {p : Program}
      {r : Run σ} (earlier : Session D start acts s) (h : run D fuel limit p s = some r) :
      Session D start (acts ++ executed D (limit.getD fuel) ⟨[p], s⟩) r.state

/-- Every run that is played belongs to a session. -/
theorem session_of_play {ε : Type} {D : Device σ} {fuel : Nat} {start : State σ}
    {jobs : List (Except ε Job)} : ∀ {acts : List (Op × State σ)} {s : State σ}
    {runs : List (Except ε (Run σ))}, Session D start acts s → play D fuel jobs s = some runs →
      ∀ r, .ok r ∈ runs → ∃ acts', Session D start acts' r.state := by
  induction jobs with
  | nil =>
      intro acts s runs _ hplay r hr
      cases hplay
      cases hr
  | cons job jobs ih =>
      intro acts s runs hs hplay r hr
      cases job with
      | error e =>
          rw [play_error] at hplay
          obtain ⟨later, hlater, rfl⟩ := Option.map_eq_some_iff.1 hplay
          rcases List.mem_cons.1 hr with heq | hr
          · cases heq
          · exact ih hs hlater r hr
      | ok job =>
          rw [play_ok] at hplay
          obtain ⟨first, hfirst, hrest⟩ := Option.bind_eq_some_iff.1 hplay
          by_cases hfatal : first.isFatal = true
          · -- nothing is played after it
            rw [if_pos hfatal] at hrest
            cases hrest
            cases List.mem_singleton.1 hr
            exact ⟨_, hs.run hfirst⟩
          · rw [if_neg hfatal] at hrest
            obtain ⟨later, hlater, rfl⟩ := Option.map_eq_some_iff.1 hrest
            rcases List.mem_cons.1 hr with heq | hr
            · cases heq
              exact ⟨_, hs.run hfirst⟩
            · exact ih (hs.run hfirst) hlater r hr

section Discipline

variable (S : Streams σ) (patience : Nat) {base : List Call}

theorem orderly_readByte {bytes : List UInt8} {x : Watched σ} (h : Orderly base bytes x.calls) :
    Orderly base bytes (readByte (S.watched.device patience) x).2.calls := by
  have hflush : Orderly base bytes ((S.watched.device patience).flush x).2.calls := h.flush _
  have hout : ((S.watched.device patience).flush x).1 = .ok () →
      Streams.AllOut ((S.watched.device patience).flush x).2.calls := by
    intro hok
    have hcalls : ((S.watched.device patience).flush x).2.calls =
        x.calls ++ [.flush ((S.watched.device patience).flush x).1.isOk] := rfl
    rw [hcalls, hok]
    exact Streams.allOut_flush x.calls
  rw [readByte]
  rcases hf : (S.watched.device patience).flush x with ⟨result, x₁⟩
  rw [hf] at hflush hout
  cases result with
  | error e => exact hflush
  | ok _ =>
      -- the read comes right after a flush that has succeeded
      have hread := hflush.read S patience (hout rfl)
      simp only at hread ⊢
      rcases hr : (S.watched.device patience).read x₁ with ⟨byte, x₂⟩
      rw [hr] at hread
      cases byte with
      | ok byte => exact hread
      | error e =>
          simp only
          split
          · exact hread
          · exact hread

/-- An operation keeps the calls in order, and the writer has taken what has been written. -/
theorem orderly_exec {acts : List (Op × State (Watched σ))} (o : Op) {s : State (Watched σ)}
    (h : Orderly base (acts.filterMap (written (S.watched.device patience))) s.streams.calls) :
    Orderly base ((acts ++ [(o, s)]).filterMap (written (S.watched.device patience)))
      (exec (S.watched.device patience) o s).state.streams.calls := by
  rw [streams_exec, Streams.filterMap_concat]
  cases o with
  | input => exact (List.append_nil _).symm ▸ orderly_readByte S patience h
  | output =>
      rw [written_output]
      exact h.write S patience s.tape.current
  | _ => exact (List.append_nil _).symm ▸ h

/-- Some steps of a run keep the calls in order. -/
theorem orderly_advance {acts : List (Op × State (Watched σ))} {s : State (Watched σ)}
    (h : Orderly base (acts.filterMap (written (S.watched.device patience))) s.streams.calls)
    (m : Nat) (p : Program) :
    Orderly base
      ((acts ++ executed (S.watched.device patience) m ⟨[p], s⟩).filterMap
        (written (S.watched.device patience)))
      (advance (S.watched.device patience) m 0 [p] s).state.streams.calls :=
  advance_invariant (P := fun acts t =>
      Orderly base (acts.filterMap (written (S.watched.device patience))) t.streams.calls)
    (orderly_exec S patience) m acts 0 ⟨[p], s⟩ h

theorem calls_flushed (t : State (Watched σ)) :
    ∃ succeeded, (t.flushed (S.watched.device patience)).streams.calls =
      t.streams.calls ++ [.flush succeeded] :=
  ⟨_, rfl⟩

/-- A whole run keeps the calls in order, and its own calls end with a flush. -/
theorem orderly_run {acts : List (Op × State (Watched σ))} {s : State (Watched σ)}
    (h : Orderly base (acts.filterMap (written (S.watched.device patience))) s.streams.calls)
    {fuel : Nat} {limit : Option Nat} {p : Program} {r : Run (Watched σ)}
    (hr : run (S.watched.device patience) fuel limit p s = some r) :
    Orderly base
        ((acts ++ executed (S.watched.device patience) (limit.getD fuel) ⟨[p], s⟩).filterMap
          (written (S.watched.device patience)))
        r.state.streams.calls ∧
      ∃ during succeeded,
        r.state.streams.calls = s.streams.calls ++ during ++ [.flush succeeded] := by
  -- the calls of this run are those that come after `s.streams.calls`
  obtain ⟨during, hduring⟩ := (orderly_advance S patience h.rebase (limit.getD fuel) p).later
  obtain ⟨succeeded, hflushed⟩ := calls_flushed S patience
    (advance (S.watched.device patience) (limit.getD fuel) 0 [p] s).state
  rw [state_of_run hr, hflushed]
  refine ⟨(orderly_advance S patience h (limit.getD fuel) p).flush succeeded, during, succeeded, ?_⟩
  rw [hduring]

theorem orderly_session {tape : Tape} {x : σ} {acts : List (Op × State (Watched σ))}
    {s : State (Watched σ)} (h : Session (S.watched.device patience) ⟨tape, x, []⟩ acts s) :
    Orderly [] (acts.filterMap (written (S.watched.device patience))) s.streams.calls := by
  induction h with
  | start => exact .nil
  | run _ hr ih => exact (orderly_run S patience ih hr).1

/-- Whatever the reader and the writer do, in every run of every session: at every moment of the
run, every byte that the writer had taken before a read call was flushed before it, and the bytes
that the writer has taken since the start of the session are the values of the current cell at the
outputs that have succeeded, in order. A run that returns has ended with a flush, which is the last
call of all, whether it succeeds or not. -/
theorem flush_discipline {tape : Tape} {x : σ} {acts : List (Op × State (Watched σ))}
    {s : State (Watched σ)} (hs : Session (S.watched.device patience) ⟨tape, x, []⟩ acts s)
    (p : Program) :
    (∀ m, Disciplined (advance (S.watched.device patience) m 0 [p] s).state.streams.calls ∧
      (advance (S.watched.device patience) m 0 [p] s).state.streams.calls.filterMap Call.byte =
        (acts ++ executed (S.watched.device patience) m ⟨[p], s⟩).filterMap
          (written (S.watched.device patience))) ∧
    ∀ fuel limit r, run (S.watched.device patience) fuel limit p s = some r →
      (∃ during succeeded,
        r.state.streams.calls = s.streams.calls ++ during ++ [.flush succeeded]) ∧
      Disciplined r.state.streams.calls ∧
      r.state.streams.calls.filterMap Call.byte =
        (acts ++ executed (S.watched.device patience) (limit.getD fuel) ⟨[p], s⟩).filterMap
          (written (S.watched.device patience)) := by
  have hsession := orderly_session S patience hs
  constructor
  · intro m
    have hmoment := orderly_advance S patience hsession m p
    exact ⟨hmoment.disciplined, hmoment.bytes_eq⟩
  · intro fuel limit r hr
    obtain ⟨hrun, hlast⟩ := orderly_run S patience hsession hr
    exact ⟨hlast, hrun.disciplined, hrun.bytes_eq⟩

end Discipline

/-- Writes the current cell, reads into it, and writes it again. -/
def prompting : Program := .op .output (.op .input (.op .output .done))

/-- A reader that is interrupted once before its byte, and a writer whose third write call fails. -/
def unsteady : Script :=
  .start [.failure ⟨.interrupted, "again"⟩, .bytes [65]]
    ⟨none, some 2, none, ⟨.other "BrokenPipe", "gone"⟩⟩

/-- Two runs, of which the second fails at its first write. -/
theorem flush_discipline_prompting :
    ∃ acts s r,
      Session (Script.streams.watched.device 2) ⟨.empty, unsteady, []⟩ acts s ∧
      run (Script.streams.watched.device 2) 3 none prompting s = some r ∧
      r.result = .error (.stream ⟨.other "BrokenPipe", "gone"⟩) ∧
      r.state.streams.calls = [.write 0 true, .flush true, .read, .read, .write 65 true,
        .flush true, .write 65 false, .flush true] ∧
      Disciplined r.state.streams.calls ∧
      (acts ++ executed (Script.streams.watched.device 2) 3 ⟨[prompting], s⟩).filterMap
        (written (Script.streams.watched.device 2)) = [0, 65] := by
  have hfirst : Session (Script.streams.watched.device 2) ⟨.empty, unsteady, []⟩ _ _ :=
    .run .start (rfl : run _ 3 none prompting _ = some _)
  obtain ⟨-, hruns⟩ := flush_discipline Script.streams 2 hfirst prompting
  obtain ⟨-, hdisciplined, hbytes⟩ := hruns 3 none _ rfl
  exact ⟨_, _, _, hfirst, rfl, rfl, rfl, hdisciplined, hbytes.symm⟩

/-! ## Scripts -/

/-- A script that is watched, call by call, and the script itself. -/
theorem parallel_script (patience : Nat) :
    Parallel (Script.streams.watched.device (patience + 1)) Script.device
      fun _ x y => x.inside = y ∧ y.chunks.length ≤ patience + 1 := by
  apply Parallel.of_exchanges
  · rintro x _ ⟨rfl, hlength⟩
    have hread := Streams.retry_inside Script.streams.watched.read
      (fun y => ⟨rfl, rfl⟩) (patience + 1) x
    rw [Script.retry_read hlength] at hread
    exact ⟨hread.1, hread.2, (Chunk.length_read_le _).trans hlength⟩
  · rintro x _ b ⟨rfl, hlength⟩
    have hwrite := Streams.retry_inside (Script.streams.watched.write b)
      (fun y => ⟨rfl, rfl⟩) (patience + 1) x
    have hexchange := Prod.ext_iff.1 (Script.retry_write b patience x.inside)
    refine ⟨(congrArg Streams.accepted hwrite.1).trans hexchange.1, hwrite.2.trans hexchange.2, ?_⟩
    exact (Script.chunks_write b x.inside).symm ▸ hlength
  · rintro x _ ⟨rfl, hlength⟩
    refine ⟨rfl, rfl, ?_⟩
    simp only [Script.device, Script.flush]
    split <;> exact hlength

/-- A run on a script ends like one on its calls while these are taken down, with the same tape and
the script at the same place. -/
theorem run_watched_script {patience : Nat} {s : State (Watched Script)}
    (h : s.streams.inside.chunks.length ≤ patience + 1) (fuel : Nat) (limit : Option Nat)
    (p : Program) :
    Option.Rel
      (Run.Parallel fun x y => x.inside = y ∧ y.chunks.length ≤ patience + 1)
      (run (Script.streams.watched.device (patience + 1)) fuel limit p s)
      (run Script.device fuel limit p ⟨s.tape, s.streams.inside⟩) :=
  run_parallel (parallel_script patience) fuel limit p ⟨rfl, rfl, h⟩

end TapeLang.Machine
