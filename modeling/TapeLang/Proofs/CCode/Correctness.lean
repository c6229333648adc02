import TapeLang.Proofs.CCode.Operations

/-!
# Generated code does what the program does

The main function of a program and the machine without a word run side by side: for every step of
the machine the code takes one or more, and then its blocks are the code of the frames that the
machine has left, its array mirrors the tape, and there is room for what comes next
(`matches_step`). So the code ends as the machine ends, with the same output, and is never
undefined. The machine with a word ends in the same way as long as nothing leaves the word.
-/

set_option autoImplicit false

namespace TapeLang.CCode

/-- The end of the main function. -/
def epilogue : Block := .stmt .release (.stmt .finish .done)

/-- What follows the code of a frame in its block: the end of the main function behind the outermost
frame. -/
def ending : List Program → Block
  | [] => epilogue
  | _ :: _ => .done

/-- The blocks of the frames of a run. -/
def framesCode (grow : Option Nat) : List Program → List Block
  | [] => []
  | p :: K => p.code grow (ending K) :: framesCode grow K

/-- The code of some frames, about to be run on an array that mirrors the tape and has room for
them. -/
structure Poised (grow : Option Nat) (K : List Program) (u : Unbounded.State) (B : List Block)
    (c : State) : Prop where
  nonempty : K ≠ []
  code : B = framesCode grow K
  mirrors : Mirrors u c
  roomy : Program.Roomy grow c.length u.pointer K
  spares : ∀ p ∈ K, p.allOps Op.sparesCurrent = true

/-- Where a machine without a word stands, against where the code stands. -/
def Matches (grow : Option Nat) : Unbounded.Progress → Progress → Prop
  | .running K u, .running B c => Poised grow K u B c
  | .ended e u, .ended e' c => e' = e ∧ c.streams = u.streams
  | _, _ => False

section Step

variable {grow : Option Nat} {K : List Program} {u : Unbounded.State} {c : State}

theorem leads_op {o : Op} {rest : Program}
    (h : Poised grow (.op o rest :: K) u (framesCode grow (.op o rest :: K)) c) :
    ∃ y, Leads (.running (framesCode grow (.op o rest :: K)) c) y ∧
      Matches grow (Unbounded.step (.running (.op o rest :: K) u)) y := by
  obtain ⟨hfirst, hbelow⟩ := List.forall_mem_cons.1 h.spares
  obtain ⟨ho, hrest⟩ := (Program.allOps_op o rest).1 hfirst
  have hends : OpEnds grow u c (.running (framesCode grow (.op o rest :: K)) c)
      (framesCode grow (rest :: K)) (Unbounded.exec o u) :=
    opEnds_code h.mirrors h.roomy.lt_length ho (fun k hk => h.roomy.offset_lt hk)
      (rest.code grow (ending K)) (framesCode grow K)
  cases hexec : Unbounded.exec o u with
  | none =>
      rw [hexec] at hends
      rw [Unbounded.step_op_none K u rest hexec]
      exact ⟨_, hends, rfl, h.mirrors.streams⟩
  | some u' =>
      rw [hexec] at hends
      rcases hends with ⟨c', hleads, hcarried⟩
      rw [Unbounded.step_op_some K u rest hexec]
      refine ⟨_, hleads, List.cons_ne_nil _ _, rfl, hcarried.mirrors, ?_, ?_⟩
      · exact h.roomy.op (Unbounded.pointer_of_exec hexec) hcarried.length_le hcarried.grown
      · exact List.forall_mem_cons.2 ⟨hrest, hbelow⟩

theorem leads_loop {body rest : Program}
    (h : Poised grow (.loop body rest :: K) u (framesCode grow (.loop body rest :: K)) c) :
    ∃ y, Leads (.running (framesCode grow (.loop body rest :: K)) c) y ∧
      Matches grow (Unbounded.step (.running (.loop body rest :: K) u)) y := by
  obtain ⟨hfirst, hbelow⟩ := List.forall_mem_cons.1 h.spares
  obtain ⟨hbody, hrest⟩ := (Program.allOps_loop body rest).1 hfirst
  have hlt := h.roomy.lt_length
  have hcurrent := h.mirrors.current hlt
  have haccess : ∀ k, c.access 0 k = k c.p := access_current (by rw [h.mirrors.p]; exact hlt)
  refine ⟨_, Leads.step, ?_⟩
  rw [framesCode, Program.code, step, haccess, hcurrent]
  by_cases hzero : u.current = 0
  · rw [Unbounded.step_loop_zero K u body rest hzero, if_pos hzero]
    refine ⟨List.cons_ne_nil _ _, rfl, h.mirrors, h.roomy.leave, ?_⟩
    exact List.forall_mem_cons.2 ⟨hrest, hbelow⟩
  · rw [Unbounded.step_loop_nonzero K u body rest hzero, if_neg hzero]
    -- the body runs above the loop, which is tested again when the body is over
    refine ⟨List.cons_ne_nil _ _, rfl, h.mirrors, h.roomy.enter, ?_⟩
    exact List.forall_mem_cons.2 ⟨hbody, h.spares⟩

/-- The code of some frames takes a step of the machine. A frame with nothing left is popped on both
sides, so the proof goes down the frames. -/
theorem leads_frames : ∀ {K : List Program}, Poised grow K u (framesCode grow K) c →
    ∃ y, Leads (.running (framesCode grow K) c) y ∧
      Matches grow (Unbounded.step (.running K u)) y := by
  intro K
  induction K with
  | nil =>
      intro h
      exact absurd rfl h.nonempty
  | cons p K ih =>
      intro h
      cases p with
      | op o rest => exact leads_op h
      | loop body rest => exact leads_loop h
      | done =>
          cases K with
          | nil =>
              -- the outermost frame is over: the array is given back, and the main function returns
              exact ⟨_, Leads.head (Reaches.head (Reaches.refl _)), rfl, h.mirrors.streams⟩
          | cons q K =>
              have hq : Poised grow (q :: K) u (framesCode grow (q :: K)) c :=
                ⟨List.cons_ne_nil _ _, rfl, h.mirrors, h.roomy.done,
                  (List.forall_mem_cons.1 h.spares).2⟩
              rcases ih hq with ⟨y, hleads, hmatches⟩
              exact ⟨y, Leads.head hleads.reaches, hmatches⟩

theorem matches_step {x : Unbounded.Progress} {y : Progress} (h : Matches grow x y) :
    ∃ y', Leads y y' ∧ Matches grow (Unbounded.step x) y' := by
  cases x with
  | running K u =>
      cases y with
      | running B c =>
          have hcode : B = framesCode grow K := h.code
          subst hcode
          exact leads_frames h
      | ended e c => cases h
      | undefined => cases h
  | ended e u =>
      cases y with
      | ended e' c => exact ⟨_, Leads.step, h⟩
      | running B c => cases h
      | undefined => cases h

/-- After as many steps of the machine the code has taken as many or more, and stands where the
machine stands. -/
theorem matches_run {x : Unbounded.Progress} {y : Progress} (h : Matches grow x y) (n : Nat) :
    ∃ m, n ≤ m ∧ Matches grow (Unbounded.run n x) (run m y) := by
  induction n with
  | zero => exact ⟨0, le_refl 0, h⟩
  | succ n ih =>
      rcases ih with ⟨m, hm, hmatches⟩
      rcases matches_step hmatches with ⟨y', ⟨k, hk⟩, hy'⟩
      refine ⟨k + 1 + m, by omega, ?_⟩
      rw [Unbounded.run_succ_eq_step, run_add, hk]
      exact hy'

end Step

/-! ## The main function -/

/-- How the tape of a program grows: not at all if its highest cell is known, and else with its
reach. -/
def growth (p : Program) : Option Nat := if p.highestCell?.isSome then none else some p.reach

variable {p : Program} {input : List UInt8}

/-- The first line of the main function reserves what the program needs. -/
theorem roomy_main (p : Program) {length : Nat}
    (hlength : max (p.highestCell?.getD (defaultLength - 1)) p.reach < length) :
    Program.Roomy (growth p) length 0 [p] := by
  have hhighest_lt := lt_of_le_of_lt (le_max_left _ _) hlength
  have hreach_lt := lt_of_le_of_lt (le_max_right _ _) hlength
  rw [growth]
  cases hhighest : p.highestFrom? 0 with
  | none =>
      have hcell : p.highestCell? = none := by rw [Program.highestCell?, hhighest]; rfl
      rw [hcell]
      refine ⟨by omega, ?_⟩
      intro q hq
      rw [List.mem_singleton.1 hq]
  | some h =>
      have hcell : p.highestCell? = some h.toNat := by rw [Program.highestCell?, hhighest]; rfl
      rw [hcell, Option.getD_some] at hhighest_lt
      rw [hcell]
      rcases Program.netShift?_of_highestFrom? hhighest with ⟨d, hd⟩
      exact ⟨⟨h, hhighest, by omega⟩, d, hd, trivial⟩

theorem matches_main (hspares : p.allOps Op.sparesCurrent = true) (input : List UInt8) :
    Matches (growth p) (.running [p] (.fresh input)) (runMain p input 1) := by
  refine ⟨List.cons_ne_nil _ _, rfl, (Mirrors.start input).reserve _, ?_, ?_⟩
  · exact roomy_main p (lt_length_reserve _ _)
  · intro q hq
    rwa [List.mem_singleton.1 hq]

/-- The main function, after as many steps as a machine has taken or more. -/
theorem matches_runMain (hspares : p.allOps Op.sparesCurrent = true) (input : List UInt8)
    (n : Nat) : ∃ m, n ≤ m ∧
      Matches (growth p) (Unbounded.run n (.running [p] (.fresh input))) (runMain p input m) := by
  rcases matches_run (matches_main hspares input) n with ⟨m, hm, hmatches⟩
  refine ⟨m + 1, by omega, ?_⟩
  rwa [runMain, ← run_add] at hmatches

/-- The main function of a program on an input ends in a way, and this is what it has written. -/
def Ends (e : End) (p : Program) (input : List UInt8) (output : Array UInt8) : Prop :=
  ∃ n c, runMain p input n = .ended e c ∧ c.streams.output = output

theorem ends_iff (hspares : p.allOps Op.sparesCurrent = true) (e : End) (output : Array UInt8) :
    Ends e p input output ↔ ∃ n u,
      Unbounded.run n (.running [p] (.fresh input)) = .ended e u ∧ u.streams.output = output := by
  constructor
  · rintro ⟨n, c, hc, rfl⟩
    -- the machine has taken fewer steps than the code has, so the code has ended by now
    rcases matches_runMain hspares input n with ⟨m, hm, hmatches⟩
    rw [runMain, run_of_le rfl hm hc] at hmatches
    cases hu : Unbounded.run n (.running [p] (.fresh input)) with
    | ended e' u =>
        rw [hu] at hmatches
        rcases hmatches with ⟨rfl, hstreams⟩
        exact ⟨n, u, hu, by rw [hstreams]⟩
    | running K u =>
        rw [hu] at hmatches
        cases hmatches
  · rintro ⟨n, u, hu, rfl⟩
    rcases matches_runMain hspares input n with ⟨m, -, hmatches⟩
    rw [hu] at hmatches
    cases hc : runMain p input m with
    | ended e' c =>
        rw [hc] at hmatches
        rcases hmatches with ⟨rfl, hstreams⟩
        exact ⟨m, c, hc, by rw [hstreams]⟩
    | running B c =>
        rw [hc] at hmatches
        cases hmatches
    | undefined =>
        rw [hc] at hmatches
        cases hmatches

theorem runMain_ne_undefined (hspares : p.allOps Op.sparesCurrent = true) (input : List UInt8)
    (n : Nat) : runMain p input n ≠ .undefined := by
  intro hundefined
  rcases matches_runMain hspares input n with ⟨m, hm, hmatches⟩
  rw [runMain, run_of_le rfl hm hundefined] at hmatches
  cases hu : Unbounded.run n (.running [p] (.fresh input)) <;> rw [hu] at hmatches <;>
    cases hmatches

/-- Without the line that reserves the array the code of an operation is undefined. -/
example : run 1 (.running [Op.code none .setZero .done] (.start [])) = .undefined := rfl

/-- A program whose multiplications spare the current cell, as all do that come from a source text,
and its code: the text is that of the main function, the machine ends a run exactly when the code
ends in the same way with the same output and nothing has left the word, and the code never uses a
cell outside its array. -/
theorem code_agrees_with_machine {text : String} {log : Log.Record}
    (hgenerate : generate p = .ok (text, log)) (hspares : p.allOps Op.sparesCurrent = true)
    (input : List UInt8) :
    text = linesText (preamble ++
        "" :: "int main(void)" :: "\x7b" :: ((mainBlock p).lines 1 ++ ["\x7d"])) ∧
      (∀ (e : End) (output : Array UInt8), Machine.Ends e p input output ↔
        Ends e p input output ∧ ¬ Machine.Overflows p input) ∧
      (∀ n, runMain p input n ≠ .undefined) ∧
      ∀ (source : String) (F : PassSet) (q r : Program) (events : List Event),
        Source.parse source = .ok q → F.optimize q = .ok (r, events) →
          r.allOps Op.sparesCurrent = true := by
  refine ⟨?_, ?_, runMain_ne_undefined hspares input, ?_⟩
  · rw [generate] at hgenerate
    split at hgenerate
    · exact (Prod.mk.inj (Except.ok.inj hgenerate)).1.symm
    · cases hgenerate
  · intro e output
    constructor
    · intro hends
      have hword := hends.not_overflows
      exact ⟨(ends_iff hspares e output).2 ((Unbounded.ends_iff hword e output).1 hends), hword⟩
    · rintro ⟨hends, hword⟩
      exact (Unbounded.ends_iff hword e output).2 ((ends_iff hspares e output).1 hends)
  · intro source F q r events hparse hoptimize
    exact sparesCurrent_optimize_parse hparse hoptimize

/-- Reads a byte and writes twice that byte: a multiplication to the right, a move, and a loop that
moves the pointer until it stands on a zero. -/
def twice : Program :=
  .op .input (.op (.multiply (.ofList [(1, 2)])) (.op (.shift 1) (.op .output
    (.loop (.op (.shift 1) .done) .done))))

/-- The hypotheses hold of a program with a moving loop, and its code writes what it writes. -/
theorem code_agrees_with_machine_twice :
    generate twice = .ok (CCode.text twice, report twice) ∧
      twice.allOps Op.sparesCurrent = true ∧ Ends .completed twice [21] #[42] ∧
        ∀ n, runMain twice [21] n ≠ .undefined := by
  have hgenerate : generate twice = .ok (CCode.text twice, report twice) := if_pos (by decide)
  have hspares : twice.allOps Op.sparesCurrent = true := by decide
  have hends : Machine.Ends .completed twice [21] #[42] := ⟨7, _, rfl, .completed 7, rfl⟩
  obtain ⟨-, hiff, hdefined, -⟩ := code_agrees_with_machine hgenerate hspares [21]
  exact ⟨hgenerate, hspares, ((hiff .completed #[42]).1 hends).1, hdefined⟩

/-- A loop that leaps to the last cell of a word, and one more move to the right. -/
def leap : Program :=
  .op (.add 1 0) (.loop (.op (.shift 9223372036854775807) .done) (.op (.shift 1) .done))

/-- The code of `leap` returns, but the machine does not complete it: its pointer leaves the
word. -/
theorem leap_returns_but_overflows :
    generate leap = .ok (CCode.text leap, report leap) ∧ leap.allOps Op.sparesCurrent = true ∧
      Ends .completed leap [] #[] ∧ ∀ output, ¬ Machine.Ends .completed leap [] output := by
  have hspares : leap.allOps Op.sparesCurrent = true := by decide
  have hoverflows : Machine.Overflows leap [] := ⟨5, _, rfl, rfl⟩
  refine ⟨if_pos (by decide), hspares, ?_, fun _ hends => hends.not_overflows hoverflows⟩
  exact (ends_iff hspares .completed #[]).2 ⟨6, _, rfl, rfl⟩

end TapeLang.CCode
