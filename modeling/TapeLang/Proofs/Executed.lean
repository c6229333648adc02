import TapeLang.Proofs.Steps

/-!
# The operations that a run executes

`executed D m c` lists the operations of the first `m` steps in the order in which they are
executed, each with the machine it is executed on. Tests of loops are steps and not operations. A
property of machines and of what has been executed so far that every operation keeps is kept by
every number of steps (`advance_invariant`).

The list also counts the inputs of a run. Two devices are parallel if they give the same answers as
long as their states are related, where the relation says for how many more inputs that is so
(`Parallel`). Runs of one program on parallel devices go the same way if the relation covers the
inputs that the first of them executes: they take the same steps, with the same tape, and end in the
same way (`run_parallel`).
-/

set_option autoImplicit false

namespace TapeLang.Machine

variable {σ τ : Type}

/-- The operations of the first `m` steps, each with the machine it is executed on. One that fails
is the last. -/
def executed (D : Device σ) : Nat → Config σ → List (Op × State σ)
  | 0, _ => []
  | m + 1, c =>
      match next c.frames with
      | .finished => []
      | .test entered left =>
          executed D m ⟨if c.state.tape.current = 0 then left else entered, c.state⟩
      | .op o frames =>
          (o, c.state) ::
            match exec D o c.state with
            | .next s => executed D m ⟨frames, s⟩
            | .failed _ _ => []

/-- The number of inputs among some operations. -/
def inputCount (acts : List (Op × State σ)) : Nat := acts.countP fun a => a.1 = .input

/-- What every operation keeps, some steps keep. -/
theorem advance_invariant {D : Device σ} {P : List (Op × State σ) → State σ → Prop}
    (hexec : ∀ {acts : List (Op × State σ)} (o : Op) {s : State σ}, P acts s →
      P (acts ++ [(o, s)]) (exec D o s).state)
    (m : Nat) : ∀ (acts : List (Op × State σ)) (k : Nat) (c : Config σ), P acts c.state →
      P (acts ++ executed D m c) (c.advance D m k).state := by
  induction m with
  | zero =>
      intro acts k c h
      rw [executed, List.append_nil]
      by_cases hover : turn D c = .finished
      · rwa [advance_finished hover]
      · rwa [advance_zero hover]
  | succ m ih =>
      intro acts k c h
      cases hnext : next c.frames with
      | finished =>
          simp only [executed, Config.advance, advance, hnext, List.append_nil]
          exact h
      | test entered left =>
          simp only [executed, Config.advance, advance, hnext]
          exact ih acts (k + 1) ⟨_, c.state⟩ h
      | op o frames =>
          have hop := hexec o h
          simp only [executed, Config.advance, advance, hnext]
          cases hstep : exec D o c.state with
          | next s =>
              rw [hstep] at hop
              rw [← List.singleton_append, ← List.append_assoc]
              exact ih _ (k + 1) ⟨frames, s⟩ hop
          | failed fault s =>
              rw [hstep] at hop
              exact hop

/-! ## Parallel devices -/

/-- Two devices that give the same answers as long as their states are related. An input uses the
index of the relation up, and what happens at an input with the index zero is left open. -/
structure Parallel (D : Device σ) (E : Device τ) (rel : Nat → σ → τ → Prop) : Prop where
  input : ∀ {n : Nat} {x : σ} {y : τ}, rel (n + 1) x y →
    (readByte D x).1 = (readByte E y).1 ∧ rel n (readByte D x).2 (readByte E y).2
  output : ∀ {n : Nat} {x : σ} {y : τ} (b : UInt8), rel n x y →
    (D.write b x).1 = (E.write b y).1 ∧ rel n (D.write b x).2 (E.write b y).2
  flush : ∀ {n : Nat} {x : σ} {y : τ}, rel n x y →
    (D.flush x).1 = (E.flush y).1 ∧ rel n (D.flush x).2 (E.flush y).2

/-- Devices that give the same answers for ever. An input is a flush and then a read. -/
theorem Parallel.of_exchanges {D : Device σ} {E : Device τ} {rel : σ → τ → Prop}
    (hread : ∀ {x y}, rel x y → (D.read x).1 = (E.read y).1 ∧ rel (D.read x).2 (E.read y).2)
    (hwrite : ∀ {x y} (b : UInt8), rel x y →
      (D.write b x).1 = (E.write b y).1 ∧ rel (D.write b x).2 (E.write b y).2)
    (hflush : ∀ {x y}, rel x y → (D.flush x).1 = (E.flush y).1 ∧ rel (D.flush x).2 (E.flush y).2) :
    Parallel D E fun _ => rel where
  input := by
    intro _ x y h
    obtain ⟨hresult, hflushed⟩ := hflush h
    simp only [readByte]
    rcases hD : D.flush x with ⟨result, x₁⟩
    rcases hE : E.flush y with ⟨result', y₁⟩
    rw [hD, hE] at hresult hflushed
    cases hresult
    cases result with
    | error e => exact ⟨rfl, hflushed⟩
    | ok _ =>
        obtain ⟨hbyte, hafter⟩ := hread hflushed
        simp only
        rcases hD : D.read x₁ with ⟨byte, x₂⟩
        rcases hE : E.read y₁ with ⟨byte', y₂⟩
        rw [hD, hE] at hbyte hafter
        cases hbyte
        cases byte with
        | ok byte => exact ⟨rfl, hafter⟩
        | error e =>
            simp only
            split
            · exact ⟨rfl, hafter⟩
            · exact ⟨rfl, hafter⟩
  output := fun b h => hwrite b h
  flush := fun h => hflush h

/-- The same tape, stored cells included, and related devices. -/
structure State.Parallel (rel : σ → τ → Prop) (s : State σ) (u : State τ) : Prop where
  tape_eq : s.tape = u.tape
  streams : rel s.streams u.streams

/-- Two operations that end in the same way. -/
inductive Step.Parallel (rel : σ → τ → Prop) : Step σ → Step τ → Prop
  | next {s : State σ} {u : State τ} (h : s.Parallel rel u) : Step.Parallel rel (.next s) (.next u)
  | failed {fault : Fault} {s : State σ} {u : State τ} (h : s.Parallel rel u) :
      Step.Parallel rel (.failed fault s) (.failed fault u)

/-- Two runs that stand in the same place. -/
inductive Progress.Parallel (rel : σ → τ → Prop) : Progress σ → Progress τ → Prop
  | completed {k : Nat} {s : State σ} {u : State τ} (h : s.Parallel rel u) :
      Progress.Parallel rel (.completed k s) (.completed k u)
  | failed {fault : Fault} {k : Nat} {s : State σ} {u : State τ} (h : s.Parallel rel u) :
      Progress.Parallel rel (.failed fault k s) (.failed fault k u)
  | suspended {K : List Program} {k : Nat} {s : State σ} {u : State τ} (h : s.Parallel rel u) :
      Progress.Parallel rel (.suspended K k s) (.suspended K k u)

/-- Two whole runs that end in the same way. -/
structure Run.Parallel (rel : σ → τ → Prop) (r : Run σ) (r' : Run τ) : Prop where
  result_eq : r.result = r'.result
  state : r.state.Parallel rel r'.state

section Parallel

variable {D : Device σ} {E : Device τ} {rel : Nat → σ → τ → Prop} {n : Nat} {s : State σ}
  {u : State τ}

/-- An operation meets parallel devices in the same way. Only an input uses the index up. -/
theorem exec_parallel (h : Parallel D E rel) (o : Op)
    (hs : s.Parallel (rel (n + if o = .input then 1 else 0)) u) :
    (exec D o s).Parallel (rel n) (exec E o u) := by
  obtain ⟨tape, x⟩ := s
  obtain ⟨tape', y⟩ := u
  obtain ⟨rfl, hrel⟩ := hs
  cases o with
  | shift amount =>
      simp only [exec]
      cases tape.index amount with
      | error e => exact .failed ⟨rfl, hrel⟩
      | ok i => exact .next ⟨rfl, hrel⟩
  | add amount offset =>
      simp only [exec]
      cases tape.revise offset (· + amount.toUInt8) with
      | error e => exact .failed ⟨rfl, hrel⟩
      | ok iv => exact .next ⟨rfl, hrel⟩
  | input =>
      obtain ⟨hresult, hafter⟩ := h.input hrel
      simp only [exec]
      rcases hD : readByte D x with ⟨result, x'⟩
      rcases hE : readByte E y with ⟨result', y'⟩
      rw [hD, hE] at hresult hafter
      cases hresult
      cases result with
      | error e => exact .failed ⟨rfl, hafter⟩
      | ok byte =>
          simp only
          split
          · exact .next ⟨rfl, hafter⟩
          · exact .failed ⟨rfl, hafter⟩
  | output =>
      obtain ⟨hresult, hafter⟩ := h.output tape.current hrel
      simp only [exec]
      rcases hD : D.write tape.current x with ⟨result, x'⟩
      rcases hE : E.write tape.current y with ⟨result', y'⟩
      rw [hD, hE] at hresult hafter
      cases hresult
      cases result with
      | error e => exact .failed ⟨rfl, hafter⟩
      | ok _ => exact .next ⟨rfl, hafter⟩
  | setZero => exact .next ⟨rfl, hrel⟩
  | multiply factors =>
      simp only [exec]
      split
      · exact .next ⟨rfl, hrel⟩
      · cases spread tape.current tape factors.entries with
        | error e => exact .failed ⟨rfl, hrel⟩
        | ok tape' => exact .next ⟨rfl, hrel⟩

/-- Some steps on parallel devices. The index at the start is the number of inputs that the first
machine executes in these steps. -/
theorem advance_parallel (h : Parallel D E rel) (m : Nat) : ∀ (k : Nat) (K : List Program)
    {s : State σ} {u : State τ}, s.Parallel (rel (inputCount (executed D m ⟨K, s⟩))) u →
      (advance D m k K s).Parallel (rel 0) (advance E m k K u) := by
  induction m with
  | zero =>
      intro k K s u hs
      simp only [advance]
      split
      · exact .completed hs
      · exact .suspended hs
  | succ m ih =>
      intro k K s u hs
      simp only [executed] at hs
      simp only [advance]
      cases hnext : next K with
      | finished =>
          rw [hnext] at hs
          exact .completed hs
      | test entered left =>
          -- the tapes are equal, so both enter the loop or both leave it
          rw [hnext] at hs
          simp only [← hs.tape_eq]
          exact ih (k + 1) _ hs
      | op o frames =>
          simp only [hnext, inputCount, List.countP_cons, decide_eq_true_eq] at hs
          have hop := exec_parallel h o hs
          simp only
          generalize exec D o s = x, exec E o u = y at hop ⊢
          cases hop with
          | next hs₁ => exact ih (k + 1) frames hs₁
          | failed hs₁ => exact .failed hs₁

theorem conclude_parallel (h : Parallel D E rel) (outcome : Outcome) (hs : s.Parallel (rel 0) u) :
    (conclude D outcome s).Parallel (rel 0) (conclude E outcome u) := by
  obtain ⟨hresult, hafter⟩ := h.flush hs.streams
  simp only [conclude]
  rcases hD : D.flush s.streams with ⟨result, x'⟩
  rcases hE : E.flush u.streams with ⟨result', y'⟩
  rw [hD, hE] at hresult hafter
  cases hresult
  cases result with
  | error e => exact ⟨rfl, hs.tape_eq, hafter⟩
  | ok _ => exact ⟨rfl, hs.tape_eq, hafter⟩

/-- Whole runs on parallel devices: neither ends, or both end in the same way. -/
theorem run_parallel (h : Parallel D E rel) (fuel : Nat) (limit : Option Nat) (p : Program)
    (hs : s.Parallel (rel (inputCount (executed D (limit.getD fuel) ⟨[p], s⟩))) u) :
    Option.Rel (Run.Parallel (rel 0)) (run D fuel limit p s) (run E fuel limit p u) := by
  have hend := advance_parallel h (limit.getD fuel) 0 [p] hs
  simp only [run]
  generalize advance D (limit.getD fuel) 0 [p] s = x, advance E (limit.getD fuel) 0 [p] u = y
    at hend ⊢
  cases hend with
  | completed ht => exact .some (conclude_parallel h _ ht)
  | failed ht => exact .some ⟨rfl, ht.tape_eq, (h.flush ht.streams).2⟩
  | suspended ht =>
      -- without a limit such a run has no end yet
      cases limit with
      | none => exact .none
      | some m => exact .some (conclude_parallel h _ ht)

end Parallel

end TapeLang.Machine
