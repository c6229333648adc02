import TapeLang.Device.Buffers
import TapeLang.Proofs.Source.Expansions
import TapeLang.Proofs.Source.Recompilation

/-!
# A written program behaves like the program

A program and the program that its text is read as do the same from every machine, as long as the
run of the text does not overflow (`print_keeps_behaviour`): both complete, with the same bytes,
pointer and device, or both underflow, with the same device, or neither ends. The text takes no
fewer steps, unless the program has operations that have no text.

The run of the text may overflow where that of the program does not: a product that is zero needs no
room, but the factor that the text adds in each round does. That takes a tape and a text that have
more cells and characters together than a word can count.

The two are compared by their meaning. A derivation for the program gives one for its spelling, by
induction on the derivation (`echoed_of_bigStep`). The other direction (`recovered_of_spelled`) is
an induction on the number of steps that the spelling takes and the size of the program: an
operation that has no text takes no step in the spelling, but leaves a smaller program.
-/

set_option autoImplicit false

namespace TapeLang

namespace Program

/-- A program that can be written, and in which no multiplication changes the current cell
twice. -/
structure Spellable (p : Program) : Prop where
  spares : p.allOps Op.sparesCurrent = true
  prints : p.printOverflow? = none

theorem Spellable.op {o : Op} {rest : Program} (h : (Program.op o rest).Spellable) :
    o.sparesCurrent = true ∧ o.printOverflow? = none ∧ rest.Spellable := by
  obtain ⟨hspares, hprints⟩ := h
  rw [allOps_op] at hspares
  rw [printOverflow?, Option.orElse_eq_none] at hprints
  exact ⟨hspares.1, hprints.1, hspares.2, hprints.2⟩

theorem Spellable.loop {body rest : Program} (h : (Program.loop body rest).Spellable) :
    body.Spellable ∧ rest.Spellable := by
  obtain ⟨hspares, hprints⟩ := h
  rw [allOps_loop] at hspares
  rw [printOverflow?, Option.orElse_eq_none] at hprints
  exact ⟨⟨hspares.1, hprints.1⟩, ⟨hspares.2, hprints.2⟩⟩

/-! ## The length of a text -/

theorem natAbs_le_length_moveChars (distance : Int) :
    distance.natAbs ≤ (moveChars distance).length := by
  rw [← countP_moveChars]
  exact List.countP_le_length

/-- The way to each offset of a table is part of the tour over the table. -/
theorem sub_le_length_tourChars {k : Int} (entries : List (Int × Int8)) : ∀ here : Int,
    k ∈ entries.map (·.1) → k - here ≤ (tourChars here entries).length := by
  induction entries with
  | nil =>
      intro here hk
      cases hk
  | cons e rest ih =>
      intro here hk
      obtain ⟨offset, amount⟩ := e
      have hmoves := natAbs_le_length_moveChars (offset - here)
      rw [tourChars, List.length_append, List.length_append]
      rw [List.map_cons, List.mem_cons] at hk
      rcases hk with rfl | hrest
      · omega
      · have hlater := ih offset hrest
        omega

/-- An operation changes no cell that is farther to the right than its text is long. -/
theorem offset_le_length_chars {o : Op} {k : Int} (hk : k ∈ o.offsets) : k ≤ o.chars.length := by
  cases o with
  | add amount offset =>
      obtain rfl := List.mem_singleton.1 hk
      have hmoves := natAbs_le_length_moveChars k
      rw [Op.chars, List.length_append, List.length_append]
      omega
  | multiply factors =>
      have htour := sub_le_length_tourChars factors.entries 0 hk
      rw [Op.chars, List.length_append, List.length_cons, List.length_cons]
      omega
  | shift amount => cases hk
  | input => cases hk
  | output => cases hk
  | setZero => cases hk

theorem length_chars_op (o : Op) (rest : Program) :
    (op o rest).chars.length = o.chars.length + rest.chars.length := by
  rw [chars, List.length_append]

theorem length_chars_loop (body rest : Program) :
    (loop body rest).chars.length = body.chars.length + rest.chars.length + 2 := by
  rw [chars, List.length_cons, List.length_append, List.length_cons]
  omega

end Program

namespace Machine

variable {σ : Type} {D : Device σ}

/-- Two programs have ended in the same way: with the same bytes and device, or with faults of the
same kind and the same device. -/
def Step.Alike : Step σ → Step σ → Prop
  | .next t, .next t' => t.Same t'
  | .failed fault t, .failed fault' t' => fault.Alike fault' ∧ t.streams = t'.streams
  | _, _ => False

/-- A program has ended because something has left the word. -/
def Step.Overflowed : Step σ → Prop
  | .next _ => False
  | .failed fault _ => fault.isFatal = true

theorem Step.Alike.overflowed {x x' : Step σ} (h : x.Alike x') (h' : x'.Overflowed) :
    x.Overflowed := by
  rcases x' with t' | ⟨(⟨pointer', offset'⟩ | e') | e', t'⟩
  · exact h'.elim
  · cases h'
  · rcases x with t | ⟨(⟨pointer, offset⟩ | e) | e, t⟩
    · exact h.elim
    · exact h.1.elim
    · exact rfl
    · exact h.1.elim
  · cases h'

/-! ## Two machines with the same bytes -/

section Same

variable {o : Op} {q : Program} {s s' : State σ}

theorem SpelledAs.of_agree {x x' : Step σ} (h : SpelledAs D o s q x')
    (hagree : Step.AgreeOff ∅ x x') : SpelledAs D o s q x := by
  cases x with
  | next t =>
      cases x' with
      | failed fault t' => exact hagree.elim
      | next t' =>
          rcases h with ⟨j, u, hreduces, hsame, hpos⟩ | hcrowded
          · exact Or.inl ⟨j, u, hreduces, State.Same.trans hagree hsame, hpos⟩
          · exact Or.inr hcrowded
  | failed fault t =>
      cases x' with
      | next t' => exact hagree.elim
      | failed fault' t' =>
          obtain ⟨rfl, hstreams⟩ := hagree
          obtain ⟨n, fault', u, hstep, halike, hstreams'⟩ := h
          exact ⟨n, fault', u, hstep, halike, hstreams.trans hstreams'⟩

/-- The spelling of an operation, from a machine with the same bytes. -/
theorem spelledAs_of_same (hspares : o.sparesCurrent = true) (hprint : o.printOverflow? = none)
    (hs : s.tape.InWord) (hsame : s.Same s') (q : Program) :
    SpelledAs D o s' q (exec D o s) :=
  (spelledAs_exec hspares hprint (hs.of_same hsame.tape) q).of_agree (exec_same D o hsame)

theorem Fails.overflowed {p : Program} {x : Overflow} {n : Nat} {y : Step σ}
    (h : Fails D p s (.overflow x)) (hy : BigStep D p s n y) : y.Overflowed := by
  obtain ⟨m, e, t, hstep, halike, -⟩ := h
  obtain ⟨-, rfl⟩ := hstep.unique hy
  cases e with
  | underflow i k => exact halike.elim
  | overflow x => exact rfl

/-- The stored cells and the text of the program exceed the word. -/
theorem lt_of_crowded (h : Crowded o s') (hsame : s.Same s') (rest : Program) :
    Word.greatest < s.tape.cells.size + (Program.op o rest).chars.length := by
  obtain ⟨hcurrent, k, hk, hge⟩ := h
  rw [← hsame.current_eq] at hcurrent
  rw [← hsame.tape.pointer_eq] at hge
  have hstored : s.tape.pointer < s.tape.cells.size := by
    by_contra hle
    exact hcurrent (Tape.cell_of_size_le (Nat.not_lt.1 hle))
  have htext := Program.offset_le_length_chars hk
  rw [Program.length_chars_op]
  omega

end Same

/-- A fault takes a step. -/
theorem BigStep.pos_of_failed {p : Program} {s t : State σ} {n : Nat} {fault : Fault}
    (h : BigStep D p s n (.failed fault t)) : 0 < n := by
  cases h <;> omega

/-! ## From the program to its spelling -/

/-- The program ends after `n` steps as `x` says, and its spelling, run from `s'`, ends in the same
way, or with an overflow if the stored cells and the text of the program exceed the word. -/
def Echoed (D : Device σ) (p : Program) (s' : State σ) (n : Nat) (x : Step σ) : Prop :=
  ∃ n' x', BigStep D p.spelled s' n' x' ∧
    (x.Alike x' ∧ (p.allOps Op.isWritten = true → n ≤ n') ∨
      x'.Overflowed ∧ Word.greatest < x.state.tape.cells.size + p.chars.length)

section Echoed

variable {o : Op} {body rest : Program} {s s' t : State σ} {m n : Nat} {x : Step σ} {fault : Fault}

theorem echoed_op (hp : (Program.op o rest).Spellable) (hs : s.tape.InWord) (hsame : s.Same s')
    (first : exec D o s = .next t) (later : BigStep D rest t n x)
    (hlater : ∀ t', t.Same t' → Echoed D rest t' n x) : Echoed D (.op o rest) s' (1 + n) x := by
  obtain ⟨hspares, hprint, -⟩ := hp.op
  have hspelled := spelledAs_of_same (D := D) hspares hprint hs hsame rest.spelled
  rw [first] at hspelled
  rcases hspelled with ⟨j, t', hreduces, hsame', hpos⟩ | ⟨hcrowded, hfails⟩
  · obtain ⟨n', x', hstep, hend⟩ := hlater t' hsame'
    refine ⟨j + n', x', (hreduces _ x').2 ⟨n', rfl, hstep⟩, ?_⟩
    rcases hend with ⟨halike, hle⟩ | ⟨hoverflowed, hlt⟩
    · refine Or.inl ⟨halike, fun hwritten => ?_⟩
      rw [Program.allOps_op] at hwritten
      exact Nat.add_le_add (hpos hwritten.1) (hle hwritten.2)
    · have htext := Program.length_chars_op o rest
      exact Or.inr ⟨hoverflowed, by omega⟩
  · -- cells that were stored once stay stored, so the end of the program is crowded too
    have hlt := lt_of_crowded hcrowded hsame rest
    have hsize := (Tape.kept_size s.tape.cells.size).bigStep (.op first later) (Nat.le_refl _)
    have hoverflowed : ∀ {m y}, BigStep D (o.spelled rest.spelled) s' m y → y.Overflowed :=
      hfails.overflowed
    obtain ⟨m, e, u, hstep, -⟩ := hfails
    exact ⟨m, _, hstep, Or.inr ⟨hoverflowed hstep, by omega⟩⟩

theorem echoed_op_failed (hp : (Program.op o rest).Spellable) (hs : s.tape.InWord)
    (hsame : s.Same s') (first : exec D o s = .failed fault t) :
    Echoed D (.op o rest) s' 1 (.failed fault t) := by
  obtain ⟨hspares, hprint, -⟩ := hp.op
  have hspelled := spelledAs_of_same (D := D) hspares hprint hs hsame rest.spelled
  rw [first] at hspelled
  obtain ⟨n', fault', t', hstep, hend⟩ := hspelled
  exact ⟨n', _, hstep, Or.inl ⟨hend, fun _ => hstep.pos_of_failed⟩⟩

theorem Echoed.loop_left (h : Echoed D rest s' n x) (hzero : s'.tape.current = 0)
    (body : Program) : Echoed D (.loop body rest) s' (1 + n) x := by
  obtain ⟨n', x', hstep, hend⟩ := h
  refine ⟨1 + n', x', .loop_left hzero hstep, ?_⟩
  rcases hend with ⟨halike, hle⟩ | ⟨hoverflowed, hlt⟩
  · refine Or.inl ⟨halike, fun hwritten => ?_⟩
    rw [Program.allOps_loop] at hwritten
    exact Nat.add_le_add_left (hle hwritten.2) 1
  · refine Or.inr ⟨hoverflowed, ?_⟩
    rw [Program.length_chars_loop]
    omega

theorem Echoed.loop_entered (h : Echoed D body s' m (.next t)) (hnonzero : s'.tape.current ≠ 0)
    (hsize : t.tape.cells.size ≤ x.state.tape.cells.size)
    (hagain : ∀ t', t.Same t' → Echoed D (.loop body rest) t' n x) :
    Echoed D (.loop body rest) s' (1 + m + n) x := by
  obtain ⟨m', y', hround, hend⟩ := h
  cases y' with
  | failed fault t' =>
      rcases hend with ⟨halike, -⟩ | ⟨hoverflowed, hlt⟩
      · exact halike.elim
      · have hlt : Word.greatest < t.tape.cells.size + body.chars.length := hlt
        refine ⟨1 + m', _, .loop_failed hnonzero hround, Or.inr ⟨hoverflowed, ?_⟩⟩
        rw [Program.length_chars_loop]
        omega
  | next t' =>
      rcases hend with ⟨hsame, hle⟩ | ⟨hoverflowed, -⟩
      · obtain ⟨n', x', hagain, hend⟩ := hagain t' hsame
        refine ⟨1 + m' + n', x', .loop_entered hnonzero hround hagain, ?_⟩
        rcases hend with ⟨halike, hle'⟩ | hcrowded
        · refine Or.inl ⟨halike, fun hwritten => ?_⟩
          have hbody := hle ((Program.allOps_loop body rest).1 hwritten).1
          have hloop := hle' hwritten
          omega
        · exact Or.inr hcrowded
      · exact hoverflowed.elim

theorem Echoed.loop_failed (h : Echoed D body s' m (.failed fault t))
    (hnonzero : s'.tape.current ≠ 0) (rest : Program) :
    Echoed D (.loop body rest) s' (1 + m) (.failed fault t) := by
  obtain ⟨m', y', hround, hend⟩ := h
  cases y' with
  | next t' => rcases hend with ⟨halike, -⟩ | ⟨hoverflowed, -⟩ <;> contradiction
  | failed fault' t' =>
      refine ⟨1 + m', _, .loop_failed hnonzero hround, ?_⟩
      rcases hend with ⟨halike, hle⟩ | ⟨hoverflowed, hlt⟩
      · refine Or.inl ⟨halike, fun hwritten => ?_⟩
        rw [Program.allOps_loop] at hwritten
        exact Nat.add_le_add_left (hle hwritten.1) 1
      · refine Or.inr ⟨hoverflowed, ?_⟩
        rw [Program.length_chars_loop]
        omega

/-- Where a program ends, its spelling ends. -/
theorem echoed_of_bigStep {p : Program} (h : BigStep D p s n x) :
    ∀ {s' : State σ}, p.Spellable → s.tape.InWord → s.Same s' → Echoed D p s' n x := by
  induction h with
  | done s =>
      intro s' _ _ hsame
      exact ⟨0, .next s', .done s', Or.inl ⟨hsame, fun _ => Nat.le_refl 0⟩⟩
  | @op o rest s t n x first later ih =>
      intro s' hp hs hsame
      have ht := Tape.kept_inWord.exec (D := D) o hs
      rw [first] at ht
      exact echoed_op hp hs hsame first later fun t' => ih hp.op.2.2 ht
  | op_failed first =>
      intro s' hp hs hsame
      exact echoed_op_failed hp hs hsame first
  | @loop_left body rest s n x zero _ ih =>
      intro s' hp hs hsame
      exact (ih hp.loop.2 hs hsame).loop_left (hsame.current_eq ▸ zero) body
  | @loop_entered body rest s t m n x nonzero round again ihround ihagain =>
      intro s' hp hs hsame
      have ht : t.tape.InWord := Tape.kept_inWord.bigStep round hs
      have hsize := (Tape.kept_size t.tape.cells.size).bigStep again (Nat.le_refl _)
      exact (ihround hp.loop.1 hs hsame).loop_entered (hsame.current_eq ▸ nonzero) hsize
        fun t' => ihagain hp ht
  | @loop_failed body rest s t m fault nonzero _ ih =>
      intro s' hp hs hsame
      exact (ih hp.loop.1 hs hsame).loop_failed (hsame.current_eq ▸ nonzero) rest

end Echoed

/-! ## From the spelling to the program -/

/-- The spelling of the program ends after `n'` steps as `x'` says, and that is an overflow, or the
program, run from `s`, ends in the same way. -/
def Recovered (D : Device σ) (p : Program) (s : State σ) (n' : Nat) (x' : Step σ) : Prop :=
  x'.Overflowed ∨ ∃ n x, BigStep D p s n x ∧ x.Alike x' ∧ (p.allOps Op.isWritten = true → n ≤ n')

section Recovered

variable {o : Op} {body rest : Program} {s s' t' : State σ} {m' n' : Nat} {x' : Step σ}
  {fault' : Fault}

theorem recovered_op (hp : (Program.op o rest).Spellable) (hs : s.tape.InWord)
    (hsame : s.Same s') (h : BigStep D (Program.op o rest).spelled s' n' x')
    (hlater : ∀ {t t' : State σ} {m : Nat}, m ≤ n' → t.tape.InWord → t.Same t' →
      BigStep D rest.spelled t' m x' → Recovered D rest t m x') :
    Recovered D (.op o rest) s n' x' := by
  obtain ⟨hspares, hprint, -⟩ := hp.op
  have hspelled := spelledAs_of_same (D := D) hspares hprint hs hsame rest.spelled
  have ht := Tape.kept_inWord.exec (D := D) o hs
  cases first : exec D o s with
  | failed fault t =>
      rw [first] at hspelled
      obtain ⟨m, fault', t', hstep, hend⟩ := hspelled
      obtain ⟨rfl, rfl⟩ := hstep.unique h
      exact Or.inr ⟨1, _, .op_failed first, hend, fun _ => hstep.pos_of_failed⟩
  | next t =>
      rw [first] at hspelled ht
      rcases hspelled with ⟨j, t', hreduces, hsame', hpos⟩ | ⟨-, hfails⟩
      · obtain ⟨m, rfl, hrest⟩ := (hreduces n' x').1 h
        rcases hlater (Nat.le_add_left m j) ht hsame' hrest with
          hoverflowed | ⟨n, x, hx, halike, hle⟩
        · exact Or.inl hoverflowed
        · refine Or.inr ⟨1 + n, x, .op first hx, halike, fun hwritten => ?_⟩
          rw [Program.allOps_op] at hwritten
          exact Nat.add_le_add (hpos hwritten.1) (hle hwritten.2)
      · exact Or.inl (hfails.overflowed h)

theorem Recovered.loop_left (h : Recovered D rest s n' x') (hzero : s.tape.current = 0)
    (body : Program) : Recovered D (.loop body rest) s (1 + n') x' := by
  rcases h with hoverflowed | ⟨n, x, hx, halike, hle⟩
  · exact Or.inl hoverflowed
  · refine Or.inr ⟨1 + n, x, .loop_left hzero hx, halike, fun hwritten => ?_⟩
    rw [Program.allOps_loop] at hwritten
    exact Nat.add_le_add_left (hle hwritten.2) 1

theorem Recovered.loop_entered (h : Recovered D body s m' (.next t')) (hs : s.tape.InWord)
    (hnonzero : s.tape.current ≠ 0)
    (hagain : ∀ {t : State σ}, t.tape.InWord → t.Same t' → Recovered D (.loop body rest) t n' x') :
    Recovered D (.loop body rest) s (1 + m' + n') x' := by
  rcases h with hoverflowed | ⟨m, y, hy, hsame, hle⟩
  · exact hoverflowed.elim
  · cases y with
    | failed fault t => exact hsame.elim
    | next t =>
        have ht := Tape.kept_inWord.bigStep hy hs
        rcases hagain ht hsame with hoverflowed | ⟨n, x, hx, halike, hle'⟩
        · exact Or.inl hoverflowed
        · refine Or.inr ⟨1 + m + n, x, .loop_entered hnonzero hy hx, halike, fun hwritten => ?_⟩
          have hround := hle ((Program.allOps_loop body rest).1 hwritten).1
          have hloop := hle' hwritten
          omega

theorem Recovered.loop_failed (h : Recovered D body s m' (.failed fault' t'))
    (hnonzero : s.tape.current ≠ 0) (rest : Program) :
    Recovered D (.loop body rest) s (1 + m') (.failed fault' t') := by
  rcases h with hoverflowed | ⟨m, y, hy, halike, hle⟩
  · exact Or.inl hoverflowed
  · cases y with
    | next t => exact halike.elim
    | failed fault t =>
        refine Or.inr ⟨1 + m, _, .loop_failed hnonzero hy, halike, fun hwritten => ?_⟩
        rw [Program.allOps_loop] at hwritten
        exact Nat.add_le_add_left (hle hwritten.1) 1

/-- Where the spelling of a program ends, the program ends. -/
theorem recovered_of_spelled (bound : Nat) : ∀ {p : Program} {s s' : State σ} {n' : Nat}
    {x' : Step σ}, n' + p.nodeCount < bound → p.Spellable → s.tape.InWord → s.Same s' →
      BigStep D p.spelled s' n' x' → Recovered D p s n' x' := by
  induction bound with
  | zero =>
      intro p s s' n' x' hbound
      exact absurd hbound (Nat.not_lt_zero _)
  | succ bound ih =>
      intro p s s' n' x' hbound hp hs hsame h
      cases p with
      | done =>
          cases h
          exact Or.inr ⟨0, .next s, .done s, hsame, fun _ => Nat.le_refl 0⟩
      | op o rest =>
          -- the rest is smaller, also if the operation takes no step in the spelling
          rw [Program.nodeCount] at hbound
          exact recovered_op hp hs hsame h fun hm ht => ih (by omega) hp.op.2.2 ht
      | loop body rest =>
          have hcount : (Program.loop body rest).nodeCount =
              1 + body.nodeCount + rest.nodeCount := rfl
          obtain ⟨hbody, hrest⟩ := hp.loop
          cases h with
          | loop_left zero later =>
              exact (ih (by omega) hrest hs hsame later).loop_left (hsame.current_eq ▸ zero) body
          | loop_failed nonzero round =>
              exact (ih (by omega) hbody hs hsame round).loop_failed
                (hsame.current_eq ▸ nonzero) rest
          | loop_entered nonzero round again =>
              -- the loop is the same, but the steps that the round has taken are gone
              exact (ih (by omega) hbody hs hsame round).loop_entered hs
                (hsame.current_eq ▸ nonzero) fun ht hsame' => ih (by omega) hp ht hsame' again

end Recovered

/-! ## Whole runs -/

section Runs

variable {p q : Program} {s u : State σ}

theorem halts_tape_iff (p : Program) (s u : State σ) (e : TapeFault) :
    Halts D p s ⟨.error (.tape e), u⟩ ↔
      ∃ n t, BigStep D p s n (.failed (.tape e) t) ∧ u = t.flushed D := by
  refine (halts_iff_bigStep p s _).trans ⟨?_, ?_⟩
  · rintro (⟨m, t, -, hr⟩ | ⟨m, fault, t, h, hr⟩)
    · -- a last flush that fails is a failure of the device
      rcases conclude_result (D := D) (.completed m) t with hresult | ⟨e', hresult⟩
      · rw [← hr] at hresult
        cases hresult
      · rw [← hr] at hresult
        cases hresult
    · cases hr
      exact ⟨m, t, h, rfl⟩
  · rintro ⟨n, t, h, rfl⟩
    exact Or.inr ⟨n, .tape e, t, h, rfl⟩

/-- Machines with the same bytes pass the last flush in the same way. -/
theorem halts_completed_of_same {t t' : State σ} {n n' : Nat}
    (hu : conclude D (.completed n) t = ⟨.ok (.completed n), u⟩)
    (hq : BigStep D q s n' (.next t')) (hsame : t.Same t') :
    ∃ u', Halts D q s ⟨.ok (.completed n'), u'⟩ ∧ u.Same u' := by
  have hresult : (conclude D (.completed n) t).result = .ok (.completed n) := by rw [hu]
  obtain ⟨-, hresult'⟩ := conclude_completed hsame n' hresult
  have hstates := (conclude_same (D := D) hsame (.completed n) (.completed n')).1
  rw [hu] at hstates
  refine ⟨_, (halts_completed_iff q s _ n').2 ⟨t', hq, ?_⟩, hstates⟩
  rw [← hresult']

/-- A run without a limit ends with an underflow, and leaves the device like this. -/
def Underflows (D : Device σ) (p : Program) (s : State σ) (streams : σ) : Prop :=
  ∃ pointer offset t, Halts D p s ⟨.error (.tape (.underflow pointer offset)), t⟩ ∧
    t.streams = streams

theorem underflows_iff (p : Program) (s : State σ) (streams : σ) :
    Underflows D p s streams ↔ ∃ n pointer offset t,
      BigStep D p s n (.failed (.tape (.underflow pointer offset)) t) ∧
        (D.flush t.streams).2 = streams := by
  constructor
  · rintro ⟨pointer, offset, u, hu, hstreams⟩
    obtain ⟨n, t, h, rfl⟩ := (halts_tape_iff p s u _).1 hu
    exact ⟨n, pointer, offset, t, h, hstreams⟩
  · rintro ⟨n, pointer, offset, t, h, hstreams⟩
    exact ⟨pointer, offset, _, (halts_tape_iff p s _ _).2 ⟨n, t, h, rfl⟩, hstreams⟩

/-- A run without a limit ends because something leaves the word. -/
def LeavesWord (D : Device σ) (p : Program) (s : State σ) : Prop :=
  ∃ r, Halts D p s r ∧ r.isFatal = true

/-- A last flush that fails is a failure of the device. -/
theorem isFatal_conclude (outcome : Outcome) (t : State σ) :
    (conclude D outcome t).isFatal = false := by
  rw [Run.isFatal]
  rcases conclude_result (D := D) outcome t with hresult | ⟨e, hresult⟩
  · rw [hresult]
  · rw [hresult]
    rfl

theorem leavesWord_iff (p : Program) (s : State σ) :
    LeavesWord D p s ↔ ∃ n x, BigStep D p s n x ∧ x.Overflowed := by
  constructor
  · rintro ⟨r, hr, hfatal⟩
    rcases (halts_iff_bigStep p s r).1 hr with ⟨n, t, -, rfl⟩ | ⟨n, fault, t, h, rfl⟩
    · rw [isFatal_conclude] at hfatal
      cases hfatal
    · exact ⟨n, _, h, hfatal⟩
  · rintro ⟨n, x, h, hoverflowed⟩
    cases x with
    | next t => exact hoverflowed.elim
    | failed fault t =>
        exact ⟨_, (halts_iff_bigStep p s _).2 (Or.inr ⟨n, fault, t, h, rfl⟩), hoverflowed⟩

end Runs

section Printed

variable {p : Program} {s : State σ}

theorem completes_of_spelled (hp : p.Spellable) (hs : s.tape.InWord) {n' : Nat} {u' : State σ}
    (h : Halts D p.spelled s ⟨.ok (.completed n'), u'⟩) :
    ∃ n u, Halts D p s ⟨.ok (.completed n), u⟩ ∧ u.Same u' ∧
      (p.allOps Op.isWritten = true → n ≤ n') := by
  obtain ⟨t', hstep, hu⟩ := (halts_completed_iff _ s u' n').1 h
  rcases recovered_of_spelled _ (Nat.lt_succ_self _) hp hs (.refl s) hstep with
    hoverflowed | ⟨n, x, hx, halike, hle⟩
  · exact hoverflowed.elim
  · cases x with
    | failed fault t => exact halike.elim
    | next t =>
        obtain ⟨u, hcompletes, hsame⟩ := halts_completed_of_same hu hx halike.symm
        exact ⟨n, u, hcompletes, hsame.symm, hle⟩

theorem underflows_of_spelled (hp : p.Spellable) (hs : s.tape.InWord) {streams : σ}
    (h : Underflows D p.spelled s streams) : Underflows D p s streams := by
  obtain ⟨n', pointer', offset', t', hstep, hflush⟩ := (underflows_iff _ s streams).1 h
  rcases recovered_of_spelled _ (Nat.lt_succ_self _) hp hs (.refl s) hstep with
    hoverflowed | ⟨n, x, hx, halike, -⟩
  · cases hoverflowed
  · rcases x with t | ⟨(⟨pointer, offset⟩ | e) | e, t⟩
    · exact halike.elim
    · refine (underflows_iff p s streams).2 ⟨n, pointer, offset, t, hx, ?_⟩
      rw [halike.2]
      exact hflush
    · exact halike.1.elim
    · exact halike.1.elim

/-- A text whose run does not overflow ends as the program ends. -/
theorem alike_of_bigStep (hp : p.Spellable) (hs : s.tape.InWord)
    (hword : ¬ LeavesWord D p.spelled s) {n : Nat} {x : Step σ} (h : BigStep D p s n x) :
    ∃ n' x', BigStep D p.spelled s n' x' ∧ x.Alike x' := by
  obtain ⟨n', x', hstep, ⟨halike, -⟩ | ⟨hoverflowed, -⟩⟩ := echoed_of_bigStep h hp hs (.refl s)
  · exact ⟨n', x', hstep, halike⟩
  · exact absurd ((leavesWord_iff _ s).2 ⟨n', x', hstep, hoverflowed⟩) hword

theorem spelled_completes (hp : p.Spellable) (hs : s.tape.InWord)
    (hword : ¬ LeavesWord D p.spelled s) (h : ∃ n u, Halts D p s ⟨.ok (.completed n), u⟩) :
    ∃ n' u', Halts D p.spelled s ⟨.ok (.completed n'), u'⟩ := by
  obtain ⟨n, u, h⟩ := h
  obtain ⟨t, hstep, hu⟩ := (halts_completed_iff p s u n).1 h
  obtain ⟨n', x', hstep', halike⟩ := alike_of_bigStep hp hs hword hstep
  cases x' with
  | failed fault t' => exact halike.elim
  | next t' =>
      obtain ⟨u', hcompletes, -⟩ := halts_completed_of_same hu hstep' halike
      exact ⟨n', u', hcompletes⟩

theorem spelled_underflows (hp : p.Spellable) (hs : s.tape.InWord)
    (hword : ¬ LeavesWord D p.spelled s) {streams : σ} (h : Underflows D p s streams) :
    Underflows D p.spelled s streams := by
  obtain ⟨n, pointer, offset, t, hstep, hflush⟩ := (underflows_iff p s streams).1 h
  obtain ⟨n', x', hstep', halike⟩ := alike_of_bigStep hp hs hword hstep
  rcases x' with t' | ⟨(⟨pointer', offset'⟩ | e) | e, t'⟩
  · exact halike.elim
  · refine (underflows_iff _ s streams).2 ⟨n', pointer', offset', t', hstep', ?_⟩
    rw [← halike.2]
    exact hflush
  · exact halike.1.elim
  · exact halike.1.elim

/-- A run that ends in another way does not leave the word. -/
theorem not_leavesWord {r : Run σ} (h : Halts D p s r) (hr : r.isFatal = false) :
    ¬ LeavesWord D p s := by
  rintro ⟨r', ⟨fuel', h'⟩, hfatal⟩
  obtain ⟨fuel, h⟩ := h
  rw [run_none_unique h' h, hr] at hfatal
  cases hfatal

/-- Only where the stored cells and the text exceed the word, the run of the text overflows and that
of the program does not. -/
theorem lt_of_leavesWord (hp : p.Spellable) (hs : s.tape.InWord) {r : Run σ}
    (h : Halts D p s r) (hr : r.isFatal = false) (hword : LeavesWord D p.spelled s) :
    Word.greatest < r.state.tape.cells.size + p.chars.length := by
  obtain ⟨m, y, hstep, hoverflowed⟩ := (leavesWord_iff _ s).1 hword
  have hend : ∀ {n x}, BigStep D p s n x → x.Overflowed ∨
      Word.greatest < x.state.tape.cells.size + p.chars.length := by
    intro n x hx
    obtain ⟨n', x', hstep', hend⟩ := echoed_of_bigStep hx hp hs (.refl s)
    obtain ⟨-, rfl⟩ := hstep'.unique hstep
    rcases hend with ⟨halike, -⟩ | ⟨-, hlt⟩
    · exact Or.inl (halike.overflowed hoverflowed)
    · exact Or.inr hlt
  rcases (halts_iff_bigStep p s r).1 h with ⟨n, t, hx, rfl⟩ | ⟨n, fault, t, hx, rfl⟩
  · rw [tape_conclude]
    exact (hend hx).resolve_left id
  · refine (hend hx).resolve_left fun hfatal => ?_
    rw [Run.isFatal, abandon] at hr
    exact absurd (hr.symm.trans hfatal) Bool.false_ne_true

end Printed

/-- The text of a program, if it can be written and no multiplication changes the current cell
twice, is read again, and as a program `q` that behaves like `p` from every machine whose tape lies
within the word. It completes exactly if `p` completes and the run of `q` does not leave the word;
then both leave the same device, pointer and bytes, and `q` takes no fewer steps if all operations
of `p` have a text. It underflows exactly if `p` underflows and the run of `q` does not leave the
word, and leaves the same device.

If the run of `q` leaves the word and that of `p` does not, the stored cells and the characters of
the text are more than a word can count. -/
theorem print_keeps_behaviour (D : Device σ) {p : Program} {source : String}
    (hspares : p.allOps Op.sparesCurrent = true) (hprint : p.print = .ok source) :
    ∃ q, Source.parse source = .ok q ∧ ∀ s : State σ,
      (s.tape.cells.size : Int) ≤ Word.greatest → (s.tape.pointer : Int) ≤ Word.greatest →
      ((∃ n' t', Halts D q s ⟨.ok (.completed n'), t'⟩) ↔
        (∃ n t, Halts D p s ⟨.ok (.completed n), t⟩) ∧ ¬ LeavesWord D q s) ∧
      (∀ n n' t t', Halts D p s ⟨.ok (.completed n), t⟩ →
        Halts D q s ⟨.ok (.completed n'), t'⟩ →
          t.streams = t'.streams ∧ t.tape.pointer = t'.tape.pointer ∧
          t.tape.trimmed = t'.tape.trimmed ∧ (p.allOps Op.isWritten = true → n ≤ n')) ∧
      (∀ streams, Underflows D q s streams ↔
        Underflows D p s streams ∧ ¬ LeavesWord D q s) ∧
      (∀ r, Halts D p s r → r.isFatal = false → LeavesWord D q s →
        Word.greatest < r.state.tape.cells.size + source.length) := by
  obtain ⟨hprints, rfl⟩ := (p.print_eq_ok_iff source).1 hprint
  have hp : p.Spellable := ⟨hspares, hprints⟩
  refine ⟨p.spelled, Source.parse_source p, fun s hsize hpointer => ?_⟩
  have hs : s.tape.InWord := .of_size_le hsize hpointer
  refine ⟨⟨?_, fun ⟨h, hword⟩ => spelled_completes hp hs hword h⟩, ?_,
    fun streams => ⟨fun h => ⟨underflows_of_spelled hp hs h, ?_⟩,
      fun ⟨h, hword⟩ => spelled_underflows hp hs hword h⟩, fun r hr hfatal hword => ?_⟩
  · rintro ⟨n', t', h⟩
    obtain ⟨n, t, hcompletes, -⟩ := completes_of_spelled hp hs h
    exact ⟨⟨n, t, hcompletes⟩, not_leavesWord h rfl⟩
  · rintro n n' t t' ⟨fuel, h⟩ h'
    obtain ⟨m, u, ⟨fuel', hcompletes⟩, hsame, hle⟩ := completes_of_spelled hp hs h'
    cases run_none_unique h hcompletes
    exact ⟨hsame.streams_eq, hsame.tape.pointer_eq, Tape.Same.trimmed_eq hsame.tape, hle⟩
  · obtain ⟨pointer, offset, t, hunderflows, -⟩ := h
    exact not_leavesWord hunderflows rfl
  · rw [Program.source, String.length_ofList]
    exact lt_of_leavesWord hp hs hr hfatal hword

/-- Adds 128 times the current cell to the left and 5 times to the right, and writes what is
left. -/
def scattering : Program :=
  .op (.multiply (.ofList [(2, 5), (-1, -128)])) (.op .output .done)

/-- On the first machine the text of `scattering` completes and leaves what the program leaves; on
the second there is no cell to the left. -/
theorem print_keeps_behaviour_scattering :
    scattering.allOps Op.sparesCurrent = true ∧ scattering.print = .ok scattering.source ∧
    ∃ q, Source.parse scattering.source = .ok q ∧
      (∃ n t, Halts Buffers.device q ⟨⟨#[7, 3], 1⟩, ⟨[], #[]⟩⟩ ⟨.ok (.completed n), t⟩ ∧
        2 ≤ n ∧ t.streams = ⟨[], #[0]⟩ ∧ t.tape.pointer = 1 ∧
        t.tape.trimmed = #[135, 0, 0, 15]) ∧
      Underflows Buffers.device q ⟨⟨#[3], 0⟩, ⟨[], #[]⟩⟩ ⟨[], #[]⟩ := by
  have hspares : scattering.allOps Op.sparesCurrent = true := by decide
  have hprint : scattering.print = .ok scattering.source := rfl
  have hwritten : scattering.allOps Op.isWritten = true := by decide
  have hlength : scattering.source.length = 143 := by
    rw [Program.source, String.length_ofList]
    rfl
  obtain ⟨q, hparse, hall⟩ := print_keeps_behaviour Buffers.device hspares hprint
  rw [hlength] at hall
  refine ⟨hspares, hprint, q, hparse, ?_, ?_⟩
  · have hrun : run Buffers.device 2 none scattering ⟨⟨#[7, 3], 1⟩, ⟨[], #[]⟩⟩ =
        some ⟨.ok (.completed 2), ⟨⟨#[135, 0, 0, 15], 1⟩, ⟨[], #[0]⟩⟩⟩ := rfl
    obtain ⟨hiff, hend, -, hcrowded⟩ := hall ⟨⟨#[7, 3], 1⟩, ⟨[], #[]⟩⟩ (by decide) (by decide)
    have hword : ¬ LeavesWord Buffers.device q ⟨⟨#[7, 3], 1⟩, ⟨[], #[]⟩⟩ := fun h =>
      absurd (hcrowded _ ⟨2, hrun⟩ rfl h) (by decide)
    obtain ⟨n', t', hq⟩ := hiff.2 ⟨⟨2, _, 2, hrun⟩, hword⟩
    obtain ⟨hstreams, hpointer, htrimmed, hle⟩ := hend 2 n' _ t' ⟨2, hrun⟩ hq
    have hshown : Tape.trimmed ⟨#[135, 0, 0, 15], 1⟩ = #[135, 0, 0, 15] := by simp [Tape.trimmed]
    exact ⟨n', t', hq, hle hwritten, hstreams.symm, hpointer.symm, htrimmed.symm.trans hshown⟩
  · have hrun : run Buffers.device 1 none scattering ⟨⟨#[3], 0⟩, ⟨[], #[]⟩⟩ =
        some ⟨.error (.tape (.underflow 0 (-1))), ⟨⟨#[3], 0⟩, ⟨[], #[]⟩⟩⟩ := rfl
    obtain ⟨-, -, hiff, hcrowded⟩ := hall ⟨⟨#[3], 0⟩, ⟨[], #[]⟩⟩ (by decide) (by decide)
    have hword : ¬ LeavesWord Buffers.device q ⟨⟨#[3], 0⟩, ⟨[], #[]⟩⟩ := fun h =>
      absurd (hcrowded _ ⟨1, hrun⟩ rfl h) (by decide)
    exact (hiff ⟨[], #[]⟩).2 ⟨⟨0, -1, _, ⟨1, hrun⟩, rfl⟩, hword⟩

/-! ## A text that overflows alone -/

/-- Adds 128 times the current cell to the cell `k` places to the right. -/
def scaling (k : Int) : Program := .op (.multiply (.ofList [(k, -128)])) .done

section Scaling

variable {k : Int} {s : State σ}

/-- Twice 128 is zero, and for a zero there is room in the last cell of the word too. -/
theorem bigStep_scaling (hs : s.tape.InWord) (hcurrent : s.tape.current = 2)
    (hedge : (s.tape.pointer : Int) + k = Word.greatest) :
    ∃ t, BigStep D (scaling k) s 1 (.next t) := by
  have hnonzero : s.tape.current ≠ 0 := by
    rw [hcurrent]
    decide
  obtain ⟨u, hspread, -⟩ := spread_of_usable s.tape.current (l := [(k, -128)])
    (t := s.tape) (List.pairwise_singleton _ _) (by
      intro e he
      obtain rfl := List.mem_singleton.1 he
      refine ⟨Word.greatest.toNat, hedge.symm, ?_, ?_⟩
      · rw [hedge]
        decide
      · have hlast : s.tape.cell Word.greatest.toNat = 0 := hs.cell_eq _ (Int.le_refl _)
        have hproduct : (0 : UInt8) + 2 * (-128 : Int8).toUInt8 = 0 := by decide
        rw [hlast, hcurrent, hproduct]
        exact Tape.hasRoom_zero _)
  exact ⟨_, .op (exec_multiply_of_ok hnonzero hspread) (.done _)⟩

/-- For 128 there is no room. -/
theorem fails_scaling (hs : s.tape.InWord) (hnonzero : s.tape.current ≠ 0)
    (hedge : (s.tape.pointer : Int) + k = Word.greatest) :
    Fails D (scaling k).spelled s (.overflow .capacity) := by
  have hentries : ∀ {e}, e ∈ (Factors.ofList [(k, -128)]).entries ↔ e = (k, -128) :=
    List.mem_singleton
  apply overflows_multiply .capacity hs hnonzero
  · intro e he
    rw [hentries.1 he, hedge]
    decide
  · refine ⟨(k, -128), hentries.2 rfl, fun haccess => ?_⟩
    have hlt := haccess.2.2 (show (-128 : Int8) ≠ 0 by decide)
    exact absurd hlt (Int.not_lt.2 (Int.le_of_eq hedge.symm))

end Scaling

theorem Fails.not_completes {p : Program} {s : State σ} {x : Overflow}
    (h : Fails D p s (.overflow x)) : ¬ ∃ n t, Halts D p s ⟨.ok (.completed n), t⟩ := by
  rintro ⟨n, u, hcompletes⟩
  obtain ⟨t, hstep, -⟩ := (halts_completed_iff p s u n).1 hcompletes
  exact h.overflowed hstep

/-- A tape that fills the word, with a two in its last cell. -/
theorem exists_full_tape : ∃ t : Tape, (t.cells.size : Int) = Word.greatest ∧
    (t.pointer : Int) + 1 = Word.greatest ∧ t.current = 2 := by
  refine ⟨⟨(Array.replicate 9223372036854775806 0).push 2, 9223372036854775806⟩, ?_, rfl, ?_⟩
  · rw [Array.size_push, Array.size_replicate]
    rfl
  · rw [Tape.current, Tape.cell, Array.getD_eq_getD_getElem?, Array.getElem?_push, if_pos]
    · rfl
    · exact (Array.size_replicate).symm

/-- Multiplies a two in the first cell into the last cell of the word. -/
def leaping : Program := .op (.add 2 0) (scaling 9223372036854775807)

/-- The program that the text of `leaping` is read as, with its rows of single moves and decrements
merged. -/
def leapingLoop : Program :=
  .op (.add 2 0) (.loop (.op (.add (-1) 0) (.op (.shift 9223372036854775807)
    (.op (.add (-128) 0) (.op (.shift (-9223372036854775807)) .done)))) .done)

theorem execute_leaping :
    execute 2 none leaping [] = some ⟨.ok (.completed 2), ⟨⟨#[0], 0⟩, ⟨[], #[]⟩⟩⟩ := by
  have hadd : exec Buffers.device (.add 2 0) (.fresh (.ofInput [])) =
      .next ⟨⟨#[2], 0⟩, ⟨[], #[]⟩⟩ := rfl
  have hmultiply : exec Buffers.device (.multiply (.ofList [(9223372036854775807, -128)]))
      ⟨⟨#[2], 0⟩, ⟨[], #[]⟩⟩ = .next ⟨⟨#[0], 0⟩, ⟨[], #[]⟩⟩ := rfl
  have hadvance : advance Buffers.device 2 0 [leaping] (.fresh (.ofInput [])) =
      .completed 2 ⟨⟨#[0], 0⟩, ⟨[], #[]⟩⟩ := by
    simp only [leaping, scaling, advance, next, hadd, hmultiply]
  rw [execute, run, Option.getD_none, hadvance]
  rfl

theorem fails_leaping :
    Fails Buffers.device leaping.spelled (.fresh (.ofInput [])) (.overflow .capacity) := by
  have hs : Tape.InWord ⟨#[2], 0⟩ := .of_size_le (by decide) (by decide)
  obtain ⟨n, e, t, hstep, hend⟩ := fails_scaling (D := Buffers.device)
    (k := 9223372036854775807) (s := ⟨⟨#[2], 0⟩, ⟨[], #[]⟩⟩) hs (by decide) (by decide)
  exact ⟨_, e, t, .op rfl (.op rfl hstep), hend⟩

/-- Two programs that complete where their texts do not. The text of the first is short, but the
tape fills the word. The second starts on a new tape, and its text leads to the end of the word;
the overflow remains if the single moves of the text are merged. -/
theorem text_overflows_alone :
    ((scaling 1).allOps Op.sparesCurrent = true ∧ (scaling 1).print = .ok (scaling 1).source ∧
      ∃ s : State Buffers, (s.tape.cells.size : Int) = Word.greatest ∧
        (s.tape.pointer : Int) ≤ Word.greatest ∧
        (∃ n t, Halts Buffers.device (scaling 1) s ⟨.ok (.completed n), t⟩) ∧
        ∃ q, Source.parse (scaling 1).source = .ok q ∧
          ¬ ∃ n t, Halts Buffers.device q s ⟨.ok (.completed n), t⟩) ∧
    leaping.allOps Op.sparesCurrent = true ∧ leaping.print = .ok leaping.source ∧
      execute 2 none leaping [] = some ⟨.ok (.completed 2), ⟨⟨#[0], 0⟩, ⟨[], #[]⟩⟩⟩ ∧
      ∃ q, Source.parse leaping.source = .ok q ∧
        (¬ ∃ n t, Halts Buffers.device q (.fresh (.ofInput [])) ⟨.ok (.completed n), t⟩) ∧
        q.mergeRuns = leapingLoop ∧
        ∃ r, execute 5 none leapingLoop [] = some r ∧
          r.result = .error (.tape (.overflow .capacity)) := by
  refine ⟨⟨by decide, rfl, ?_⟩, by decide, ?_, execute_leaping, leaping.spelled,
    Source.parse_source _, fails_leaping.not_completes, ?_, _, rfl, rfl⟩
  · obtain ⟨tape, hsize, hedge, hcurrent⟩ := exists_full_tape
    have hpointer : (tape.pointer : Int) ≤ Word.greatest := by omega
    have hs : tape.InWord := .of_size_le (Int.le_of_eq hsize) hpointer
    refine ⟨⟨tape, ⟨[], #[]⟩⟩, hsize, hpointer, ?_, _, Source.parse_source _, ?_⟩
    · obtain ⟨t, hstep⟩ := bigStep_scaling (D := Buffers.device) (s := ⟨tape, ⟨[], #[]⟩⟩) hs
        hcurrent hedge
      exact ⟨1, t, (halts_completed_iff _ _ t 1).2 ⟨t, hstep, rfl⟩⟩
    · apply Fails.not_completes
      exact fails_scaling hs (by rw [hcurrent]; decide) hedge
  · exact (Program.print_eq_ok_iff _ _).2 ⟨by decide, rfl⟩
  · exact Program.mergeRuns_spelled ⟨rfl, rfl, rfl, rfl, trivial⟩ (by decide) (by decide)
      (by decide)

end Machine

end TapeLang
