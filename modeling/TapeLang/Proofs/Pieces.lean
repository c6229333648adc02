import TapeLang.Device.Script
import TapeLang.Proofs.BigStep
import TapeLang.Proofs.Executed

/-!
# A program fed in pieces

Running `a` and then `b` on the same machine is running `a ++ b`, but for the flush that ends the
run of `a`. A derivation for `a ++ b` splits where `a` is over (`bigStep_append_iff`). What is left
is then a run of `b` on the machine before that flush, against one on the machine after it. If the
reader and the writer have nothing to do with each other and the writer never fails, a flush more or
less makes no difference to such a run (`parallel_flushApart`).
-/

set_option autoImplicit false

namespace TapeLang

namespace Device

variable {ρ ω : Type}

/-- A reader, a writer, and the calls that have been made, the latest at the end. -/
structure Monitored (ρ ω : Type) where
  reader : ρ
  writer : ω
  calls : List Call

/-- A reader and a writer that have nothing to do with each other, with their calls written down.
The reader may fail, and the writer never does. -/
def monitored (read : ρ → Except StreamError (Option UInt8) × ρ) (write : UInt8 → ω → ω)
    (flush : ω → ω) : Device (Monitored ρ ω) where
  read := fun s =>
    ((read s.reader).1, ⟨(read s.reader).2, s.writer, s.calls ++ [.read]⟩)
  write := fun b s => (.ok (), ⟨s.reader, write b s.writer, s.calls ++ [.write b]⟩)
  flush := fun s => (.ok (), ⟨s.reader, flush s.writer, s.calls ++ [.flush]⟩)

/-- The bytes of the writes among some calls. -/
def writtenBytes (calls : List Call) : List UInt8 :=
  calls.filterMap fun call =>
    match call with
    | .write b => some b
    | _ => none

/-- The same reader, and the same calls after those in `base`, but for a flush that only the second
device has seen. -/
structure FlushApart (base : List Call) (x y : Monitored ρ ω) : Prop where
  reader_eq : x.reader = y.reader
  calls : ∃ later, x.calls = base ++ later ∧ y.calls = base ++ .flush :: later

/-- Further calls that both devices see keep them one flush apart. -/
theorem FlushApart.concat {base : List Call} {x y : Monitored ρ ω} (h : FlushApart base x y)
    (reader : ρ) (w w' : ω) (calls : List Call) :
    FlushApart base ⟨reader, w, x.calls ++ calls⟩ ⟨reader, w', y.calls ++ calls⟩ := by
  obtain ⟨later, hx, hy⟩ := h.calls
  refine ⟨rfl, later ++ calls, ?_, ?_⟩
  · rw [hx, List.append_assoc]
  · rw [hy, List.append_assoc, List.cons_append]

theorem FlushApart.writtenBytes_eq {base : List Call} {x y : Monitored ρ ω}
    (h : FlushApart base x y) : writtenBytes x.calls = writtenBytes y.calls := by
  obtain ⟨later, hx, hy⟩ := h.calls
  rw [hx, hy, writtenBytes, writtenBytes, List.filterMap_append, List.filterMap_append]
  rfl

end Device

namespace Machine

open Device (Call Monitored monitored FlushApart writtenBytes)

/-! ## Sequences -/

section Sequences

variable {σ : Type} {D : Device σ} {b : Program}

/-- What follows a first part that has ended in some way: the second part, or nothing more if the
first has failed. -/
inductive Then (D : Device σ) (b : Program) : Step σ → Nat → Step σ → Prop
  | next {t : State σ} {n : Nat} {x : Step σ} (h : BigStep D b t n x) : Then D b (.next t) n x
  | failed {fault : Fault} {t : State σ} : Then D b (.failed fault t) 0 (.failed fault t)

theorem BigStep.append {a : Program} {s : State σ} {m : Nat} {x : Step σ}
    (h : BigStep D a s m x) : ∀ {n : Nat} {y : Step σ}, Then D b x n y →
      BigStep D (a ++ b) s (m + n) y := by
  induction h with
  | done s =>
      rintro n y (hb | _)
      rw [Nat.zero_add]
      exact hb
  | op first _ ih =>
      intro n y hthen
      rw [Nat.add_assoc]
      exact .op first (ih hthen)
  | op_failed first =>
      rintro n y (_ | _)
      exact .op_failed first
  | loop_left zero _ ih =>
      intro n y hthen
      rw [Nat.add_assoc]
      exact .loop_left zero (ih hthen)
  | loop_entered nonzero round _ _ ih =>
      -- the second part comes after the last round
      intro n y hthen
      rw [Nat.add_assoc]
      exact .loop_entered nonzero round (ih hthen)
  | loop_failed nonzero round _ =>
      rintro n y (_ | _)
      exact .loop_failed nonzero round

theorem BigStep.split {a : Program} : ∀ {s : State σ} {n : Nat} {y : Step σ},
    BigStep D (a ++ b) s n y → ∃ m k x, BigStep D a s m x ∧ Then D b x k y ∧ n = m + k := by
  induction a with
  | done =>
      intro s n y h
      exact ⟨0, n, .next s, .done s, .next h, (Nat.zero_add n).symm⟩
  | op o rest ih =>
      intro s n y h
      rw [Program.op_append] at h
      cases h with
      | op first later =>
          obtain ⟨m, k, x, hx, hthen, rfl⟩ := ih later
          exact ⟨1 + m, k, x, .op first hx, hthen, (Nat.add_assoc 1 m k).symm⟩
      | op_failed first => exact ⟨1, 0, _, .op_failed first, .failed, rfl⟩
  | loop body rest _ ih =>
      intro s n y h
      rw [Program.loop_append] at h
      -- by induction on the rounds of the loop, which all have the same program
      generalize hp : Program.loop body (rest ++ b) = p at h
      induction h with
      | done s => cases hp
      | op first later _ => cases hp
      | op_failed first => cases hp
      | loop_left zero later _ =>
          cases hp
          obtain ⟨m, k, x, hx, hthen, rfl⟩ := ih later
          exact ⟨1 + m, k, x, .loop_left zero hx, hthen, (Nat.add_assoc 1 m k).symm⟩
      | @loop_entered body' rest' s t m n y nonzero round _ _ ihagain =>
          cases hp
          obtain ⟨m', k, x, hx, hthen, rfl⟩ := ihagain rfl
          exact ⟨1 + m + m', k, x, .loop_entered nonzero round hx, hthen,
            (Nat.add_assoc (1 + m) m' k).symm⟩
      | loop_failed nonzero round _ =>
          cases hp
          exact ⟨_, 0, _, .loop_failed nonzero round, .failed, rfl⟩

/-- A sequence is its first part and then its second part, unless the first fails. -/
theorem bigStep_append_iff {a : Program} {s : State σ} {n : Nat} {y : Step σ} :
    BigStep D (a ++ b) s n y ↔
      ∃ m k x, BigStep D a s m x ∧ Then D b x k y ∧ n = m + k := by
  constructor
  · exact BigStep.split
  · rintro ⟨m, k, x, hx, hthen, rfl⟩
    exact hx.append hthen

/-- After a first part that completes, only the second part is left. -/
theorem bigStep_append_of_next {a : Program} {s t : State σ} {m n : Nat} {y : Step σ}
    (ha : BigStep D a s m (.next t)) :
    BigStep D (a ++ b) s n y ↔ ∃ k, BigStep D b t k y ∧ n = m + k := by
  rw [bigStep_append_iff]
  constructor
  · rintro ⟨m', k, x, hx, hthen, hn⟩
    obtain ⟨rfl, rfl⟩ := ha.unique hx
    cases hthen with
    | next hb => exact ⟨k, hb, hn⟩
  · rintro ⟨k, hb, hn⟩
    exact ⟨m, k, .next t, ha, .next hb, hn⟩

end Sequences

/-! ## Runs on a device that can always be flushed -/

section Flushable

variable {σ τ : Type} {D : Device σ}

/-- The whole run of which a derivation is the part before the last flush. -/
def Step.ended (D : Device σ) (n : Nat) : Step σ → Run σ
  | .next t => ⟨.ok (.completed n), t.flushed D⟩
  | .failed fault t => ⟨.error fault, t.flushed D⟩

theorem halts_iff_ended (hflush : ∀ x, (D.flush x).1 = .ok ()) {p : Program} {s : State σ}
    {r : Run σ} : Halts D p s r ↔ ∃ n x, BigStep D p s n x ∧ r = x.ended D n := by
  rw [halts_iff_bigStep]
  constructor
  · rintro (⟨n, t, h, rfl⟩ | ⟨n, fault, t, h, rfl⟩)
    · exact ⟨n, .next t, h, conclude_of_flush (hflush _) _⟩
    · exact ⟨n, .failed fault t, h, rfl⟩
  · rintro ⟨n, x, h, rfl⟩
    cases x with
    | next t => exact Or.inl ⟨n, t, h, (conclude_of_flush (hflush _) _).symm⟩
    | failed fault t => exact Or.inr ⟨n, fault, t, h, rfl⟩

/-- The count of a whole run is that of a later part with the steps before it added. -/
theorem Step.ended_completed_iff (x : Step σ) (m n k : Nat) :
    (x.ended D (m + n)).result = .ok (.completed (m + k)) ↔
      (x.ended D n).result = .ok (.completed k) := by
  cases x with
  | next t => simp [Step.ended]
  | failed fault t => simp [Step.ended]

theorem Step.ended_error_iff (x : Step σ) (m n : Nat) (fault : Fault) :
    (x.ended D m).result = .error fault ↔ (x.ended D n).result = .error fault := by
  cases x with
  | next t => simp [Step.ended]
  | failed fault t => exact Iff.rfl

theorem Step.ended_state (x : Step σ) (m n : Nat) :
    (x.ended D m).state = (x.ended D n).state := by
  cases x <;> rfl

/-- Runs without a limit on devices that stay parallel for ever. -/
theorem halts_parallel {E : Device τ} {rel : σ → τ → Prop} (h : Parallel D E fun _ => rel)
    {p : Program} {s : State σ} {u : State τ} (hs : s.Parallel rel u) :
    (∀ r, Halts D p s r → ∃ r', Halts E p u r' ∧ r.Parallel rel r') ∧
      ∀ r', Halts E p u r' → ∃ r, Halts D p s r ∧ r.Parallel rel r' := by
  constructor
  · rintro r ⟨fuel, hr⟩
    have hrun := run_parallel h fuel none p hs
    rw [hr] at hrun
    generalize hr' : run E fuel none p u = x at hrun
    cases hrun with
    | some hparallel => exact ⟨_, ⟨fuel, hr'⟩, hparallel⟩
  · rintro r' ⟨fuel, hr'⟩
    have hrun := run_parallel h fuel none p hs
    rw [hr'] at hrun
    generalize hr : run D fuel none p s = x at hrun
    cases hrun with
    | some hparallel => exact ⟨_, ⟨fuel, hr⟩, hparallel⟩

end Flushable

/-! ## Pieces -/

section Pieces

variable {ρ ω : Type} (read : ρ → Except StreamError (Option UInt8) × ρ) (write : UInt8 → ω → ω)
  (flush : ω → ω)

/-- A flush more or less is not seen by anything that comes after it: it leaves the reader alone,
and the writer answers every call in the same way. -/
theorem parallel_flushApart (base : List Call) :
    Parallel (monitored read write flush) (monitored read write flush)
      fun _ => FlushApart base := by
  apply Parallel.of_exchanges
  · rintro ⟨reader, w, calls⟩ ⟨reader', w', calls'⟩ h
    obtain rfl : reader = reader' := h.reader_eq
    exact ⟨rfl, h.concat (read reader).2 w w' [.read]⟩
  · -- the writers may differ, but neither of them can fail
    rintro ⟨reader, w, calls⟩ ⟨reader', w', calls'⟩ b h
    obtain rfl : reader = reader' := h.reader_eq
    exact ⟨rfl, h.concat reader (write b w) (write b w') [.write b]⟩
  · rintro ⟨reader, w, calls⟩ ⟨reader', w', calls'⟩ h
    obtain rfl : reader = reader' := h.reader_eq
    exact ⟨rfl, h.concat reader (flush w) (flush w') [.flush]⟩

/-- A whole program and its second part, run after the first part has completed in `n` steps with
the calls in `base`: the same end, the same tape, and devices one flush apart. -/
structure Rejoined (n : Nat) (base : List Call) (whole piece : Run (Monitored ρ ω)) : Prop where
  completed_iff : ∀ k, whole.result = .ok (.completed (n + k)) ↔ piece.result = .ok (.completed k)
  error_iff : ∀ fault, whole.result = .error fault ↔ piece.result = .error fault
  tape_eq : whole.state.tape = piece.state.tape
  apart : FlushApart base whole.state.streams piece.state.streams

section AfterFirst

variable {read write flush} {a b : Program} {n : Nat} {s t : State (Monitored ρ ω)}

theorem flushApart_flushed (t : State (Monitored ρ ω)) :
    t.Parallel (FlushApart t.streams.calls) (t.flushed (monitored read write flush)) :=
  ⟨rfl, rfl, [], (List.append_nil _).symm, rfl⟩

/-- The run of the second part on the machine before the flush, in both runs that are compared. -/
theorem Rejoined.of_parallel {base : List Call} {x : Step (Monitored ρ ω)} {k : Nat}
    {piece : Run (Monitored ρ ω)}
    (h : (x.ended (monitored read write flush) k).Parallel (FlushApart base) piece) :
    Rejoined n base (x.ended (monitored read write flush) (n + k)) piece where
  completed_iff := fun j => by rw [x.ended_completed_iff, h.result_eq]
  error_iff := fun fault => by rw [x.ended_error_iff (n + k) k, h.result_eq]
  tape_eq := by rw [x.ended_state (n + k) k, h.state.tape_eq]
  apart := by
    rw [x.ended_state (n + k) k]
    exact h.state.streams

theorem rejoined_of_whole (ha : BigStep (monitored read write flush) a s n (.next t))
    {r : Run (Monitored ρ ω)} (h : Halts (monitored read write flush) (a ++ b) s r) :
    ∃ r', Halts (monitored read write flush) b (t.flushed (monitored read write flush)) r' ∧
      Rejoined n t.streams.calls r r' := by
  obtain ⟨m, x, hx, rfl⟩ := (halts_iff_ended fun _ => rfl).1 h
  obtain ⟨k, hb, rfl⟩ := (bigStep_append_of_next ha).1 hx
  -- first the second part on the machine before the flush, then across the flush
  have hpiece := (halts_iff_ended fun _ => rfl).2 ⟨k, x, hb, rfl⟩
  obtain ⟨r', hr', hparallel⟩ := (halts_parallel (parallel_flushApart read write flush _)
    (flushApart_flushed t)).1 _ hpiece
  exact ⟨r', hr', .of_parallel hparallel⟩

theorem rejoined_of_piece (ha : BigStep (monitored read write flush) a s n (.next t))
    {r' : Run (Monitored ρ ω)}
    (h : Halts (monitored read write flush) b (t.flushed (monitored read write flush)) r') :
    ∃ r, Halts (monitored read write flush) (a ++ b) s r ∧ Rejoined n t.streams.calls r r' := by
  obtain ⟨r₀, hr₀, hparallel⟩ := (halts_parallel (parallel_flushApart read write flush _)
    (flushApart_flushed t)).2 _ h
  obtain ⟨k, x, hb, rfl⟩ := (halts_iff_ended fun _ => rfl).1 hr₀
  refine ⟨x.ended _ (n + k), ?_, .of_parallel hparallel⟩
  have hwhole := (bigStep_append_of_next ha).2 ⟨k, hb, rfl⟩
  exact (halts_iff_ended fun _ => rfl).2 ⟨n + k, x, hwhole, rfl⟩

end AfterFirst

/-- Feeding a program in pieces is running it whole, on every machine whose writer never fails and
has nothing to do with its reader. If the first part completes in `n₁` steps, the whole program
completes in `n₁ + n₂` steps exactly if the second part then completes in `n₂`, and fails exactly if
that fails in the same way. The tape with its stored cells, the reader and the bytes written are the
same in the end, and the calls are the same but for the flush that ended the first run. If the first
part fails, the whole program fails in the same way and leaves the same machine. -/
theorem run_pieces (a b : Program) (s : State (Monitored ρ ω)) :
    (∀ n₁ t, Halts (monitored read write flush) a s ⟨.ok (.completed n₁), t⟩ →
      (∀ n₂,
        (∃ v, Halts (monitored read write flush) (a ++ b) s ⟨.ok (.completed (n₁ + n₂)), v⟩) ↔
        ∃ u, Halts (monitored read write flush) b t ⟨.ok (.completed n₂), u⟩) ∧
      (∀ fault,
        (∃ v, Halts (monitored read write flush) (a ++ b) s ⟨.error fault, v⟩) ↔
        ∃ u, Halts (monitored read write flush) b t ⟨.error fault, u⟩) ∧
      ∃ before, t.streams.calls = before ++ [.flush] ∧
        ∀ r, Halts (monitored read write flush) (a ++ b) s r →
          ∃ r', Halts (monitored read write flush) b t r' ∧
            r.state.tape = r'.state.tape ∧ r.state.streams.reader = r'.state.streams.reader ∧
            writtenBytes r.state.streams.calls = writtenBytes r'.state.streams.calls ∧
            ∃ later, r.state.streams.calls = before ++ later ∧
              r'.state.streams.calls = before ++ .flush :: later) ∧
    ∀ fault t, Halts (monitored read write flush) a s ⟨.error fault, t⟩ →
      Halts (monitored read write flush) (a ++ b) s ⟨.error fault, t⟩ := by
  constructor
  · intro n₁ t ha
    obtain ⟨m, x, hx, hr⟩ := (halts_iff_ended fun _ => rfl).1 ha
    cases x with
    | failed fault t₀ => cases hr
    | next t₀ =>
        cases hr
        refine ⟨fun n₂ => ⟨?_, ?_⟩, fun fault => ⟨?_, ?_⟩, t₀.streams.calls, rfl, fun r hr => ?_⟩
        · rintro ⟨v, hv⟩
          obtain ⟨⟨result, u⟩, hu, hrejoined⟩ := rejoined_of_whole hx hv
          obtain rfl := (hrejoined.completed_iff n₂).1 rfl
          exact ⟨u, hu⟩
        · rintro ⟨u, hu⟩
          obtain ⟨⟨result, v⟩, hv, hrejoined⟩ := rejoined_of_piece hx hu
          obtain rfl := (hrejoined.completed_iff n₂).2 rfl
          exact ⟨v, hv⟩
        · rintro ⟨v, hv⟩
          obtain ⟨⟨result, u⟩, hu, hrejoined⟩ := rejoined_of_whole hx hv
          obtain rfl := (hrejoined.error_iff fault).1 rfl
          exact ⟨u, hu⟩
        · rintro ⟨u, hu⟩
          obtain ⟨⟨result, v⟩, hv, hrejoined⟩ := rejoined_of_piece hx hu
          obtain rfl := (hrejoined.error_iff fault).2 rfl
          exact ⟨v, hv⟩
        · obtain ⟨r', hr', hrejoined⟩ := rejoined_of_whole hx hr
          exact ⟨r', hr', hrejoined.tape_eq, hrejoined.apart.reader_eq,
            hrejoined.apart.writtenBytes_eq, hrejoined.apart.calls⟩
  · intro fault t ha
    obtain ⟨m, x, hx, hr⟩ := (halts_iff_ended fun _ => rfl).1 ha
    cases x with
    | next t₀ => cases hr
    | failed fault t₀ =>
        cases hr
        exact (halts_iff_ended fun _ => rfl).2 ⟨m, _, hx.append .failed, rfl⟩

end Pieces

/-- Reads a byte and writes it. -/
def relaying : Program := .op .input (.op .output .done)

/-- Writes all smaller values down to zero, and reads the next byte. -/
def countdown : Program := .loop (.op (.add (-1) 0) (.op .output .done)) (.op .input .done)

/-- Both pieces complete; the second one fails at the reader; the first one fails. -/
theorem run_pieces_countdown :
    (∃ t u v,
      Halts (monitored Chunk.read (fun b w => w ++ [b]) id) relaying
        (.fresh ⟨[.bytes [2, 7]], [], []⟩) ⟨.ok (.completed 2), t⟩ ∧
      Halts (monitored Chunk.read (fun b w => w ++ [b]) id) countdown t ⟨.ok (.completed 8), u⟩ ∧
      Halts (monitored Chunk.read (fun b w => w ++ [b]) id) (relaying ++ countdown)
        (.fresh ⟨[.bytes [2, 7]], [], []⟩) ⟨.ok (.completed (2 + 8)), v⟩) ∧
    (∃ v, Halts (monitored Chunk.read (fun b w => w ++ [b]) id) (relaying ++ countdown)
      (.fresh ⟨[.bytes [2], .failure ⟨.other "BrokenPipe", "gone"⟩], [], []⟩)
      ⟨.error (.stream ⟨.other "BrokenPipe", "gone"⟩), v⟩) ∧
    ∃ v, Halts (monitored Chunk.read (fun b w => w ++ [b]) id)
      (.op (.shift (-1)) .done ++ countdown) (.fresh ⟨[], [], []⟩)
      ⟨.error (.tape (.underflow 0 (-1))), v⟩ := by
  refine ⟨?_, ?_, ?_⟩
  · obtain ⟨hcompletes, -⟩ :=
      (run_pieces Chunk.read (fun b w => w ++ [b]) id relaying countdown
        (.fresh ⟨[.bytes [2, 7]], [], []⟩)).1 2 _ ⟨2, rfl⟩
    obtain ⟨v, hv⟩ := (hcompletes 8).2 ⟨_, 8, rfl⟩
    exact ⟨_, _, v, ⟨2, rfl⟩, ⟨8, rfl⟩, hv⟩
  · obtain ⟨-, hfails, -⟩ :=
      (run_pieces Chunk.read (fun b w => w ++ [b]) id relaying countdown
        (.fresh ⟨[.bytes [2], .failure ⟨.other "BrokenPipe", "gone"⟩], [], []⟩)).1 2 _ ⟨2, rfl⟩
    exact (hfails _).2 ⟨_, 8, rfl⟩
  · exact ⟨_, (run_pieces Chunk.read (fun b w => w ++ [b]) id (.op (.shift (-1)) .done) countdown
      (.fresh ⟨[], [], []⟩)).2 _ _ ⟨1, rfl⟩⟩

end Machine

end TapeLang
