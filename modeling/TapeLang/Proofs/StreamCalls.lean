import TapeLang.Device.Script

/-!
# Single calls

A device makes whole exchanges; `Streams` are the single calls below them. A read or a write that is
interrupted is called again (`retry`), and a write that takes nothing is a failure. The number of
repetitions is bounded, and the bound is arbitrary: what holds for every bound holds at every moment
of an exchange that is interrupted for ever.

Streams that are watched take down every call of the reader and of the writer, with what came of it.
The calls are in order (`Orderly`) if none of the reads comes while a byte that the writer has taken
has not been flushed. A write keeps them in order, and so does a read right after a flush that has
succeeded. The exchanges of a script are made of single calls in this way (`Script.retry_read`,
`Script.retry_write`).
-/

set_option autoImplicit false

namespace TapeLang

/-! ## Single calls -/

/-- A reader and a writer, call by call. -/
structure Streams (σ : Type) where
  /-- A call for one byte: the byte, or nothing at the end of the input. -/
  read : σ → Except StreamError (Option UInt8) × σ
  /-- A call with one byte: whether the byte was taken. -/
  write : UInt8 → σ → Except StreamError Bool × σ
  /-- A call to let everything that was taken go out. -/
  flush : σ → Except StreamError Unit × σ

/-- A call, and again as long as it is interrupted, at most `patience` times. -/
def retry {σ α : Type} (call : σ → Except StreamError α × σ) :
    Nat → σ → Except StreamError α × σ
  | 0, s => call s
  | patience + 1, s =>
      match call s with
      | (.error e, s') =>
          if e.kind = .interrupted then retry call patience s' else (.error e, s')
      | (.ok a, s') => (.ok a, s')

/-- What holds after the last call holds after all of them, if each call that fails keeps what it
starts from. -/
theorem retry_spec {σ α : Type} (call : σ → Except StreamError α × σ) {P : σ → Prop}
    {Q : Except StreamError α → σ → Prop} (hend : ∀ s, P s → Q (call s).1 (call s).2)
    (hagain : ∀ s e, P s → (call s).1 = .error e → P (call s).2) (patience : Nat) :
    ∀ {s : σ}, P s → Q (retry call patience s).1 (retry call patience s).2 := by
  induction patience with
  | zero => exact fun {s} hs => hend s hs
  | succ patience ih =>
      intro s hs
      have hlast := hend s hs
      have hnext := hagain s
      rw [retry]
      rcases hcall : call s with ⟨result, s'⟩
      rw [hcall] at hlast hnext
      cases result with
      | ok a => exact hlast
      | error e =>
          -- only an interruption is followed by another call
          simp only
          split
          · exact ih (hnext e hs rfl)
          · exact hlast

namespace Streams

variable {σ : Type}

/-- The end of a write, given the end of its last call. -/
def accepted : Except StreamError Bool → Except StreamError Unit
  | .ok true => .ok ()
  | .ok false => .error .nothingWritten
  | .error e => .error e

/-- The exchanges that are made of the calls of some streams. -/
def device (S : Streams σ) (patience : Nat) : Device σ where
  read := retry S.read patience
  write := fun b s => ((retry (S.write b) patience s).map accepted id)
  flush := S.flush

/-- A call and what came of it. What a read has returned makes no difference here. -/
inductive Call where
  | read
  | write (b : UInt8) (taken : Bool)
  | flush (succeeded : Bool)
  deriving DecidableEq, Repr

/-- The byte that the writer has taken in a call. -/
def Call.byte : Call → Option UInt8
  | .write b true => some b
  | _ => none

theorem Call.toList_byte_write (b : UInt8) (taken : Bool) :
    (Call.write b taken).byte.toList = if taken then [b] else [] := by
  cases taken <;> rfl

/-- Streams and the calls that have been made, the latest at the end. -/
structure Watched (σ : Type) where
  inside : σ
  calls : List Call

/-- Streams whose calls are taken down. -/
def watched (S : Streams σ) : Streams (Watched σ) where
  read := fun s => ((S.read s.inside).1, ⟨(S.read s.inside).2, s.calls ++ [.read]⟩)
  write := fun b s =>
    ((S.write b s.inside).1, ⟨(S.write b s.inside).2,
      s.calls ++ [.write b (accepted (S.write b s.inside).1).isOk]⟩)
  flush := fun s =>
    ((S.flush s.inside).1, ⟨(S.flush s.inside).2, s.calls ++ [.flush (S.flush s.inside).1.isOk]⟩)

/-! ## Discipline -/

/-- Every byte that the writer has taken was followed by a flush that succeeded. -/
def AllOut (calls : List Call) : Prop :=
  ∀ before b after, calls = before ++ .write b true :: after → .flush true ∈ after

/-- At every read call, every byte that the writer had taken before was flushed. -/
def Disciplined (calls : List Call) : Prop :=
  ∀ before after, calls = before ++ .read :: after → AllOut before

theorem filterMap_concat {α β : Type} (f : α → Option β) (acts : List α) (act : α) :
    (acts ++ [act]).filterMap f = acts.filterMap f ++ (f act).toList := by
  rw [List.filterMap_append]
  cases hact : f act <;> simp [hact]

/-- A call in a list that has one more at the end is that one or was there before. -/
theorem split_concat {calls before after : List Call} {last call : Call}
    (h : calls ++ [last] = before ++ call :: after) :
    (calls = before ∧ last = call) ∨
      ∃ after', after = after' ++ [last] ∧ calls = before ++ call :: after' := by
  rcases List.eq_nil_or_concat after with rfl | ⟨after', other, rfl⟩
  · obtain ⟨rfl, hlast⟩ := List.append_inj' h rfl
    exact Or.inl ⟨rfl, List.singleton_inj.1 hlast⟩
  · rw [List.concat_eq_append, ← List.cons_append, ← List.append_assoc] at h
    obtain ⟨rfl, hlast⟩ := List.append_inj' h rfl
    obtain rfl := List.singleton_inj.1 hlast
    exact Or.inr ⟨after', List.concat_eq_append, rfl⟩

theorem allOut_flush (calls : List Call) : AllOut (calls ++ [.flush true]) := by
  intro before b after heq
  rcases split_concat heq with ⟨-, hlast⟩ | ⟨after', rfl, -⟩
  · cases hlast
  · exact List.mem_append_right after' List.mem_cons_self

theorem AllOut.read {calls : List Call} (h : AllOut calls) : AllOut (calls ++ [.read]) := by
  intro before b after heq
  rcases split_concat heq with ⟨-, hlast⟩ | ⟨after', rfl, hcalls⟩
  · cases hlast
  · exact List.mem_append_left _ (h before b after' hcalls)

/-- Calls that go on from those in `base`, with no read too early, in which the writer has taken
`bytes` in all. -/
structure Orderly (base : List Call) (bytes : List UInt8) (calls : List Call) : Prop where
  later : base <+: calls
  disciplined : Disciplined calls
  bytes_eq : calls.filterMap Call.byte = bytes

namespace Orderly

variable {base calls : List Call} {bytes : List UInt8}

theorem nil : Orderly [] [] [] where
  later := List.prefix_rfl
  disciplined := by
    intro before after h
    cases before <;> cases h
  bytes_eq := rfl

/-- Calls are counted from a later moment on. -/
theorem rebase (h : Orderly base bytes calls) : Orderly calls bytes calls :=
  { h with later := List.prefix_rfl }

/-- One more call is in order, unless it is a read that comes too early. -/
theorem concat (h : Orderly base bytes calls) (call : Call) (hread : call = .read → AllOut calls) :
    Orderly base (bytes ++ call.byte.toList) (calls ++ [call]) where
  later := h.later.trans (List.prefix_append _ _)
  disciplined := by
    intro before after heq
    rcases split_concat heq with ⟨rfl, hlast⟩ | ⟨after', -, hcalls⟩
    · exact hread hlast
    · exact h.disciplined before after' hcalls
  bytes_eq := by rw [filterMap_concat, h.bytes_eq]

theorem concat_silent (h : Orderly base bytes calls) (call : Call)
    (hread : call = .read → AllOut calls) (hbyte : call.byte = none) :
    Orderly base bytes (calls ++ [call]) := by
  have hcall := h.concat call hread
  rwa [hbyte, Option.toList_none, List.append_nil] at hcall

theorem flush (h : Orderly base bytes calls) (succeeded : Bool) :
    Orderly base bytes (calls ++ [.flush succeeded]) := by
  apply h.concat_silent (.flush succeeded) _ rfl
  intro heq
  cases heq

variable (S : Streams σ) (patience : Nat) {x : Watched σ}

/-- Reading is in order if everything is out when it begins: then everything is out at each of its
calls. -/
theorem read (h : Orderly base bytes x.calls) (hout : AllOut x.calls) :
    Orderly base bytes ((S.watched.device patience).read x).2.calls := by
  have hcall : ∀ y : Watched σ, (Orderly base bytes y.calls ∧ AllOut y.calls) →
      Orderly base bytes (S.watched.read y).2.calls ∧ AllOut (S.watched.read y).2.calls := by
    rintro y ⟨hy, hout⟩
    exact ⟨hy.concat_silent .read (fun _ => hout) rfl, hout.read⟩
  have hretry := retry_spec S.watched.read
    (Q := fun _ (y : Watched σ) => Orderly base bytes y.calls ∧ AllOut y.calls) hcall
    (fun y _ hy _ => hcall y hy) patience ⟨h, hout⟩
  exact hretry.1

/-- Writing adds the byte once to what the writer has taken if it succeeds, and nothing if it
fails. -/
theorem write (h : Orderly base bytes x.calls) (b : UInt8) :
    Orderly base
      (bytes ++ if ((S.watched.device patience).write b x).1.isOk then [b] else [])
      ((S.watched.device patience).write b x).2.calls := by
  have hcall : ∀ y : Watched σ, Orderly base bytes y.calls →
      Orderly base (bytes ++ if (accepted (S.watched.write b y).1).isOk then [b] else [])
        (S.watched.write b y).2.calls := by
    intro y hy
    have hwrite := hy.concat (.write b (accepted (S.write b y.inside).1).isOk)
      (fun heq => by cases heq)
    rwa [Call.toList_byte_write] at hwrite
  apply retry_spec (S.watched.write b) (P := fun y => Orderly base bytes y.calls)
    (Q := fun result y =>
      Orderly base (bytes ++ if (accepted result).isOk then [b] else []) y.calls) hcall _ patience h
  -- a call that fails has taken nothing
  intro y e hy herror
  have hfailed := hcall y hy
  rw [herror] at hfailed
  exact (List.append_nil bytes) ▸ hfailed

end Orderly

end Streams

/-! ## Scripts, call by call -/

/-- Watching makes no difference to what is repeated and to how it ends. -/
theorem Streams.retry_inside {σ α : Type} (call : Watched σ → Except StreamError α × Watched σ)
    {call' : σ → Except StreamError α × σ}
    (h : ∀ y, (call y).1 = (call' y.inside).1 ∧ (call y).2.inside = (call' y.inside).2)
    (patience : Nat) : ∀ y, (retry call patience y).1 = (retry call' patience y.inside).1 ∧
      (retry call patience y).2.inside = (retry call' patience y.inside).2 := by
  induction patience with
  | zero => exact h
  | succ patience ih =>
      intro y
      obtain ⟨hresult, hinside⟩ := h y
      simp only [retry]
      rcases hcall : call y with ⟨result, y₁⟩
      rcases hcall' : call' y.inside with ⟨result', x₁⟩
      rw [hcall, hcall'] at hresult hinside
      cases hresult
      cases hinside
      cases result with
      | ok a => exact ⟨rfl, rfl⟩
      | error e =>
          simp only
          split
          · exact ih y₁
          · exact ⟨rfl, rfl⟩

theorem retry_of_ok {σ α : Type} {call : σ → Except StreamError α × σ} {s : σ} {a : α}
    (h : (call s).1 = .ok a) (patience : Nat) : retry call patience s = call s := by
  cases patience with
  | zero => rfl
  | succ patience =>
      rw [retry]
      rcases hcall : call s with ⟨result, s'⟩
      rw [hcall] at h
      cases h
      rfl

theorem Chunk.length_read_le (chunks : List Chunk) :
    (Chunk.read chunks).2.length ≤ chunks.length := by
  fun_induction Chunk.read chunks with
  | case1 => exact Nat.le_refl 0
  | case2 rest => exact Nat.le_succ _
  | case3 b rest => exact Nat.le_succ _
  | case4 b more rest _ => exact Nat.le_refl _
  | case5 e rest he ih => exact Nat.le_succ_of_le ih
  | case6 e rest he => exact Nat.le_succ _

namespace Script

/-- The calls of a script. Unlike `read` and `write` they do not repeat what is interrupted. -/
def streams : Streams Script where
  read := fun s =>
    match s.chunks with
    | .failure e :: rest => (.error e, { s with chunks := rest })
    | _ => s.read
  write := fun b s =>
    if s.plan.failWrite = some s.writes then (.error s.plan.failure, (s.writeCall b).2)
    else if s.plan.limit.any (· ≤ s.written) then (.ok false, (s.writeCall b).2)
    else (.ok true, (s.writeCall b).2)
  flush := flush

/-- A read that is interrupted uses a chunk up, so with enough patience all of them are repeated. -/
theorem retry_read {patience : Nat} : ∀ {s : Script}, s.chunks.length ≤ patience →
    retry streams.read patience s = s.read := by
  induction patience with
  | zero =>
      rintro ⟨chunks, plan, writes, flushes, written, events⟩ h
      -- no chunk is left that could be interrupted
      obtain rfl := List.length_eq_zero_iff.1 (Nat.le_zero.1 h)
      rfl
  | succ patience ih =>
      rintro ⟨chunks, plan, writes, flushes, written, events⟩ h
      match chunks with
      | [] => rfl
      | .bytes [] :: rest => rfl
      | .bytes [b] :: rest => rfl
      | .bytes (b :: c :: more) :: rest => rfl
      | .failure e :: rest =>
          simp only [retry, streams]
          by_cases he : e.kind = .interrupted
          · rw [if_pos he]
            refine (ih (Nat.le_of_succ_le_succ h)).trans ?_
            simp only [read, Chunk.read, if_pos he]
          · simp only [read, Chunk.read, if_neg he]

theorem accepted_write (b : UInt8) (s : Script) :
    (streams.write b s).map Streams.accepted id = s.writeCall b := by
  simp only [streams, writeCall]
  split
  · rfl
  · split <;> rfl

/-- A write call that the plan does not make fail is not repeated. -/
theorem retry_write_of_ne {b : UInt8} {s : Script} (h : s.plan.failWrite ≠ some s.writes)
    (patience : Nat) :
    (retry (streams.write b) patience s).map Streams.accepted id = s.writeCall b := by
  have hok : ∃ taken, (streams.write b s).1 = .ok taken := by
    simp only [streams, if_neg h]
    split
    · exact ⟨false, rfl⟩
    · exact ⟨true, rfl⟩
  obtain ⟨taken, htaken⟩ := hok
  rw [retry_of_ok htaken, accepted_write]

/-- Only one write call of a script fails, so one repetition is enough. -/
theorem retry_write (b : UInt8) (patience : Nat) (s : Script) :
    (retry (streams.write b) (patience + 1) s).map Streams.accepted id = s.write b := by
  by_cases hfail : s.plan.failWrite = some s.writes
  · have hcall : s.writeCall b = (.error s.plan.failure, { s with writes := s.writes + 1 }) := by
      simp only [writeCall, if_pos hfail]
    simp only [retry, streams, write, hcall, if_pos hfail]
    split
    · -- the plan names one call, and the next one has another number
      apply retry_write_of_ne
      simp only [hfail, ne_eq, Option.some.injEq]
      exact Nat.ne_of_lt (Nat.lt_succ_self s.writes)
    · rfl
  · rw [retry_write_of_ne hfail, write, writeCall]
    -- a write that takes nothing is not interrupted
    simp only [if_neg hfail]
    split <;> rfl

theorem chunks_writeCall (b : UInt8) (s : Script) : (s.writeCall b).2.chunks = s.chunks := by
  simp only [writeCall]
  split
  · rfl
  · split <;> rfl

theorem chunks_write (b : UInt8) (s : Script) : (s.write b).2.chunks = s.chunks := by
  have hfirst := chunks_writeCall b s
  rw [write]
  rcases hcall : s.writeCall b with ⟨result, s'⟩
  rw [hcall] at hfirst
  cases result with
  | ok _ => exact hfirst
  | error e =>
      simp only
      split
      · exact (chunks_writeCall b s').trans hfirst
      · exact hfirst

end Script

end TapeLang
