import TapeLang.Machine.Session
import TapeLang.Proofs.Budget
import TapeLang.Proofs.Executed

/-!
# What a run takes from its input

A program that is run with its input in memory takes one byte at each input that it executes, and
zero when there are no bytes left. So an input is seen as if zeros without end came after its last
byte, and only as many of its bytes as the run executes inputs make a difference: another input with
the same bytes there gives the same run (`execute_input_use`). The end of the input and a zero byte
cannot be told apart by what the run leaves on the tape either, stored cells included.
-/

set_option autoImplicit false

namespace TapeLang

namespace Buffers

/-- The same output, and inputs that give the same next `n` bytes, with zeros after their ends. -/
structure AgreeFor (n : Nat) (a b : Buffers) : Prop where
  output_eq : a.output = b.output
  input_eq : ∀ i < n, a.input.getD i 0 = b.input.getD i 0

end Buffers

namespace Machine

/-! ## One input -/

/-- An input takes the first byte, and zero where there is none. -/
theorem readByte_buffers (a : Buffers) :
    readByte Buffers.device a = (.ok (a.input.getD 0 0), { a with input := a.input.drop 1 }) := by
  obtain ⟨input, output⟩ := a
  cases input with
  | nil => rfl
  | cons b rest => rfl

/-- For as many inputs as the bytes agree, nothing tells two inputs apart. -/
theorem parallel_buffers : Parallel Buffers.device Buffers.device Buffers.AgreeFor where
  input := by
    intro n a b h
    rw [readByte_buffers, readByte_buffers]
    refine ⟨congrArg Except.ok (h.input_eq 0 (Nat.zero_lt_succ n)), h.output_eq, ?_⟩
    -- the byte after the first `i + 1` is the one after `i` of what is left
    intro i hi
    have hnext := h.input_eq (1 + i) (by omega)
    simpa only [List.getD_eq_getElem?_getD, List.getElem?_drop] using hnext
  output := by
    intro n a b byte h
    exact ⟨rfl, congrArg (·.push byte) h.output_eq, h.input_eq⟩
  flush := fun h => ⟨rfl, h⟩

/-- An input takes one byte, and no other operation takes any. -/
theorem input_exec (o : Op) (s : State Buffers) :
    (exec Buffers.device o s).state.streams.input =
      s.streams.input.drop (if o = .input then 1 else 0) := by
  rw [streams_exec]
  cases o with
  | input => simp only [readByte_buffers, if_true]
  | _ => rfl

/-! ## Whole runs -/

/-- What a run shows when it has ended: how it has ended and after how many steps, the tape with its
stored cells, and the output. -/
def Run.visible (r : Run Buffers) : Except Fault Outcome × Tape × Array UInt8 :=
  (r.result, r.state.tape, r.state.streams.output)

/-- The number of inputs that a run executes. -/
def inputsOf (fuel : Nat) (limit : Option Nat) (p : Program) (input : List UInt8) : Nat :=
  inputCount (executed Buffers.device (limit.getD fuel) ⟨[p], .fresh (.ofInput input)⟩)

/-- Inputs that agree as far as a run on the first reads them. -/
theorem execute_of_agree {fuel : Nat} {limit : Option Nat} {p : Program} {x y : List UInt8}
    (h : ∀ i < inputsOf fuel limit p x, x.getD i 0 = y.getD i 0) :
    (execute fuel limit p y).map Run.visible = (execute fuel limit p x).map Run.visible := by
  have hstart : State.Parallel (Buffers.AgreeFor (inputsOf fuel limit p x))
      (State.fresh (Buffers.ofInput x)) (State.fresh (Buffers.ofInput y)) := ⟨rfl, rfl, h⟩
  have hparallel := run_parallel parallel_buffers fuel limit p hstart
  rw [execute, execute]
  generalize run Buffers.device fuel limit p (.fresh (.ofInput x)) = r,
    run Buffers.device fuel limit p (.fresh (.ofInput y)) = r' at hparallel ⊢
  cases hparallel with
  | none => rfl
  | some hrun =>
      simp only [Option.map_some, Run.visible, hrun.result_eq, hrun.state.tape_eq,
        hrun.state.streams.output_eq]

/-- A run leaves the input without one byte for each input that it has executed. -/
theorem input_of_execute {fuel : Nat} {limit : Option Nat} {p : Program} {x : List UInt8}
    {r : Run Buffers} (h : execute fuel limit p x = some r) :
    r.state.streams.input = x.drop (inputsOf fuel limit p x) := by
  have htaken := advance_invariant (D := Buffers.device)
    (P := fun acts s => s.streams.input = x.drop (inputCount acts))
    (fun {acts} o {s} hs => by
      rw [input_exec, hs, List.drop_drop, inputCount, inputCount, List.countP_append,
        List.countP_singleton]
      simp only [decide_eq_true_eq])
    (limit.getD fuel) [] 0 ⟨[p], .fresh (.ofInput x)⟩ rfl
  rw [List.nil_append] at htaken
  -- the flush at the end of the run takes nothing
  rw [state_of_run h]
  exact htaken

theorem getD_append_zeros (x : List UInt8) (n i : Nat) :
    (x ++ List.replicate n 0).getD i 0 = x.getD i 0 := by
  rw [List.getD_eq_getElem?_getD, List.getD_eq_getElem?_getD, List.getElem?_append]
  split
  next => rfl
  next hi =>
    rw [List.getElem?_replicate, List.getElem?_eq_none (Nat.le_of_not_lt hi)]
    split <;> rfl

/-- A run takes one byte for each input that it executes, and zero at the end. If it executes `k`
inputs and another input has the same first `k` bytes, both with zeros after their ends, then a run
on the other input ends in the same way after the same steps, with the same output and the same
tape, stored cells included; and it ends if and only if this one does. Zeros after the last byte
never make a difference. -/
theorem execute_input_use (fuel : Nat) (limit : Option Nat) (p : Program) (x : List UInt8) :
    (∀ y k, inputsOf fuel limit p x = k → (∀ i < k, x.getD i 0 = y.getD i 0) →
      (execute fuel limit p y).map Run.visible = (execute fuel limit p x).map Run.visible) ∧
    (∀ r, execute fuel limit p x = some r →
      r.state.streams.input = x.drop (inputsOf fuel limit p x)) ∧
    ∀ n, (execute fuel limit p (x ++ List.replicate n 0)).map Run.visible =
      (execute fuel limit p x).map Run.visible := by
  refine ⟨?_, fun r => input_of_execute, fun n => ?_⟩
  · rintro y k rfl hagree
    exact execute_of_agree hagree
  · apply execute_of_agree
    intro i _
    exact (getD_append_zeros x n i).symm

/-- Writes its input up to the first zero byte. -/
def copying : Program := .op .input (.loop (.op .output (.op .input .done)) .done)

/-- The one input ends where the other has a zero byte, and what comes after that is not read. -/
theorem execute_input_use_copying :
    inputsOf 10 none copying [65] = 2 ∧
      (∀ i < 2, ([65] : List UInt8).getD i 0 = [65, 0, 7].getD i 0) ∧
      (execute 10 none copying [65, 0, 7]).map Run.visible =
        some (.ok (.completed 5), ⟨#[0], 0⟩, #[65]) := by
  have hinputs : inputsOf 10 none copying [65] = 2 := by decide
  have hagree : ∀ i < 2, ([65] : List UInt8).getD i 0 = [65, 0, 7].getD i 0 := by decide
  obtain ⟨hsame, -, -⟩ := execute_input_use 10 none copying [65]
  exact ⟨hinputs, hagree, (hsame [65, 0, 7] 2 hinputs hagree).trans rfl⟩

end Machine

end TapeLang
