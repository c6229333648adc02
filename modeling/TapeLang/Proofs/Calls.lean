import Mathlib.Logic.Relation
import TapeLang.Device

/-!
# The calls of a device

A machine touches its device in three ways: it reads, it writes a byte, and it flushes. `recorded D`
behaves as `D` and writes down each call, so the state of a machine on it shows which calls have
been made and in which order. `D.Later a b` says that some calls lead from the device state `a` to
the device state `b`; on a recorded device the calls of `a` are then a prefix of those of `b`
(`Later.calls_prefix`).
-/

set_option autoImplicit false

namespace TapeLang.Device

variable {σ : Type}

/-- A call of a device. -/
inductive Call where
  | read
  | write (b : UInt8)
  | flush
  deriving DecidableEq, Repr

/-- The state after a call, whether it fails or not. -/
def perform (D : Device σ) : Call → σ → σ
  | .read, s => (D.read s).2
  | .write b, s => (D.write b s).2
  | .flush, s => (D.flush s).2

/-- Some calls lead from the one state to the other. -/
abbrev Later (D : Device σ) : σ → σ → Prop :=
  Relation.ReflTransGen fun a b => ∃ call, b = D.perform call a

theorem later_perform (D : Device σ) (call : Call) (s : σ) : D.Later s (D.perform call s) :=
  Relation.ReflTransGen.single ⟨call, rfl⟩

/-- A device that writes down its calls, the latest at the end. -/
def recorded (D : Device σ) : Device (σ × List Call) where
  read := fun s => ((D.read s.1).1, (D.read s.1).2, s.2 ++ [.read])
  write := fun b s => ((D.write b s.1).1, (D.write b s.1).2, s.2 ++ [.write b])
  flush := fun s => ((D.flush s.1).1, (D.flush s.1).2, s.2 ++ [.flush])

theorem recorded_perform (D : Device σ) (call : Call) (s : σ × List Call) :
    (recorded D).perform call s = (D.perform call s.1, s.2 ++ [call]) := by
  cases call <;> rfl

theorem Later.calls_prefix {D : Device σ} {a b : σ × List Call} (h : (recorded D).Later a b) :
    a.2 <+: b.2 := by
  induction h with
  | refl => exact List.prefix_refl a.2
  | @tail b c _ hstep ih =>
      obtain ⟨call, rfl⟩ := hstep
      rw [recorded_perform]
      exact ih.trans (List.prefix_append b.2 [call])

end TapeLang.Device
