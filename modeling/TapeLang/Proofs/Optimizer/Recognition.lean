import TapeLang.Proofs.Optimizer.Inventory

/-!
# Recognising loops

Two passes put an operation in place of a loop whose body they recognise. They are one traversal
(`recogniseLoops`) with different recognisers. Where an operation stands in a program, a loop that
is recognised as the operation can be written instead (`expand`), and recognition undoes this
(`recogniseLoops_expand`), provided that no loop of the program itself is recognised.
-/

set_option autoImplicit false

namespace TapeLang.Program

/-- The program with the operations of recognised loops in place of the loops, innermost first. -/
def recogniseLoops (recognise : Program → Option Op) : Program → Program
  | done => done
  | op o rest => op o (recogniseLoops recognise rest)
  | loop body rest =>
      match recognise (recogniseLoops recognise body) with
      | some o => op o (recogniseLoops recognise rest)
      | none => loop (recogniseLoops recognise body) (recogniseLoops recognise rest)

/-- The recogniser of clear loops. -/
def clear? (body : Program) : Option Op := if body.isClearBody then some .setZero else none

/-- The recogniser of multiply loops. -/
def transfer? (body : Program) : Option Op := body.factors?.map .multiply

/-- One sequence with the operations of recognised loops in place of the loops. -/
def recogniseHere (recognise : Program → Option Op) : Program → Program
  | done => done
  | op o rest => op o (recogniseHere recognise rest)
  | loop body rest =>
      match recognise body with
      | some o => op o (recogniseHere recognise rest)
      | none => loop body (recogniseHere recognise rest)

theorem clearHere_eq : clearHere = recogniseHere clear? := by
  funext p
  induction p with
  | done => rfl
  | op o rest ih => rw [clearHere, ih, recogniseHere]
  | loop body rest _ ih =>
      rw [clearHere, ih, recogniseHere, clear?]
      split <;> rfl

theorem multiplyHere_eq : multiplyHere = recogniseHere transfer? := by
  funext p
  induction p with
  | done => rfl
  | op o rest ih => rw [multiplyHere, ih, recogniseHere]
  | loop body rest _ ih =>
      rw [multiplyHere, ih, recogniseHere, transfer?]
      cases body.factors? <;> rfl

theorem everywhere_recogniseHere (recognise : Program → Option Op) (p : Program) :
    p.everywhere (recogniseHere recognise) = p.recogniseLoops recognise := by
  rw [everywhere]
  induction p with
  | done => rfl
  | op o rest ih => rw [mapBodies_op, recogniseHere, ih, recogniseLoops]
  | loop body rest ihbody ihrest =>
      rw [mapBodies_loop, recogniseHere, ihbody, ihrest, recogniseLoops]

theorem clearLoops_eq (p : Program) : p.clearLoops = p.recogniseLoops clear? := by
  rw [clearLoops, clearHere_eq, everywhere_recogniseHere]

theorem multiplyLoops_eq (p : Program) : p.multiplyLoops = p.recogniseLoops transfer? := by
  rw [multiplyLoops, multiplyHere_eq, everywhere_recogniseHere]

section Expand

variable {recognise : Program → Option Op}

/-- No loop of the program is recognised. -/
def Unrecognised (recognise : Program → Option Op) : Program → Prop
  | done => True
  | op _ rest => rest.Unrecognised recognise
  | loop body rest =>
      recognise body = none ∧ body.Unrecognised recognise ∧ rest.Unrecognised recognise

theorem recogniseLoops_eq_iff (p : Program) :
    p.recogniseLoops recognise = p ↔ p.Unrecognised recognise := by
  induction p with
  | done => simp [recogniseLoops, Unrecognised]
  | op o rest ih => simp [recogniseLoops, Unrecognised, ih]
  | loop body rest ihbody ihrest =>
      rw [Unrecognised, ← ihbody, ← ihrest, recogniseLoops]
      constructor
      · intro h
        split at h
        next => cases h
        next hnone =>
          injection h with hbody hrest
          rw [hbody] at hnone
          exact ⟨hnone, hbody, hrest⟩
      · rintro ⟨hnone, hbody, hrest⟩
        rw [hbody, hnone, hrest]

/-- The program with loops in place of some of its operations. -/
def expand (f : Op → Option Program) : Program → Program
  | done => done
  | op o rest =>
      match f o with
      | some body => loop body (expand f rest)
      | none => op o (expand f rest)
  | loop body rest => loop (expand f body) (expand f rest)

theorem expand_op_of_none {f : Op → Option Program} {o : Op} (h : f o = none) (rest : Program) :
    (op o rest).expand f = op o (rest.expand f) := by
  rw [expand, h]

theorem expand_op_of_some {f : Op → Option Program} {o : Op} {body : Program} (h : f o = some body)
    (rest : Program) : (op o rest).expand f = loop body (rest.expand f) := by
  rw [expand, h]

/-- Loops that are written for operations are recognised as these. -/
theorem recogniseLoops_expand {f : Op → Option Program} (test : Op → Bool)
    (hf : ∀ {o : Op} {body : Program}, test o = true → f o = some body →
      body.recogniseLoops recognise = body ∧ recognise body = some o)
    {p : Program} (htest : p.allOps test = true) (hp : p.Unrecognised recognise) :
    (p.expand f).recogniseLoops recognise = p := by
  induction p with
  | done => rfl
  | op o rest ih =>
      rw [allOps_op] at htest
      cases hbody : f o with
      | none => rw [expand_op_of_none hbody, recogniseLoops, ih htest.2 hp]
      | some body =>
          obtain ⟨hstays, hrecognised⟩ := hf htest.1 hbody
          rw [expand_op_of_some hbody, recogniseLoops, hstays, hrecognised, ih htest.2 hp]
  | loop body rest ihbody ihrest =>
      rw [allOps_loop] at htest
      obtain ⟨hnone, hbody, hrest⟩ := hp
      rw [expand, recogniseLoops, ihbody htest.1 hbody, ihrest htest.2 hrest, hnone]

end Expand

end TapeLang.Program
