import TapeLang.Proofs.Source.Brackets
import TapeLang.Source.Printer

/-!
# A written program is read again

The text of a program has no operations but those that have a character: single moves, single
increments and decrements, inputs and outputs. `Program.spelled` is the program with these
operations in place of its own. Writing a program and reading the text gives it (`parse_source`).

A text that is read as a fixed beginning of a program, whatever follows the text, is one that
`ReadsAs` relates to that beginning. Texts of this kind can be put one after the other and between
brackets, and the texts of operations and programs are made in these two ways.
-/

set_option autoImplicit false

namespace TapeLang

/-! ## Spelling -/

namespace Program

/-- Some operations and then a program. -/
def sequence (ops : List Op) (rest : Program) : Program := ops.foldr .op rest

@[simp] theorem sequence_nil (rest : Program) : sequence [] rest = rest := rfl

@[simp] theorem sequence_cons (o : Op) (ops : List Op) (rest : Program) :
    sequence (o :: ops) rest = .op o (sequence ops rest) := rfl

theorem sequence_append (ops ops' : List Op) (rest : Program) :
    sequence (ops ++ ops') rest = sequence ops (sequence ops' rest) :=
  List.foldr_append

theorem sequence_append_program (ops : List Op) (p q : Program) :
    sequence ops p ++ q = sequence ops (p ++ q) := by
  induction ops with
  | nil => rfl
  | cons o ops ih => rw [sequence_cons, op_append, ih, sequence_cons]

theorem print_eq_ok_iff (p : Program) (source : String) :
    p.print = .ok source ↔ p.printOverflow? = none ∧ source = p.source := by
  rw [print]
  cases p.printOverflow? with
  | none => simp [eq_comm]
  | some e => simp

end Program

/-- The moves by one cell that lead as far as `distance` says. -/
def moveOps (distance : Int) : List Op := List.replicate distance.natAbs (.shift distance.sign)

/-- The increments or decrements by one that add an amount. -/
def amountOps (amount : Int8) : List Op :=
  List.replicate amount.toInt.natAbs (.add (if amount.toInt < 0 then -1 else 1) 0)

/-- The walk from the cell `here` over the entries of a table and back to the cell zero. -/
def tourOps (here : Int) : List (Int × Int8) → List Op
  | [] => moveOps (-here)
  | (offset, amount) :: rest => moveOps (offset - here) ++ amountOps amount ++ tourOps offset rest

/-- One round of the loop that stands for a multiplication. -/
def roundOps (entries : List (Int × Int8)) : List Op := .add (-1) 0 :: tourOps 0 entries

/-- A program with the single operations of an operation before it. -/
def Op.spelled (o : Op) (rest : Program) : Program :=
  match o with
  | .shift amount => .sequence (moveOps amount) rest
  | .add amount offset => .sequence (moveOps offset ++ amountOps amount ++ moveOps (-offset)) rest
  | .input => .op .input rest
  | .output => .op .output rest
  | .setZero => .loop (.sequence (roundOps []) .done) rest
  | .multiply factors => .loop (.sequence (roundOps factors.entries) .done) rest

/-- The program that the text of a program is read as. -/
def Program.spelled : Program → Program
  | .done => .done
  | .op o rest => o.spelled rest.spelled
  | .loop body rest => .loop body.spelled rest.spelled

theorem Op.spelled_append (o : Op) (p q : Program) : o.spelled p ++ q = o.spelled (p ++ q) := by
  cases o with
  | shift amount => exact Program.sequence_append_program _ p q
  | add amount offset => exact Program.sequence_append_program _ p q
  | input => rfl
  | output => rfl
  | setZero => rfl
  | multiply factors => rfl

/-! ## Reading -/

namespace Source

/-- A reading with its program changed. -/
def Reading.onProgram (f : Program → Program) (r : Reading) : Reading :=
  { r with program := f r.program }

/-- The text is read as this beginning of a program, whatever follows it. -/
def ReadsAs (text : List Char) (f : Program → Program) : Prop :=
  ∀ start rest, read start (text ++ rest) = (read (start + text.length) rest).onProgram f

namespace ReadsAs

variable {text text' : List Char} {f g : Program → Program}

theorem nil : ReadsAs [] id := fun _ _ => rfl

theorem append (h : ReadsAs text f) (h' : ReadsAs text' g) : ReadsAs (text ++ text') (f ∘ g) := by
  intro start rest
  rw [List.append_assoc, h, h', List.length_append, Nat.add_assoc]
  rfl

theorem char {c : Char} {o : Op} (h : Op.ofChar? c = some o) : ReadsAs [c] (.op o) := by
  intro start rest
  have hc : c ≠ ']' := by
    rintro rfl
    cases h
  have ho : c ≠ '[' := by
    rintro rfl
    cases h
  rw [List.singleton_append, read_cons]
  simp only [Reading.cons, h]
  rfl

/-- Between brackets stands the body of a loop. -/
theorem loop (h : ReadsAs text f) : ReadsAs ('[' :: (text ++ [']'])) (.loop (f .done)) := by
  intro start rest
  have hlength : start + 1 + text.length + 1 = start + ('[' :: (text ++ [']'])).length := by
    simp only [List.length_cons, List.length_append, List.length_nil]
    omega
  -- the closing bracket begins a body, to which the text is added, and the opening one completes it
  rw [List.cons_append, List.append_assoc, read_cons, h, List.singleton_append, read_cons, hlength]
  rfl

theorem replicate {c : Char} {o : Op} (h : Op.ofChar? c = some o) (n : Nat) :
    ReadsAs (List.replicate n c) (.sequence (List.replicate n o)) := by
  induction n with
  | zero => exact nil
  | succ n ih =>
      rw [List.replicate_succ, List.replicate_succ]
      exact (char h).append ih

theorem sequence_append {ops ops' : List Op} (h : ReadsAs text (.sequence ops))
    (h' : ReadsAs text' (.sequence ops')) :
    ReadsAs (text ++ text') (.sequence (ops ++ ops')) := by
  have heq : Program.sequence (ops ++ ops') = Program.sequence ops ∘ Program.sequence ops' :=
    funext (Program.sequence_append ops ops')
  rw [heq]
  exact h.append h'

end ReadsAs

theorem readsAs_moveChars (distance : Int) :
    ReadsAs (moveChars distance) (.sequence (moveOps distance)) := by
  rw [moveChars, moveOps]
  split
  next h =>
    rw [Int.sign_eq_neg_one_of_neg h]
    exact .replicate rfl _
  next h =>
    rcases Int.lt_or_eq_of_le (Int.not_lt.1 h) with hpos | rfl
    · rw [Int.sign_eq_one_of_pos hpos, show distance.natAbs = distance.toNat by omega]
      exact .replicate rfl _
    · exact .nil

theorem readsAs_amountChars (amount : Int8) :
    ReadsAs (amountChars amount) (.sequence (amountOps amount)) := by
  rw [amountChars, amountOps]
  split
  next => exact .replicate rfl _
  next h =>
    rw [show amount.toInt.natAbs = amount.toInt.toNat by omega]
    exact .replicate rfl _

theorem readsAs_tourChars (entries : List (Int × Int8)) : ∀ here,
    ReadsAs (tourChars here entries) (.sequence (tourOps here entries)) := by
  induction entries with
  | nil => exact fun here => readsAs_moveChars (-here)
  | cons e rest ih =>
      intro here
      obtain ⟨offset, amount⟩ := e
      have hfirst := (readsAs_moveChars (offset - here)).sequence_append
        (readsAs_amountChars amount)
      exact hfirst.sequence_append (ih offset)

theorem readsAs_opChars (o : Op) : ReadsAs o.chars o.spelled := by
  cases o with
  | shift amount => exact readsAs_moveChars amount
  | add amount offset =>
      have hthere := (readsAs_moveChars offset).sequence_append (readsAs_amountChars amount)
      exact hthere.sequence_append (readsAs_moveChars (-offset))
  | input => exact .char rfl
  | output => exact .char rfl
  | setZero => exact (ReadsAs.char rfl).loop
  | multiply factors =>
      exact ((ReadsAs.char rfl).append (readsAs_tourChars factors.entries 0)).loop

theorem readsAs_chars (p : Program) : ReadsAs p.chars (p.spelled ++ ·) := by
  induction p with
  | done => exact .nil
  | op o rest ih =>
      have heq : ((Program.op o rest).spelled ++ ·) = o.spelled ∘ (rest.spelled ++ ·) :=
        funext (Op.spelled_append o rest.spelled)
      rw [heq]
      exact (readsAs_opChars o).append ih
  | loop body rest ihbody ihrest =>
      have hbody := ihbody.loop
      simp only [Program.append_done] at hbody
      have happend := hbody.append ihrest
      rw [List.cons_append, List.append_assoc, List.singleton_append] at happend
      exact happend

/-- The text of a program is read as the program spelled out. -/
theorem parse_source (p : Program) : parse p.source = .ok p.spelled := by
  have hread := readsAs_chars p 0 []
  rw [List.append_nil, read_nil] at hread
  rw [parse, Program.source, String.toList_ofList, parseChars, hread]
  simp [Reading.onProgram, Reading.empty, Reading.errors]

end Source

end TapeLang
