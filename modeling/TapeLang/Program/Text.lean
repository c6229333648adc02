import TapeLang.Program

/-!
# Programs in words

Three texts of a program. The flat text names every operation with its fields and writes bodies in
place. The outline gives every operation of a loop a line of its own, two spaces deeper than the
loop. The summary is the flat text on one line with a shorter form of loops; the optimiser logs it.
-/

set_option autoImplicit false

namespace TapeLang

/-- The entries of a table, as `offset: factor`. -/
def Factors.entryTexts (t : Factors) : List String :=
  t.entries.map fun e => toString e.1 ++ ": " ++ toString e.2.toInt

/-- An operation with its fields. -/
def Op.text : Op → String
  | .shift amount => "Shift \x7b amount: " ++ toString amount ++ " \x7d"
  | .add amount offset =>
      "Add \x7b amount: " ++ toString amount.toInt ++ ", offset: " ++ toString offset ++ " \x7d"
  | .input => "Input"
  | .output => "Output"
  | .setZero => "SetZero"
  | .multiply factors =>
      "Multiply \x7b changes: \x7b" ++ ", ".intercalate factors.entryTexts ++ "\x7d \x7d"

namespace Program

/-- The flat text of each operation and loop of a sequence. -/
def flatTexts : Program → List String
  | done => []
  | op o rest => o.text :: flatTexts rest
  | loop body rest =>
      ("Loop \x7b body: [" ++ ", ".intercalate (flatTexts body) ++ "] \x7d") :: flatTexts rest

/-- The flat text of a program. -/
def flatText (p : Program) : String := "[" ++ ", ".intercalate p.flatTexts ++ "]"

/-- The lines of an outline at a given depth, two spaces per level. -/
def outlineLines (depth : Nat) : Program → List String
  | done => []
  | op o rest => ("".pushn ' ' (2 * depth) ++ o.text) :: outlineLines depth rest
  | loop body rest =>
      ("".pushn ' ' (2 * depth) ++ "Loop") ::
        (outlineLines (depth + 1) body ++ outlineLines depth rest)

/-- The outline of each operation and loop of a sequence. -/
def outlines : Program → List String
  | done => []
  | op o rest => o.text :: outlines rest
  | loop body rest => "\n".intercalate ("Loop" :: outlineLines 1 body) :: outlines rest

/-- The summary of each operation and loop of a sequence. -/
def summaryTexts : Program → List String
  | done => []
  | op o rest => o.text :: summaryTexts rest
  | loop body rest => ("Loop[" ++ ", ".intercalate (summaryTexts body) ++ "]") :: summaryTexts rest

/-- The program on one line. -/
def summary (p : Program) : String := ", ".intercalate p.summaryTexts

end Program

end TapeLang
