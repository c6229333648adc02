/-!
# The C statements of a generated program

Generated code uses a small part of C: a handful of statements on the array `tape` and the index
`p`, and blocks that are run while, or if, the current cell is not zero. A block of code is built
like a program, from the front. Each statement is one line, indented by one tab for every block
around it.
-/

set_option autoImplicit false

namespace TapeLang.CCode

/-- A statement that takes one line. -/
inductive Stmt where
  /-- Makes sure that the cell `n` exists. -/
  | reserve (n : Nat)
  /-- Makes sure that the cell `n` to the right of the pointer exists. -/
  | reserveAhead (n : Nat)
  /-- Ends the program if there are fewer than `n` cells to the left of the pointer. -/
  | checkLeft (n : Nat)
  /-- Moves the pointer to the left. -/
  | moveLeft (n : Nat)
  /-- Moves the pointer to the right. -/
  | moveRight (n : Nat)
  /-- Adds an amount to the cell at an offset. -/
  | add (offset : Int) (amount : Int8)
  /-- Adds the current cell times a factor to the cell at an offset. -/
  | addScaled (offset : Int) (factor : Int8)
  /-- Zeroes the current cell. -/
  | clear
  /-- Stores a byte of the input in the current cell, zero at the end of the input. -/
  | read
  /-- Writes the current cell. -/
  | write
  /-- Gives the tape back. -/
  | release
  /-- Ends the program. -/
  | finish
  deriving DecidableEq, Repr

/-- How a block is guarded. -/
inductive Guard where
  /-- Run while the current cell is not zero. -/
  | loop
  /-- Run once if the current cell is not zero. -/
  | once
  deriving DecidableEq, Repr

/-- A sequence of statements and guarded blocks. -/
inductive Block where
  | done
  | stmt (s : Stmt) (rest : Block)
  | guarded (g : Guard) (body rest : Block)
  deriving DecidableEq, Repr

/-- The cell at an offset from the pointer. -/
def cellText (offset : Int) : String :=
  if offset = 0 then "tape[p]"
  else if offset < 0 then "tape[p - " ++ toString offset.natAbs ++ "]"
  else "tape[p + " ++ toString offset.natAbs ++ "]"

/-- The assignment that adds or subtracts. -/
def addText (amount : Int8) : String := if amount.toInt < 0 then " -= " else " += "

/-- The current cell times the size of a factor. -/
def scaledText (factor : Int8) : String :=
  if factor.toInt.natAbs = 1 then "tape[p]" else "tape[p] * " ++ toString factor.toInt.natAbs

/-- The line of a statement. -/
def Stmt.text : Stmt → String
  | .reserve n => "reserve(" ++ toString n ++ ");"
  | .reserveAhead n => "reserve(p + " ++ toString n ++ ");"
  | .checkLeft n => "if (p < " ++ toString n ++ ") underflow();"
  | .moveLeft n => "p -= " ++ toString n ++ ";"
  | .moveRight n => "p += " ++ toString n ++ ";"
  | .add offset amount =>
      cellText offset ++ addText amount ++ toString amount.toInt.natAbs ++ ";"
  | .addScaled offset factor => cellText offset ++ addText factor ++ scaledText factor ++ ";"
  | .clear => "tape[p] = 0;"
  | .read => "tape[p] = read_byte();"
  | .write => "putchar(tape[p]);"
  | .release => "free(tape);"
  | .finish => "return 0;"

/-- The line that opens a guarded block. -/
def Guard.text : Guard → String
  | .loop => "while (tape[p]) \x7b"
  | .once => "if (tape[p]) \x7b"

/-- A line inside `depth` blocks. -/
def indented (depth : Nat) (text : String) : String := "".pushn '\t' depth ++ text

/-- The lines of a sequence inside `depth` blocks. -/
def Block.lines (depth : Nat) : Block → List String
  | .done => []
  | .stmt s rest => indented depth s.text :: rest.lines depth
  | .guarded g body rest =>
      indented depth g.text ::
        (body.lines (depth + 1) ++ indented depth "\x7d" :: rest.lines depth)

/-- The text of some lines, each ended by a newline. -/
def linesText (lines : List String) : String :=
  String.ofList (lines.flatMap fun l => l.toList ++ ['\n'])

end TapeLang.CCode
