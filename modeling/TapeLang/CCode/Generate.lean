import TapeLang.CCode.Block
import TapeLang.Extent
import TapeLang.Log

/-!
# Generating C

A program becomes a C program with the same behaviour: the tape grows to the right on demand, moving
left of the first cell ends the program, and the end of the input reads as zero. Every change of a
cell to the left of the pointer is preceded by a check. The tape is reserved once, up to the highest
cell, if the program has one; otherwise it is reserved for the reach of the program after every move
to the right.
-/

set_option autoImplicit false

namespace TapeLang

namespace CCode

/-- The number of cells of a tape whose highest cell is not known. -/
def defaultLength : Nat := 30000

/-- The lines before the main function: the tape, its growth, the two ways to fail, and input. -/
def preamble : List String :=
  ["#include <stdio.h>",
    "#include <stdlib.h>",
    "#include <string.h>",
    "",
    "static unsigned char *tape;",
    "static size_t tape_len;",
    "static size_t p;",
    "",
    "static void reserve(size_t index)",
    "\x7b",
    "\tsize_t new_len;",
    "\tif (index < tape_len)",
    "\t\treturn;",
    "\tnew_len = tape_len * 2;",
    "\tif (new_len <= index)",
    "\t\tnew_len = index + 1;",
    "\ttape = realloc(tape, new_len);",
    "\tif (!tape) \x7b",
    "\t\tfputs(\"out of memory\\n\", stderr);",
    "\t\texit(1);",
    "\t\x7d",
    "\tmemset(tape + tape_len, 0, new_len - tape_len);",
    "\ttape_len = new_len;",
    "\x7d",
    "",
    "static void underflow(void)",
    "\x7b",
    "\tfflush(stdout);",
    "\tfputs(\"tape underflow: pointer moved left of the first cell\\n\", stderr);",
    "\texit(1);",
    "\x7d",
    "",
    "static unsigned char read_byte(void)",
    "\x7b",
    "\tint c = getchar();",
    "\treturn c == EOF ? 0 : (unsigned char)c;",
    "\x7d"]

/-- The check that the cell at an offset is not left of the first cell, where one is needed. -/
def checked (offset : Int) (rest : Block) : Block :=
  if offset < 0 then .stmt (.checkLeft offset.natAbs) rest else rest

/-- The additions of a factor table, in ascending order of their offsets. -/
def additions : List (Int × Int8) → Block
  | [] => .stmt .clear .done
  | (offset, factor) :: rest => .stmt (.addScaled offset factor) (additions rest)

end CCode

open CCode

/-- The code of an operation in front of other code. If `grow` is a number, that many cells to the
right of the pointer are reserved after every move to the right. -/
def Op.code (grow : Option Nat) : Op → Block → Block
  | .shift amount, rest =>
      if amount < 0 then checked amount (.stmt (.moveLeft amount.natAbs) rest)
      else
        .stmt (.moveRight amount.natAbs)
          (match grow with
          | some n => .stmt (.reserveAhead n) rest
          | none => rest)
  | .add amount offset, rest => checked offset (.stmt (.add offset amount) rest)
  | .input, rest => .stmt .read rest
  | .output, rest => .stmt .write rest
  | .setZero, rest => .stmt .clear rest
  | .multiply factors, rest =>
      match factors.least? with
      | none => .stmt .clear rest
      | some least => .guarded .once (checked least (additions factors.entries)) rest

/-- The code of a program in front of other code. -/
def Program.code (grow : Option Nat) : Program → Block → Block
  | .done, after => after
  | .op o rest, after => o.code grow (rest.code grow after)
  | .loop body rest, after => .guarded .loop (body.code grow .done) (rest.code grow after)

namespace CCode

/-- The body of the main function. -/
def mainBlock (p : Program) : Block :=
  let initial := max (p.highestCell?.getD (defaultLength - 1)) p.reach
  let grow := if p.highestCell?.isSome then none else some p.reach
  .stmt (.reserve initial) (p.code grow (.stmt .release (.stmt .finish .done)))

/-- The main function. -/
def mainLines (p : Program) : List String :=
  "int main(void)" :: "\x7b" :: ((mainBlock p).lines 1 ++ ["\x7d"])

/-- The text of the C program. -/
def text (p : Program) : String := linesText (preamble ++ "" :: mainLines p)

/-- A number that may be missing. -/
def optionText : Option Nat → String
  | some n => "Some(" ++ toString n ++ ")"
  | none => "None"

/-- What is reported about a generated program. -/
def report (p : Program) : Log.Record :=
  ⟨.debug, some "generating C",
    [("reach", .number p.reach), ("highest", .text (optionText p.highestCell?))]⟩

/-- The text of the C program and the report about it, unless the search for the highest cell leaves
the word. -/
def generate (p : Program) : Except Overflow (String × Log.Record) :=
  if p.highestFits 0 then .ok (text p, report p) else .error .addition

end CCode

end TapeLang
