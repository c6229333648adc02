import TapeLang.Program
import TapeLang.Word

/-!
# Writing a program as source text

Every operation has a text of instruction characters. A shift is a run of moves, an addition at an
offset walks there, changes the cell and walks back, and the two operations without a character of
their own are written as the loops that have their effect: `setZero` as a loop that counts down, and
`multiply` as a loop that counts down and visits the offsets of its table in ascending order.

Writing forms differences of offsets and runs of moves. `Program.printOverflow?` is the first
difference that leaves the word or run that has more characters than a word can count.
-/

set_option autoImplicit false

namespace TapeLang

/-- The moves from one cell to the one `distance` to the right. -/
def moveChars (distance : Int) : List Char :=
  if distance < 0 then List.replicate distance.natAbs '<' else List.replicate distance.toNat '>'

/-- The increments or decrements that add an amount. -/
def amountChars (amount : Int8) : List Char :=
  if amount.toInt < 0 then List.replicate amount.toInt.natAbs '-'
  else List.replicate amount.toInt.toNat '+'

/-- The walk from the cell `here` over the entries of a table and back to the cell zero. -/
def tourChars (here : Int) : List (Int × Int8) → List Char
  | [] => moveChars (-here)
  | (offset, amount) :: rest =>
      moveChars (offset - here) ++ amountChars amount ++ tourChars offset rest

/-- The text of an operation. -/
def Op.chars : Op → List Char
  | .shift amount => moveChars amount
  | .add amount offset => moveChars offset ++ amountChars amount ++ moveChars (-offset)
  | .input => [',']
  | .output => ['.']
  | .setZero => ['[', '-', ']']
  | .multiply factors => '[' :: '-' :: tourChars 0 factors.entries ++ [']']

namespace Program

/-- The text of a program. -/
def chars : Program → List Char
  | done => []
  | op o rest => o.chars ++ rest.chars
  | loop body rest => '[' :: (body.chars ++ ']' :: rest.chars)

/-- The text of a program, as a string. -/
def source (p : Program) : String := String.ofList p.chars

end Program

/-- The overflow of a run of moves. -/
def moveOverflow? (distance : Int) : Option Overflow :=
  if (distance.natAbs : Int) ≤ Word.greatest then none else some .capacity

/-- The first overflow of a walk from `here` over the entries of a table. The walk back has none: an
offset that was walked to can be walked back from. -/
def tourOverflow? (here : Int) : List (Int × Int8) → Option Overflow
  | [] => none
  | (offset, _) :: rest =>
      if Word.fits (offset - here) then
        moveOverflow? (offset - here) <|> tourOverflow? offset rest
      else some .subtraction

/-- The overflow that writing an operation meets. -/
def Op.printOverflow? : Op → Option Overflow
  | .shift amount => moveOverflow? amount
  | .add _ offset => moveOverflow? offset
  | .multiply factors => tourOverflow? 0 factors.entries
  | _ => none

namespace Program

/-- The first overflow that writing a program meets. -/
def printOverflow? : Program → Option Overflow
  | done => none
  | op o rest => o.printOverflow? <|> rest.printOverflow?
  | loop body rest => body.printOverflow? <|> rest.printOverflow?

/-- The text of a program, unless writing it overflows. -/
def print (p : Program) : Except Overflow String :=
  match p.printOverflow? with
  | none => .ok p.source
  | some e => .error e

end Program

end TapeLang
