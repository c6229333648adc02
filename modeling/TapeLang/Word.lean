/-!
# The machine word

Shift amounts, offsets and cell positions are integers that live in a signed word of 64 bits. The
definitions of this library compute with unbounded integers and say beside each computation whether
every integer it forms fits in a word (`Word.fits`). A computation that leaves the word is an
`Overflow`, never a wrapped result. A text or a tape that would have more places than the greatest
integer of a word is an `Overflow` too. Cells are bytes and wrap; they have nothing to do with words.
-/

set_option autoImplicit false

namespace TapeLang

namespace Word

/-- The least integer of a word. -/
def least : Int := -9223372036854775808

/-- The greatest integer of a word. -/
def greatest : Int := 9223372036854775807

/-- An integer that a word can hold. -/
def fits (n : Int) : Bool := decide (least ≤ n ∧ n ≤ greatest)

/-- The bounds that `fits` tests. -/
@[simp] theorem fits_iff (n : Int) : fits n = true ↔ least ≤ n ∧ n ≤ greatest := by
  simp [fits]

end Word

/-- What left the word. -/
inductive Overflow where
  /-- The sum of two integers. -/
  | addition
  /-- The difference of two integers. -/
  | subtraction
  /-- The number of places of a text or a tape. -/
  | capacity
  deriving DecidableEq, Repr

/-- The wording of an overflow. -/
def Overflow.message : Overflow → String
  | .addition => "attempt to add with overflow"
  | .subtraction => "attempt to subtract with overflow"
  | .capacity => "capacity overflow"

end TapeLang
