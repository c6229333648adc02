import TapeLang.Program

/-!
# Reading a source text

A source text is a string of characters of which eight are instructions; every other character is a
comment. Reading goes from the last character to the first. A closing bracket starts the body that
the matching opening bracket will complete, so what has been read so far is always a program: the
part of the innermost open body that lies to the right of the current character.

A bracket without a partner is an error. All of them are reported, in the order of their positions:
unmatched closing brackets first, since every one of them stands to the left of every unmatched
opening bracket.
-/

set_option autoImplicit false

namespace TapeLang

/-- The two brackets. -/
inductive Bracket where
  | opening
  | closing
  deriving DecidableEq, Repr

/-- A bracket without a partner: which bracket, and the index of its character in the source. -/
structure BracketError where
  bracket : Bracket
  index : Nat
  deriving DecidableEq, Repr

/-- The wording of a bracket error. -/
def BracketError.message (e : BracketError) : String :=
  match e.bracket with
  | .opening => "this [ has no matching ]"
  | .closing => "this ] has no matching ["

/-- The operation that an instruction character other than a bracket stands for. -/
def Op.ofChar? : Char → Option Op
  | '+' => some (.add 1 0)
  | '-' => some (.add (-1) 0)
  | '>' => some (.shift 1)
  | '<' => some (.shift (-1))
  | ',' => some .input
  | '.' => some .output
  | _ => none

/-- The eight instruction characters. -/
def isInstruction (c : Char) : Bool := c = '[' || c = ']' || (Op.ofChar? c).isSome

namespace Source

/-- What a suffix of a source reads as: the program up to the first closing bracket without a
partner in the suffix, for each such bracket its index and the program between it and the next one,
and the indices of the opening brackets without a partner. -/
structure Reading where
  program : Program
  closings : List (Nat × Program)
  openings : List Nat

namespace Reading

/-- The empty suffix. -/
def empty : Reading := ⟨.done, [], []⟩

/-- The reading of a suffix that is one character longer, the character standing at `index`. -/
def cons (c : Char) (index : Nat) (r : Reading) : Reading :=
  match c with
  | ']' => ⟨.done, (index, r.program) :: r.closings, r.openings⟩
  | '[' =>
      match r.closings with
      | (_, after) :: closings => ⟨.loop r.program after, closings, r.openings⟩
      | [] => ⟨r.program, [], index :: r.openings⟩
  | c =>
      match Op.ofChar? c with
      | some o => ⟨.op o r.program, r.closings, r.openings⟩
      | none => r

/-- The brackets without a partner, closing ones first. -/
def errors (r : Reading) : List BracketError :=
  r.closings.map (fun e => ⟨.closing, e.1⟩) ++ r.openings.map (fun i => ⟨.opening, i⟩)

end Reading

/-- The reading of a list of characters, the first of which has the given index. -/
def read (start : Nat) (source : List Char) : Reading :=
  (source.zipIdx start).foldr (fun e r => r.cons e.1 e.2) .empty

/-- The program of a source text, or all of its brackets without a partner. -/
def parseChars (source : List Char) : Except (List BracketError) Program :=
  let r := read 0 source
  match r.errors with
  | [] => .ok r.program
  | errors => .error errors

/-- The program of a source text, or all of its brackets without a partner. -/
def parse (source : String) : Except (List BracketError) Program := parseChars source.toList

/-- The wording of a refused source. -/
def errorsMessage (errors : List BracketError) : String :=
  toString errors.length ++ " unbalanced bracket(s)"

end Source

end TapeLang
