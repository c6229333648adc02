/-!
# Positions in a source text

An index counts characters from zero. Its line and its column count from one: a newline ends a line
and belongs to the line it ends. An index past the end has the position of the end.
-/

set_option autoImplicit false

namespace TapeLang.Source

/-- A line and a column, both counted from one. -/
structure LineColumn where
  line : Nat
  column : Nat
  deriving DecidableEq, Repr

/-- The start of a text. -/
def LineColumn.start : LineColumn := ⟨1, 1⟩

/-- The position after a character. -/
def LineColumn.next (p : LineColumn) (c : Char) : LineColumn :=
  if c = '\n' then ⟨p.line + 1, 1⟩ else ⟨p.line, p.column + 1⟩

/-- The line and the column of an index. -/
def lineColumn (source : List Char) (index : Nat) : LineColumn :=
  (source.take index).foldl LineColumn.next .start

/-- The short form of an index. -/
def indexText (index : Nat) : String := "@" ++ toString index

end TapeLang.Source
