import TapeLang.Source.Parser
import TapeLang.Source.Position
import TapeLang.Text.Blank
import TapeLang.Text.Style

/-!
# Showing a bracket error

An error is shown on five lines: what is wrong, where, an empty line, the line of the source that
holds the bracket, and a caret under the bracket. Comments on the quoted line are dimmed, so that
the instructions stand out, and a tab is quoted as a space, so that the caret stays in place. At a
newline or past the end of the source the caret stands after the quoted line.
-/

set_option autoImplicit false

namespace TapeLang.Source

open TapeLang.Text

/-- A line without the carriage return at its end; the line is given backwards. -/
def dropReturn : List Char → List Char
  | '\r' :: line => line
  | line => line

/-- The lines of a text, the characters `current` of the first of them having been read, in reverse.
A newline, with a carriage return before it, ends a line and is no part of it. What follows the last
newline is a line if it is not empty. -/
def linesFrom (current : List Char) : List Char → List (List Char)
  | [] => if current.isEmpty then [] else [current.reverse]
  | c :: rest =>
      if c = '\n' then (dropReturn current).reverse :: linesFrom [] rest
      else linesFrom (c :: current) rest

/-- The lines of a text. -/
def lines (source : List Char) : List (List Char) := linesFrom [] source

/-- The line with a number, empty if there is none. -/
def line (source : List Char) (number : Nat) : List Char := ((lines source)[number - 1]?).getD []

/-- A character as it is quoted. -/
def quotedChar (c : Char) : Char := if c = '\t' then ' ' else c

/-- A quoted character, `marked` if the error is about it. -/
def quotedSpan (marked : Bool) (c : Char) : Span :=
  if marked then ⟨some .brightRedBold, [quotedChar c]⟩
  else if isInstruction (quotedChar c) || isBlank (quotedChar c) then ⟨none, [quotedChar c]⟩
  else ⟨some .dimmed, [quotedChar c]⟩

/-- A quoted line, with the error at a column. -/
def quotedSpans (text : List Char) (column : Nat) : List Span :=
  text.zipIdx.map fun e => quotedSpan (e.2 + 1 = column) e.1

/-- How far the caret stands from the start of a quoted line: the characters before the column are
counted. -/
def caretColumn (text : List Char) (column : Nat) : Nat :=
  text.zipIdx.countP fun e => e.2 + 1 < column

/-- An error, as it is shown to a reader of the source. -/
def excerpt (source : List Char) (name : Option String) (e : BracketError) : List Span :=
  let at' := lineColumn source e.index
  let number := toString at'.line
  let gutter := "".pushn ' ' number.length
  let text := line source at'.line
  [.styled .redBold "error", .plain ": ", .styled .bold e.message, .plain "\n",
    .plain gutter, .styled .blueBold "-->",
    .plain (" " ++ name.getD "<source>" ++ ":" ++ number ++ ":" ++ toString at'.column ++ "\n"),
    .plain (gutter ++ " "), .styled .blueBold "|", .plain "\n",
    .styled .blueBold number, .plain " ", .styled .blueBold "|", .plain " "] ++
  quotedSpans text at'.column ++
  [.plain "\n",
    .plain (gutter ++ " "), .styled .blueBold "|",
    .plain ("".pushn ' ' (caretColumn text at'.column + 1)), .styled .cyanBold "^ here",
    .plain "\n"]

/-- The text of an error, with or without the colours of a palette. -/
def renderErrorIn (palette : Palette) (colour : Bool) (source : String) (name : Option String)
    (e : BracketError) : String :=
  String.ofList (paint palette colour (excerpt source.toList name e))

/-- The text of an error, with or without colours. -/
def renderError (colour : Bool) (source : String) (name : Option String) (e : BracketError) :
    String :=
  renderErrorIn .standard colour source name e

end TapeLang.Source
