/-!
# Styled text

A text with colours is a list of spans. Each span is plain or has one of six styles. With colours a
styled span is written between the escape sequence of its style and the one that ends all styles;
without colours every span is its text. The codes of the styles are those of a palette.
-/

set_option autoImplicit false

namespace TapeLang.Text

/-- A style. -/
inductive Style where
  | redBold
  | bold
  | blueBold
  | brightRedBold
  | dimmed
  | cyanBold
  deriving DecidableEq, Repr

/-- The codes of a style in an escape sequence. -/
def Style.codes : Style → String
  | .redBold => "1;31"
  | .bold => "1"
  | .blueBold => "1;34"
  | .brightRedBold => "1;91"
  | .dimmed => "2"
  | .cyanBold => "1;36"

/-- The codes of all styles. They are made of digits and semicolons. -/
structure Palette where
  codes : Style → String
  numeric : ∀ style, (codes style).toList.all (fun c => c.isDigit || c = ';') = true

/-- The six styles as terminals know them. -/
def Palette.standard : Palette where
  codes := Style.codes
  numeric style := by cases style <;> decide

/-- A text in one style, or in none. -/
structure Span where
  style : Option Style
  text : List Char
  deriving DecidableEq, Repr

namespace Span

/-- A text without a style. -/
def plain (text : String) : Span := ⟨none, text.toList⟩

/-- A text in a style. -/
def styled (style : Style) (text : String) : Span := ⟨some style, text.toList⟩

/-- The escape sequence with the given codes. -/
def escape (codes : String) : List Char := '\x1b' :: '[' :: (codes.toList ++ ['m'])

/-- A span as it is written. -/
def chars (palette : Palette) (colour : Bool) (s : Span) : List Char :=
  match s.style with
  | some style =>
      if colour then escape (palette.codes style) ++ s.text ++ escape "0" else s.text
  | none => s.text

end Span

/-- Some spans as they are written. -/
def paint (palette : Palette) (colour : Bool) (spans : List Span) : List Char :=
  spans.flatMap (Span.chars palette colour)

end TapeLang.Text
