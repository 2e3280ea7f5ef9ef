/-!
# Terminal styles

Text is painted by wrapping it in a pair of escape sequences. Whether anything is painted depends on
the `Appearance` of the output: minimal output never is.
-/

namespace Comet.Text

inductive Style
  | dim
  | bold
  | dimItalic
  | blue
  | green
  | red
  deriving DecidableEq, Repr

namespace Style

/-- The parameters of the escape sequence that turns a style on. -/
def codes : Style → String
  | dim => "2"
  | bold => "1"
  | dimItalic => "2;3"
  | blue => "34"
  | green => "32"
  | red => "31"

/-- Wraps text so that a terminal shows it in this style. -/
def paint (style : Style) (text : String) : String :=
  "\x1b[" ++ style.codes ++ "m" ++ text ++ "\x1b[0m"

end Style

/-- How output looks: minimal output is plain lists, any other is boxed and may be coloured. -/
structure Appearance where
  minimal : Bool := false
  color : Bool := false
  deriving DecidableEq, Repr

namespace Appearance

/-- Paints text if this appearance shows colours. -/
def paint (look : Appearance) (style : Style) (text : String) : String :=
  if look.color && !look.minimal then style.paint text else text

end Appearance

end Comet.Text
