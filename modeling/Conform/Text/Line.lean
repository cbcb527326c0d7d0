import Conform.Text.Occurrence

/-!
The lines of a text. A line ends at a line feed, and one carriage return right before that line feed
belongs to the line end; a carriage return anywhere else is a character of its line.
-/

set_option autoImplicit false

namespace Conform.Text

/-- Drops a carriage return from the end of a line. -/
def dropReturn (line : List Char) : List Char :=
  (before? ['\r'] line).getD line

/-- The stretches between line feeds as lines: nothing after the last line feed is no line. -/
def closeLines : List (List Char) → List (List Char)
  | [] => []
  | [last] => if last.isEmpty then [] else [last]
  | line :: next :: rest => dropReturn line :: closeLines (next :: rest)

def lines (cs : List Char) : List (List Char) :=
  closeLines (splitAt '\n' cs)

end Conform.Text
