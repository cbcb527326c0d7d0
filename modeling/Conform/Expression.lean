import Conform.Text.Blank
import Conform.Text.Occurrence
import Conform.Text.Span

/-!
The code of a method body, in two forms. The trimmed form is everything between the outer braces
without surrounding blanks. The laid-out form keeps the layout of the statements: whole lines where a
statement has its line for itself, no more than the statements where it shares one with a brace.
-/

set_option autoImplicit false

namespace Conform.Expression

open Text

/-- What stands between the first `{` and the last `}`, trimmed; empty if the two are not in that
order. -/
def trimmed (block : List Char) : List Char :=
  match cutFirst ['\x7b'] block with
  | none => []
  | some (_, rest) =>
    match cutLast '\x7d' rest with
    | none => []
    | some (inner, _) => trim inner

/-- The byte after the first line feed of a text that starts at a byte. -/
def lineEnd? (start : Nat) (cs : List Char) : Option Nat :=
  (cutFirst ['\n'] cs).map fun (line, _) => start + bytes line + 1

/-- The span of the laid-out form. It starts after the first line end behind the opening brace and
stops after the first line end behind the statements, where there are such line ends before the
statements and before the closing brace. -/
def layout (source : List Char) (block statements : Span) : Span where
  start :=
    let first := block.start + 1
    (lineEnd? first (slice ⟨first, statements.start⟩ source)).getD statements.start
  stop := (lineEnd? statements.stop (slice ⟨statements.stop, block.stop - 1⟩ source)).getD
    statements.stop

/-- The statements of a block as laid out; empty for a block without statements. -/
def laidOut (source : List Char) (block : Span) : Option Span → List Char
  | none => []
  | some statements => slice (layout source block statements) source

end Conform.Expression
