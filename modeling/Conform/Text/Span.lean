/-!
Spans of a text, counted in UTF-8 bytes. Reading a span gives the characters between its bounds; a
span that is reversed, leaves the text or cuts a character reads as the empty text.
-/

set_option autoImplicit false

namespace Conform

/-- A stretch of a text from the byte `start` up to, not including, the byte `stop`. -/
structure Span where
  start : Nat
  stop : Nat
  deriving DecidableEq, Repr

namespace Text

/-- The number of bytes of a text. -/
def bytes : List Char → Nat
  | [] => 0
  | c :: cs => c.utf8Size + bytes cs

/-- What follows the first bytes of a text, if no character is cut and the text is that long. -/
def dropBytes? : Nat → List Char → Option (List Char)
  | 0, cs => some cs
  | _ + 1, [] => none
  | n + 1, c :: cs =>
    if c.utf8Size ≤ n + 1 then dropBytes? (n + 1 - c.utf8Size) cs else none

/-- The first bytes of a text, if no character is cut and the text is that long. -/
def takeBytes? : Nat → List Char → Option (List Char)
  | 0, _ => some []
  | _ + 1, [] => none
  | n + 1, c :: cs =>
    if c.utf8Size ≤ n + 1 then (takeBytes? (n + 1 - c.utf8Size) cs).map (c :: ·) else none

def slice? (span : Span) (cs : List Char) : Option (List Char) :=
  if span.stop < span.start then none
  else (dropBytes? span.start cs).bind (takeBytes? (span.stop - span.start))

def slice (span : Span) (cs : List Char) : List Char :=
  (slice? span cs).getD []

end Text
end Conform
