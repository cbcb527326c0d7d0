/-!
Cutting a text at an occurrence of a pattern or of a character: what stands before it and what stands
after it. Joining the two parts around the pattern gives the text back.
-/

set_option autoImplicit false

namespace Conform.Text

/-- What follows the pattern at the start of a text. -/
def after? : List Char → List Char → Option (List Char)
  | [], cs => some cs
  | _ :: _, [] => none
  | p :: ps, c :: cs => if p = c then after? ps cs else none

/-- What precedes the pattern at the end of a text. -/
def before? (pattern cs : List Char) : Option (List Char) :=
  (after? pattern.reverse cs.reverse).map List.reverse

/-- Cuts a text around the first occurrence of a pattern. -/
def cutFirst (pattern : List Char) : List Char → Option (List Char × List Char)
  | [] => (after? pattern []).map ([], ·)
  | c :: cs =>
    match after? pattern (c :: cs) with
    | some rest => some ([], rest)
    | none => (cutFirst pattern cs).map fun (front, rest) => (c :: front, rest)

/-- Cuts a text around the last occurrence of a character. -/
def cutLast (mark : Char) (cs : List Char) : Option (List Char × List Char) :=
  (cutFirst [mark] cs.reverse).map fun (back, front) => (front.reverse, back.reverse)

/-- Replaces a two-character pattern by one character, from left to right. -/
def contract (first second into : Char) : List Char → List Char
  | [] => []
  | [c] => [c]
  | c :: d :: rest =>
    if c = first ∧ d = second then into :: contract first second into rest
    else c :: contract first second into (d :: rest)

/-- The pieces of a text between the occurrences of a character; never empty. -/
def splitAt (mark : Char) : List Char → List (List Char)
  | [] => [[]]
  | c :: cs =>
    if c = mark then [] :: splitAt mark cs
    else
      match splitAt mark cs with
      | [] => [[c]]
      | piece :: pieces => (c :: piece) :: pieces

end Conform.Text
