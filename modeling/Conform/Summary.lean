import Conform.Text.Blank
import Conform.Text.Line

/-!
Mining documentation comments. The lines of the comments, without their markers, form one text; of it
counts what the first summary element holds, or all of it if there is none. With the tags taken out,
the first line that is not blank is a name and the following ones are a description.
-/

set_option autoImplicit false

namespace Conform

/-- What documentation comments say about a method. -/
structure Summary where
  name : Option String := none
  description : String := ""
  deriving DecidableEq, Repr

namespace Summary

open Text

/-- A line of a block comment without its indentation and one gutter star. -/
def dropGutter (line : List Char) : List Char :=
  let inner := trimStart line
  (after? ['*'] inner).getD inner

/-- The lines of a comment without its markers. -/
def commentLines (comment : List Char) : List (List Char) :=
  let comment := trimStart comment
  match after? "///".toList comment with
  | some line => [line]
  | none =>
    let inner :=
      match after? "/**".toList comment with
      | some rest => (before? "*/".toList rest).getD rest
      | none => comment
    (lines inner).map dropGutter

/-- What the first summary element holds; an element that is not closed reaches to the end. -/
def element (body : List Char) : List Char :=
  match cutFirst "<summary>".toList body with
  | none => body
  | some (_, rest) =>
    match cutFirst "</summary>".toList rest with
    | none => rest
    | some (inner, _) => inner

/-- Takes out the tags: each stretch from a `<` to the nearest `>` after it. -/
def dropTags : List Char → List Char
  | [] => []
  | c :: cs =>
    if c = '<' then
      match cutFirst ['>'] cs with
      | some (_, _) => skipTag cs
      | none => c :: cs
    else c :: dropTags cs
where
  /-- Goes on behind the next `>`. -/
  skipTag : List Char → List Char
    | [] => []
    | c :: cs => if c = '>' then dropTags cs else skipTag cs

/-- The lines of a text that are not blank, trimmed. -/
def tidyLines (body : List Char) : List (List Char) :=
  ((lines body).map trim).filter (!·.isEmpty)

def ofLines : List (List Char) → Summary
  | [] => {}
  | first :: rest =>
    { name := some (String.ofList first)
      description := "\n".intercalate (rest.map String.ofList) }

/-- What raw comments say, the topmost first. -/
def ofComments (comments : List String) : Summary :=
  let body := ['\n'].intercalate (comments.flatMap fun comment => commentLines comment.toList)
  ofLines (tidyLines (dropTags (element body)))

end Summary
end Conform
