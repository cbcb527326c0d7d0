import Conform.Source.Course
import Conform.Source.Header

/-!
Outlines of C# sources: the declarations of a source in order, each with its header and its ending,
and with the comments and directives between them. A namespace or a type holds an outline of its
members; the bodies of all other declarations stay closed. A declaration whose semicolon is missing
ends where the next one begins.
-/

set_option autoImplicit false

namespace Conform.Source

/-- How a declaration goes on after its header. -/
inductive Ending where
  | semicolon
  /-- A value after `=`. -/
  | value
  /-- An expression after `=>`. -/
  | arrow
  | block (opening : Token) (inner : Forest) (closing : Option Token)

inductive Outline where
  | empty
  | comment (token : Token) (rest : Outline)
  | directive (token : Token) (rest : Outline)
  | declaration (header : Header) (ending : Ending) (members rest : Outline)

/-- A declaration under construction: its header so far, reversed, and its ending if the header is
complete. -/
structure Draft where
  reversed : Header := []
  ending : Option Ending := none

namespace Draft

def isEmpty (draft : Draft) : Bool :=
  draft.reversed.isEmpty && draft.ending.isNone

/-- Whether the header is that of a method, whose block holds code and no members. -/
def isMethod (draft : Draft) : Bool :=
  (Header.methodName? draft.reversed.reverse).isSome

/-- Puts a part of the row behind the draft. What follows the header is not kept. -/
def add (draft : Draft) (piece : Piece) : Draft :=
  match draft.ending with
  | some _ => draft
  | none =>
    if piece.isMark ";" then draft
    else if piece.isMark "=" && !Header.isUsing draft.reversed.reverse then
      { draft with ending := some .value }
    else if piece.isMark "=>" then { draft with ending := some .arrow }
    else { draft with reversed := piece :: draft.reversed }

/-- The declaration of a draft, with its members, before the rest of the outline. -/
def declare (draft : Draft) (ending : Ending) (members rest : Outline) : Outline :=
  .declaration draft.reversed.reverse (draft.ending.getD ending) members rest

/-- The declaration of a draft that no semicolon ends, if there is anything in it. -/
def close (draft : Draft) (rest : Outline) : Outline :=
  if draft.isEmpty then rest else draft.declare .semicolon .empty rest

end Draft

namespace Outline

/-- Reads on in a row of declarations, given its course and the declaration under construction. -/
def read (course : Course) (draft : Draft) : Forest → Outline
  | .empty => draft.close empty
  | .leaf token rest =>
    let step := course.step (Sign.ofToken token rest) rest
    let finish := if step.isCut then draft.close else id
    let draft := if step.isCut then {} else draft
    if step.isCovered then
      let draft := draft.add (.token token)
      if step.course.isReady then
        finish (draft.declare .semicolon empty (read step.course {} rest))
      else finish (read step.course draft rest)
    else
      match token.kind with
      | .comment => finish (comment token (read step.course draft rest))
      | .directive => finish (directive token (read step.course draft rest))
      | _ => finish (read step.course draft rest)
  | .group opening inner closing rest =>
    let step := course.step (Sign.ofGroup opening inner) rest
    let finish := if step.isCut then draft.close else id
    let draft := if step.isCut then {} else draft
    if step.course.isReady then
      finish (draft.declare (.block opening inner closing)
        (if step.inside = .members && !draft.isMethod then read { content := .members } {} inner
          else empty)
        (read step.course {} rest))
    else finish (read step.course (draft.add (.group opening inner.tokens closing)) rest)

def ofForest (forest : Forest) : Outline :=
  read { content := .members } {} forest

/-- The names of all namespaces. -/
def spaceNames : Outline → List String
  | empty => []
  | comment _ rest => rest.spaceNames
  | directive _ rest => rest.spaceNames
  | declaration header _ members rest =>
    (Header.spaceName? header).toList ++ members.spaceNames ++ rest.spaceNames

/-- The targets of all using directives. -/
def imports : Outline → List String
  | empty => []
  | comment _ rest => rest.imports
  | directive _ rest => rest.imports
  | declaration header ending members rest =>
    (match ending with
      | .semicolon => (Header.importTarget? header).toList
      | _ => []) ++ members.imports ++ rest.imports

end Outline
end Conform.Source
