import Conform.Failure
import Conform.Json.Pointer
import Conform.Patch.Basic

/-!
Carrying out patches. Each operation either gives a new document or a fault and no change; a patch
carries its operations out in order and stops at the first fault, with the document that the
operations before it made.
-/

set_option autoImplicit false

namespace Conform.Patch

open Json

/-- Puts a value where a pointer leads, if it leads anywhere. -/
def replace (path : String) (value document : Json) : Except Fault Json :=
  match Pointer.resolve? document path with
  | some location => .ok (document.put location value)
  | none => .error (.missingTarget path)

/-- Inserts into an array or sets a member of an object. In an array `-` is the end, and a position
may not be past the end. `none` is a container of another kind or a position that does not fit. -/
def insertInto (parent : Json) (token : List Char) (value : Json) (path parentPath : String) :
    Except Fault Json :=
  match parent with
  | .array items =>
    if token = ['-'] then .ok (.array (items ++ [value]))
    else
      match (Text.unsigned? token).filter (· ≤ items.length) with
      | some position => .ok (.array (items.insertIdx position value))
      | none => .error (.badPosition path)
  | .object members => .ok (.object (setMember (String.ofList token) value members))
  | _ => .error (.noContainer parentPath)

/-- Inserts a value into the container that the pointer without its last token leads to. -/
def add (path : String) (value document : Json) : Except Fault Json :=
  match Text.cutLast '/' path.toList with
  | none => .error (.unsplitPath path)
  | some (front, token) =>
    let parentPath := String.ofList front
    match Pointer.resolve? document parentPath with
    | none => .error (.missingParent parentPath)
    | some location =>
      match document.at? location with
      | none => .error (.missingParent parentPath)
      | some parent =>
        (insertInto parent (Pointer.decodeToken token) value path parentPath).map
          (document.put location)

def Operation.apply (operation : Operation) (document : Json) : Except Fault Json :=
  match operation.kind with
  | .replace => replace operation.path operation.value document
  | .add => add operation.path operation.value document

/-- The document after a patch, and the fault it stopped at, if any. -/
def run : List Operation → Json → Json × Option Fault
  | [], document => (document, none)
  | operation :: rest, document =>
    match operation.apply document with
    | .ok next => run rest next
    | .error fault => (document, some fault)

/-- The document after a patch that meets no fault. -/
def apply (patch : List Operation) (document : Json) : Except Fault Json :=
  match run patch document with
  | (next, none) => .ok next
  | (_, some fault) => .error fault

end Conform.Patch
