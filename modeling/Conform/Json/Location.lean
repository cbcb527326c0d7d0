import Conform.Json.Basic

/-!
Locations inside a JSON value. A location is a list of steps, each into a member or to an array
position; a value is read at a location, and written there with everything else kept.
-/

set_option autoImplicit false

namespace Conform.Json

/-- One step down: into the member of a name, or to a position of an array. -/
inductive Step where
  | member (name : String)
  | item (position : Nat)
  deriving DecidableEq, Repr

abbrev Location := List Step

/-- The value one step down. -/
def child? : Json → Step → Option Json
  | object members, .member name => member? name members
  | array items, .item position => items[position]?
  | _, _ => none

/-- Puts a value one step down, where there is one already. -/
def setChild : Json → Step → Json → Json
  | object members, .member name, value => object (setMember name value members)
  | array items, .item position, value => array (items.set position value)
  | other, _, _ => other

/-- The value at a location. -/
def at? : Json → Location → Option Json
  | value, [] => some value
  | value, step :: rest => (value.child? step).bind (at? · rest)

/-- Puts a value at a location; without such a location nothing changes. -/
def put : Json → Location → Json → Json
  | _, [], new => new
  | value, step :: rest, new =>
    match value.child? step with
    | some inner => value.setChild step (put inner rest new)
    | none => value

end Conform.Json
