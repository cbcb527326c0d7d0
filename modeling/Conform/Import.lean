import Conform.Json.Record
import Conform.Text.Occurrence

/-!
Custom imports as the model holds them. An import is named by its target without dots and runs where
the fourth segment of the importing file's namespace says, internally if there is no such segment.
-/

set_option autoImplicit false

namespace Conform

structure Import where
  name : String
  location : String
  target : String
  deriving DecidableEq, Repr

namespace Import

def defaultLocation : String := "Internal"

/-- The import of a target by a file of a namespace. -/
def of (target spaceName : String) : Import where
  name := String.ofList (target.toList.filter (· ≠ '.'))
  location := ((Text.splitAt '.' spaceName.toList)[3]?.map String.ofList).getD defaultLocation
  target := target

def toJson (entry : Import) : Json :=
  .object [
    ("name", .string entry.name),
    ("executionLocation", .string entry.location),
    ("fullyQualifiedName", .string entry.target)]

open Json in
def decode? {α : Type} [Form α] (form : α) : Option Import := do
  match ← fields? ["name", "executionLocation", "fullyQualifiedName"] form with
  | [name, location, target] =>
    return {
      name := ← required? string? name
      location := ← required? string? location
      target := ← required? string? target }
  | _ => none

end Import
end Conform
