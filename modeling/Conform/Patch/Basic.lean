import Conform.Json.Record

/-!
JSON patches: lists of operations, each of which puts a value at the place a pointer names.
-/

set_option autoImplicit false

namespace Conform

namespace Patch

inductive Kind where
  | replace
  | add
  deriving DecidableEq, Repr

structure Operation where
  kind : Kind
  path : String
  value : Json

def Kind.name : Kind → String
  | replace => "replace"
  | add => "add"

def Kind.ofName? (text : String) : Option Kind :=
  [replace, add].find? fun kind => kind.name == text

def Operation.toJson (operation : Operation) : Json :=
  .object [
    ("op", .string operation.kind.name),
    ("path", .string operation.path),
    ("value", operation.value)]

open Json in
def Operation.decode? {α : Type} [Form α] (form : α) : Option Operation := do
  match ← fields? ["op", "path", "value"] form with
  | [kind, path, value] =>
    return {
      kind := ← required? (choice? Kind.ofName?) kind
      path := ← required? string? path
      value := ← required? Form.value? value }
  | _ => none

/-- An operation that replaces what a pointer leads to. -/
def replaceAt (path : String) (value : Json) : Operation :=
  ⟨.replace, path, value⟩

end Patch

/-- Operations in the order in which they are to be carried out. -/
abbrev Patch := List Patch.Operation

def Patch.toJson (patch : Patch) : Json :=
  .array (List.map Operation.toJson patch)

def Patch.decode? {α : Type} [Json.Form α] (form : α) : Option Patch :=
  Json.list? Operation.decode? form

def Patch.paths (patch : Patch) : List String :=
  List.map Operation.path patch

end Conform
