import Conform.Json.Record

/-!
Behaviours: pieces of code bound to a hook of a model definition. Hooks fall into two families, those
of data access and those of an entity instance, and an entity keeps its behaviours apart by family.
-/

set_option autoImplicit false

namespace Conform

/-- The event a behaviour runs at. -/
inductive Hook where
  | create
  | update
  | delete
  | read
  | readList
  | initialization
  | beforeChange
  | afterChange
  | beforeSave
  | afterSave
  | action
  | formula
  | collectionInitialization
  deriving DecidableEq, Repr

namespace Hook

def name : Hook → String
  | create => "Create"
  | update => "Update"
  | delete => "Delete"
  | read => "Read"
  | readList => "ReadList"
  | initialization => "Initialize"
  | beforeChange => "BeforeChange"
  | afterChange => "AfterChange"
  | beforeSave => "BeforeSave"
  | afterSave => "AfterSave"
  | action => "Action"
  | formula => "Formula"
  | collectionInitialization => "BeforeCollectionEntityInitialize"

def all : List Hook :=
  [create, update, delete, read, readList, initialization, beforeChange, afterChange, beforeSave,
    afterSave, action, formula, collectionInitialization]

def ofName? (text : String) : Option Hook :=
  all.find? fun hook => hook.name == text

/-- Whether the hook belongs to data access. -/
def isData : Hook → Bool
  | create | update | delete | read | readList => true
  | _ => false

end Hook

/-- Code bound to a hook, and for some hooks to a target attribute. -/
structure Behaviour where
  name : String
  description : String
  expression : String
  hook : Hook
  target : Option String := none
  deriving DecidableEq, Repr

/-- What one entity or data-access file says. -/
structure Entity where
  spaceName : String
  behaviours : List Behaviour
  imports : List String
  deriving DecidableEq, Repr

/-- What one application file says. -/
structure Application where
  spaceName : String
  name : String
  description : String
  expression : String
  imports : List String
  deriving DecidableEq, Repr

def Entity.instanceBehaviours (entity : Entity) : List Behaviour :=
  entity.behaviours.filter (!·.hook.isData)

def Entity.dataBehaviours (entity : Entity) : List Behaviour :=
  entity.behaviours.filter (·.hook.isData)

def Hook.toJson (hook : Hook) : Json :=
  .string hook.name

def Hook.decode? {α : Type} [Json.Form α] (form : α) : Option Hook :=
  Json.choice? ofName? form

def Behaviour.toJson (behaviour : Behaviour) : Json :=
  .object <| [
    ("name", .string behaviour.name),
    ("description", .string behaviour.description),
    ("expression", .string behaviour.expression),
    ("type", behaviour.hook.toJson)] ++
    behaviour.target.toList.map fun target => ("attribute", .string target)

open Json in
def Behaviour.decode? {α : Type} [Form α] (form : α) : Option Behaviour := do
  match ← fields? ["name", "description", "expression", "type", "attribute"] form with
  | [name, description, expression, hook, target] =>
    return {
      name := ← required? string? name
      description := ← required? string? description
      expression := ← required? string? expression
      hook := ← required? Hook.decode? hook
      target := ← orElse? none (option? string?) target }
  | _ => none

end Conform
