import Conform.Json.Record

/-!
Local state machines: states and their transitions, each known by name. Where a name occurs twice the
first counts.
-/

set_option autoImplicit false

namespace Conform

structure Transition where
  name : String
  expression : String := ""
  deriving DecidableEq, Repr

structure State where
  name : String
  assignTo : String := ""
  behaviours : List String := []
  transitions : List Transition := []
  deriving DecidableEq, Repr

/-- The first transition of a name. -/
def State.transition? (state : State) (name : String) : Option Transition :=
  state.transitions.find? (·.name = name)

def State.addBehaviour (state : State) (name : String) : State :=
  { state with behaviours := state.behaviours ++ [name] }

def State.addTransition (state : State) (transition : Transition) : State :=
  { state with transitions := state.transitions ++ [transition] }

def Transition.toJson (transition : Transition) : Json :=
  .object [("name", .string transition.name), ("expression", .string transition.expression)]

def State.toJson (state : State) : Json :=
  .object [
    ("name", .string state.name),
    ("assignToExpression", .string state.assignTo),
    ("behaviours", .ofStrings state.behaviours),
    ("transitions", .array (state.transitions.map Transition.toJson))]

section

variable {α : Type} [Json.Form α]
open Json

def Transition.decode? (form : α) : Option Transition := do
  match ← fields? ["name", "expression"] form with
  | [name, expression] =>
    return {
      name := ← required? string? name
      expression := ← orElse? "" string? expression }
  | _ => none

def State.decode? (form : α) : Option State := do
  match ← fields? ["name", "assignToExpression", "behaviours", "transitions"] form with
  | [name, assignTo, behaviours, transitions] =>
    return {
      name := ← required? string? name
      assignTo := ← orElse? "" string? assignTo
      behaviours := ← orElse? [] (list? string?) behaviours
      transitions := ← orElse? [] (list? Transition.decode?) transitions }
  | _ => none

end
end Conform
