import Conform.Behaviour
import Conform.Document
import Conform.Import
import Conform.Patch.Basic
import Conform.StateMachine

/-!
Patches that bring a model document in line with local records. They are sparse: a part is replaced
only when the local record has something for it, and nothing is ever removed.

A state machine is held as arrays, so its patch goes by position: the document's states and
transitions are visited in order and matched to local ones by name.
-/

set_option autoImplicit false

namespace Conform.Patch

/-- One replacement if there is anything to put in, none otherwise. -/
def replaceSome {α : Type} (path : String) (items : List α) (value : List α → Json) :
    List Operation :=
  if items.isEmpty then [] else [replaceAt path (value items)]

def importsJson (spaceName : String) (targets : List String) : Json :=
  .array (targets.map fun target => (Import.of target spaceName).toJson)

def behavioursJson (behaviours : List Behaviour) : Json :=
  .array (behaviours.map Behaviour.toJson)

/-- The two families of behaviours and the imports of an entity. -/
def ofEntity (entity : Entity) : Patch :=
  replaceSome "/entityBehaviours" entity.instanceBehaviours behavioursJson ++
  replaceSome "/dataBehaviours" entity.dataBehaviours behavioursJson ++
  replaceSome "/behaviourNamespaces" entity.imports (importsJson entity.spaceName)

/-- The expression and the imports of an application behaviour. -/
def ofApplication (application : Application) : Patch :=
  (if application.expression.isEmpty then []
    else [replaceAt "/expression" (.string application.expression)]) ++
  replaceSome "/behaviourNamespaces" application.imports (importsJson application.spaceName)

/-- The expressions of those transitions of a document that a local state knows. The transitions
given stand at `position` and after. -/
def ofTransitions (state : State) (statePath : String) (position : Nat) :
    List Json → List Operation
  | [] => []
  | found :: rest =>
    (match (Document.name? found).bind state.transition? with
      | some transition =>
        [replaceAt (statePath ++ "/transitions/" ++ position.repr ++ "/expression")
          (.string transition.expression)]
      | none => []) ++ ofTransitions state statePath (position + 1) rest

/-- What a local state says about the state that stands at a path of a document. -/
def ofState (state : State) (statePath : String) (found : Json) : List Operation :=
  replaceAt (statePath ++ "/assignToExpression") (.string state.assignTo) ::
  replaceSome (statePath ++ "/behaviours") state.behaviours Json.ofStrings ++
  (if state.transitions.isEmpty then []
    else ofTransitions state statePath 0 ((Document.items? found "transitions").getD []))

/-- The local state for a state of a document: the first of its name. -/
def match? (states : List State) (found : Json) : Option State :=
  (Document.name? found).bind fun name => states.find? (·.name = name)

/-- The states of a document that local states know; those given stand at `position` and after. -/
def ofStates (states : List State) (position : Nat) : List Json → List Operation
  | [] => []
  | found :: rest =>
    (match match? states found with
      | some state => ofState state ("/states/" ++ position.repr) found
      | none => []) ++ ofStates states (position + 1) rest

/-- The patch for a state machine, if the document has states at all. -/
def ofMachine? (states : List State) (document : Json) : Option Patch :=
  (Document.items? document "states").map (ofStates states 0)

end Conform.Patch
