import Conform.Patch.Build
import Conform.Service.Session

/-!
Service calls: bringing the model definitions of one tenant and environment in line with local
records. A call fetches at most one document and sends at most one patch, never an empty one.
-/

set_option autoImplicit false

namespace Conform

/-- How a call went. -/
inductive Outcome where
  /-- A patch of that many operations was sent and accepted. -/
  | applied (operations : Nat)
  /-- There was nothing to change and nothing was sent. -/
  | unchanged
  /-- The document is missing or is not the expected one. -/
  | noMatchingMetadata
  | rejected (refusal : Refusal)
  deriving DecidableEq, Repr

def Outcome.isSuccess : Outcome → Bool
  | applied _ | unchanged => true
  | noMatchingMetadata | rejected _ => false

/-- The place where a service works. -/
structure Service where
  tenant : String
  environment : String := "PRD"
  deriving DecidableEq, Repr

/-- A local record and the name of the definition that it belongs to. -/
inductive Call where
  | application (entity : String) (record : Application)
  | states (entity : String) (record : List State)
  | entity (entity : String) (record : Entity)

namespace Service

def modelPath (service : Service) (suffix : String) : String :=
  "/api/v1/" ++ service.tenant ++ "/" ++ service.environment ++ "/model/" ++ suffix

/-- Sends a patch unless it is empty. -/
def send (path : String) (changes : Patch) : Session Outcome :=
  if changes.isEmpty then .done .unchanged
  else
    .patch path changes fun
      | .ok _ => .done (.applied changes.length)
      | .error failure => .done (.rejected failure.asRefusal)

/-- Goes on with a document, if it can be had. -/
def fetch (path : String) (next : Json → Session Outcome) : Session Outcome :=
  .get path fun
    | .ok document => next document
    | .error _ => .done .noMatchingMetadata

def replaceApplication (service : Service) (entity : String) (record : Application) :
    Session Outcome :=
  send (service.modelPath ("ApplicationBehaviour/" ++ entity)) (Patch.ofApplication record)

/-- The states of a machine are matched by name with those of the document, which has to have the
machine's name. -/
def replaceStates (service : Service) (entity : String) (record : List State) : Session Outcome :=
  let path := service.modelPath ("StateMachine/" ++ entity)
  fetch path fun document =>
    if !Document.isNamed document entity then .done .noMatchingMetadata
    else if record.isEmpty then .done .unchanged
    else
      match Patch.ofMachine? record document with
      | none => .done .noMatchingMetadata
      | some changes => send path changes

/-- The output definition of an entity tells the kind of definition to patch. -/
def replaceEntity (service : Service) (entity : String) (record : Entity) : Session Outcome :=
  fetch (service.modelPath ("output/definitions/" ++ entity)) fun document =>
    match Document.instanceOf? document with
    | none => .done .noMatchingMetadata
    | some kind => send (service.modelPath (kind ++ "/" ++ entity)) (Patch.ofEntity record)

/-- The session that carries out a call. -/
def session (service : Service) : Call → Session Outcome
  | .application entity record => service.replaceApplication entity record
  | .states entity record => service.replaceStates entity record
  | .entity entity record => service.replaceEntity entity record

end Service
end Conform
