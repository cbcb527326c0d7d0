import Conform.Failure
import Conform.Patch.Basic

/-!
Sessions with a model API: a session asks for documents and sends patches, and each of its steps may
depend on the answers so far. Run against an API it gives its result, the requests it made in order
and the state the API is left in.
-/

set_option autoImplicit false

namespace Conform

inductive Request where
  | get (path : String)
  | patch (path : String) (changes : Patch)

def Request.path : Request → String
  | get path => path
  | patch path _ => path

/-- A model API with a state of its own. -/
structure Api (σ : Type) where
  get : String → σ → Except Failure Json × σ
  patch : String → Patch → σ → Except Failure Unit × σ

inductive Session (α : Type) where
  | done (result : α)
  | get (path : String) (next : Except Failure Json → Session α)
  | patch (path : String) (changes : Patch) (next : Except Failure Unit → Session α)

namespace Session

def run {α σ : Type} (api : Api σ) : Session α → σ → α × List Request × σ
  | done result, state => (result, [], state)
  | get path next, state =>
    let (answer, state) := api.get path state
    let (result, requests, state) := run api (next answer) state
    (result, .get path :: requests, state)
  | patch path changes next, state =>
    let (answer, state) := api.patch path changes state
    let (result, requests, state) := run api (next answer) state
    (result, .patch path changes :: requests, state)

end Session
end Conform
