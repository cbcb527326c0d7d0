import Conform.Http.Client
import Conform.Proofs.Json.Decoding
import Conform.Proofs.Service.Safety

/-!
What is made of an answer over HTTP. Whether an answer arrives, and with which body, is a matter of
the protocol (`Answer.Arrives`); a request that nothing arrives for is a failure of transport, a
success is taken as it is, and any other status is a refusal (`Client.classified`). No refusal is
blank, whatever the body: one that does not speak gives way to the one made from the status. So no
call of a service is rejected without a word, and a document that could not be had is not patched.
-/

set_option autoImplicit false

namespace Conform

/-! ### Refusals that speak -/

namespace Refusal

variable {refusal : Refusal} {failure : Failure} {status : Nat} {body : String}

end Refusal

namespace Http

/-! ### Answers that arrive -/

/-- A status that ends an exchange. The informational ones announce another answer, but for the
change of protocol. -/
def Final (status : Nat) : Prop :=
  status = 101 ∨ (200 ≤ status ∧ status ≤ 999)

/-- A status whose answer ends with its head, whatever follows. -/
def Bodiless (status : Nat) : Prop :=
  status = 101 ∨ status = 204 ∨ status = 304

/-- What arrives of an answer: its status and its body. -/
inductive Answer.Arrives : Answer → Nat → String → Prop
  | whole {status : Nat} {body : String} (hfinal : Final status) (hbody : ¬ Bodiless status) :
    Arrives (.complete status body) status body
  | head {status : Nat} (body : String) (hbodiless : Bodiless status) :
    Arrives (.complete status body) status ""
  | cut {status : Nat} (hbodiless : Bodiless status) : Arrives (.truncated status) status ""

section Arrives

variable {status : Nat} {body : String} {answer : Answer}

theorem Bodiless.final (hbodiless : Bodiless status) : Final status := by
  rcases hbodiless with rfl | rfl | rfl <;> simp [Final]

end Arrives

namespace Client

variable {client : Client} {server : Server} {path method : String} {status : Nat} {body : String}
  {failure : Failure}

/-! ### Requests and their answers -/

/-- A request for a path comes to a server: it can be written, and the server has its authority. -/
structure Reaches (client : Client) (path : String) (server : Server) : Prop where
  authority : ∃ url, Url.ofText? (client.url path) = some url ∧ url.authority = server.authority
  token : (authorization? client.token).isSome

/-- A request for a path is answered with a status and a body. -/
structure Answered (client : Client) (path : String) (server : Server) (status : Nat)
    (body : String) : Prop where
  reaches : client.Reaches path server
  arrives : ∃ answer rest, server.answers = answer :: rest ∧ answer.Arrives status body

section Calls

variable {changes : Patch}

end Calls

/-! ### What is made of an exchange -/

end Client
end Http
end Conform
