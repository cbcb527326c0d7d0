import Conform.Config
import Conform.Http.Status
import Conform.Http.Url
import Conform.Json.Reader
import Conform.Service.Session
import Conform.Text.Blank

/-!
The model API over HTTP. A request is sent to the base URL joined with its path by one slash, with the
token as a bearer. An answer with a success status is taken as it is; any other status is a refusal,
that of its body if this tells anything, else the one made from the status. A failure below the client
is told with what is said of it there (`Complaints`).
-/

set_option autoImplicit false

namespace Conform.Http

/-- A request as it goes over the wire. -/
structure Message where
  method : String
  target : String
  authorization : Option String
  contentType : Option String
  body : Option Json

/-- What comes back for a request. -/
inductive Answer where
  /-- The connection closes without an answer. -/
  | dropped
  /-- The body ends before its announced length. -/
  | truncated (status : Nat)
  | complete (status : Nat) (body : String)
  deriving DecidableEq, Repr

/-- What is said of a failure below the client, in words that are not the client's own. -/
structure Complaints where
  /-- Of a request to a URL that was not sent or not answered. -/
  ofRequest : String → String
  /-- Of an answer from a URL that broke off. -/
  ofAnswer : String → String
  /-- Of a text that is no JSON. -/
  ofText : String → String

structure Client where
  /-- Without slashes at its end. -/
  baseUrl : String
  token : Option String
  complaints : Complaints

/-- The server at the other end: its authority, its answers to come, and the requests it has read. -/
structure Server where
  authority : String
  answers : List Answer
  received : List Message := []

namespace Client

def ofConfig (complaints : Complaints) (config : Config) : Except Failure Client :=
  match config.baseUrl with
  | none => .error (.configuration "model API base URL is not set")
  | some url =>
    .ok ⟨String.ofList (url.toList.reverse.dropWhile (· = '/')).reverse, config.token, complaints⟩

def url (client : Client) (path : String) : String :=
  client.baseUrl ++ "/" ++ String.ofList (path.toList.dropWhile (· = '/'))

/-- Whether a character may stand in a header: no control character but the tab. -/
def isHeaderChar (c : Char) : Bool :=
  c = '\t' || (0x20 ≤ c.toNat && c.toNat ≠ 0x7F)

/-- The header that a token gives; no request carries a token that no header can hold. -/
def authorization? : Option String → Option (Option String)
  | none => some none
  | some token =>
    if token.toList.all isHeaderChar then
      some (some (String.ofList (Text.trimEnd ("Bearer " ++ token).toList)))
    else none

/-- The failure of a request that could not be sent or was not answered. -/
def unanswered (client : Client) (path : String) : Failure :=
  .transport ("HTTP request failed: " ++ client.complaints.ofRequest (client.url path))

/-- The failure of an answer that broke off. -/
def brokenOff (client : Client) (path : String) : Failure :=
  .transport ("Failed to read response: " ++ client.complaints.ofAnswer (client.url path))

/-- The refusal that an answer without success is. -/
def refusalOf (status : Nat) (body : String) : Refusal :=
  match ((Json.Written.ofText? body).bind Refusal.decode?).filter Refusal.isTelling with
  | some refusal => refusal
  | none => Refusal.ofStatus status (reason? status)

/-- The body of an answer, or why there is none. An interim answer is none: the connection closes
before the final one. -/
def bodyOf (client : Client) (path : String) : Answer → Except Failure String
  | .dropped => .error (client.unanswered path)
  | .truncated status =>
    if !isFinal status then .error (client.unanswered path)
    else if isBodiless status then accept status ""
    else .error (client.brokenOff path)
  | .complete status body =>
    if !isFinal status then .error (client.unanswered path)
    else accept status (if isBodiless status then "" else body)
where
  accept (status : Nat) (body : String) : Except Failure String :=
    if isSuccess status then .ok body else .error (.refused (refusalOf status body))

/-- Sends a request and waits for its answer. -/
def exchange (client : Client) (method path : String) (body : Option Json) (server : Server) :
    Except Failure String × Server :=
  match Url.ofText? (client.url path), authorization? client.token with
  | some url, some authorization =>
    if url.authority ≠ server.authority then (.error (client.unanswered path), server)
    else
      let message : Message :=
        ⟨method, url.target, authorization, body.map fun _ => "application/json", body⟩
      let server := { server with received := server.received ++ [message] }
      match server.answers with
      | [] => (.error (client.unanswered path), server)
      | answer :: answers => (client.bodyOf path answer, { server with answers := answers })
  | _, _ => (.error (client.unanswered path), server)

def get (client : Client) (path : String) (server : Server) : Except Failure Json × Server :=
  let (body, server) := client.exchange "GET" path none server
  (body.bind fun text =>
    match Json.ofText? text with
    | some value => .ok value
    | none => .error (.serialization (client.complaints.ofText text)), server)

def patch (client : Client) (path : String) (changes : Patch) (server : Server) :
    Except Failure Unit × Server :=
  let (body, server) := client.exchange "PATCH" path (some changes.toJson) server
  (body.map fun _ => (), server)

def api (client : Client) : Api Server where
  get := client.get
  patch := client.patch

end Client
end Conform.Http
