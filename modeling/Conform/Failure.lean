import Conform.Refusal

/-!
What can go wrong between a source file and the model API, by cause, and the words for each cause.
-/

set_option autoImplicit false

namespace Conform

/-- A required element of a source or of a document is missing or has the wrong form. -/
inductive Fault where
  | noNamespace
  | manyNamespaces (count : Nat)
  | noMethod
  | expressionBody (method : String) (line : Nat)
  | missingTarget (path : String)
  | unsplitPath (path : String)
  | missingParent (path : String)
  | badPosition (path : String)
  | noContainer (path : String)
  | told (message : String)
  deriving DecidableEq, Repr

inductive Failure where
  | structural (fault : Fault)
  /-- A method name outside the closed list of a dialect. -/
  | unsupported (method : String)
  | unparsable (message : String)
  | refused (refusal : Refusal)
  /-- A request that was not sent, or an answer that did not arrive whole. -/
  | transport (message : String)
  /-- A text that is not the JSON expected of it. -/
  | serialization (message : String)
  | configuration (message : String)
  deriving DecidableEq, Repr

def Fault.message : Fault → String
  | noNamespace => "no namespace declaration found"
  | manyNamespaces count =>
    "expected exactly one namespace declaration, found " ++ count.repr
  | noMethod => "application behaviour file declares no method"
  | expressionBody method line =>
    "method `" ++ method ++ "` at line " ++ line.repr ++
      " has an expression body instead of a block"
  | missingTarget path => "patch target " ++ path ++ " does not exist"
  | unsplitPath path => "invalid patch path " ++ path
  | missingParent path => "patch parent " ++ path ++ " does not exist"
  | badPosition path => "invalid array index in " ++ path
  | noContainer path => "patch parent " ++ path ++ " is not a container"
  | told message => message

namespace Failure

def message : Failure → String
  | structural fault => "Structural error: " ++ fault.message
  | unsupported method => "Unsupported behaviour method `" ++ method ++ "`"
  | unparsable message => "Parser error: " ++ message
  | refused refusal => "Model API error: " ++ refusal.told
  | transport message => "Transport error: " ++ message
  | serialization message => "Serialization error: " ++ message
  | configuration message => "Configuration error: " ++ message

/-- The refusal of the model API, if it is one. -/
def refusal? : Failure → Option Refusal
  | refused refusal => some refusal
  | _ => none

/-- A failed request as a refusal: that of the model API, or the failure in words without a code. -/
def asRefusal : Failure → Refusal
  | refused refusal => refusal
  | failure => { message := failure.message }

end Failure
end Conform
