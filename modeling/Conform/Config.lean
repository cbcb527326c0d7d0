import Conform.Text.Decimal

/-!
Where the model API is found and how requests to it are signed. The environment variables are read
once; a timeout that is not a 64-bit number counts as unset.
-/

set_option autoImplicit false

namespace Conform

structure Config where
  baseUrl : Option String := none
  token : Option String := none
  /-- In seconds. -/
  timeout : Nat := 30
  deriving DecidableEq, Repr

/-- The configuration that environment variables give. -/
def Config.ofEnvironment (lookup : String → Option String) : Config where
  baseUrl := lookup "BEHAVIOUR_SYNC_API_URL"
  token := lookup "BEHAVIOUR_SYNC_TOKEN"
  timeout :=
    ((lookup "BEHAVIOUR_SYNC_TIMEOUT").bind fun text => Text.unsigned? text.toList).getD 30

end Conform
