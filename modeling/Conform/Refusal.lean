import Conform.Json.Record

/-!
Refusals of the model API: the payload of a failed request. A refusal that lists faulty fields is
told by those, any other by its code and message.
-/

set_option autoImplicit false

namespace Conform

/-- One field that the model API found at fault. -/
structure FieldFault where
  name : String := ""
  message : String := ""
  deriving DecidableEq, Repr

/-- Why the model API refused a request. -/
structure Refusal where
  code : String := ""
  message : String := ""
  errors : List FieldFault := []
  deriving DecidableEq, Repr

def FieldFault.toJson (fault : FieldFault) : Json :=
  .object [("name", .string fault.name), ("message", .string fault.message)]

def FieldFault.told (fault : FieldFault) : String :=
  fault.name ++ " - " ++ fault.message

namespace Refusal

def toJson (refusal : Refusal) : Json :=
  .object [
    ("code", .string refusal.code),
    ("message", .string refusal.message),
    ("errors", .array (refusal.errors.map FieldFault.toJson))]

def told (refusal : Refusal) : String :=
  match refusal.errors with
  | [] => refusal.code ++ " - " ++ refusal.message
  | errors => "; ".intercalate (errors.map FieldFault.told)

/-- Whether anything but the code is said. -/
def isTelling (refusal : Refusal) : Bool :=
  !refusal.message.isEmpty || !refusal.errors.isEmpty

/-- The refusal made from a bare status: a denied access is called so, any other status by its
reason, or by its number if it has none. -/
def ofStatus (status : Nat) (reason : Option String) : Refusal where
  code := status.repr
  message := if status = 403 then "Access denied!" else reason.getD status.repr

end Refusal

section

variable {α : Type} [Json.Form α]
open Json

def FieldFault.decode? (form : α) : Option FieldFault := do
  match ← fields? ["name", "message"] form with
  | [name, message] =>
    return {
      name := ← orElse? "" string? name
      message := ← orElse? "" string? message }
  | _ => none

def Refusal.decode? (form : α) : Option Refusal := do
  match ← fields? ["code", "message", "errors"] form with
  | [code, message, errors] =>
    return {
      code := ← orElse? "" string? code
      message := ← orElse? "" string? message
      errors := ← orElse? [] (list? FieldFault.decode?) errors }
  | _ => none

end
end Conform
