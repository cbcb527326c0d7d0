import Conform.Json.Written

/-!
Records in JSON. A record is decoded from an object, where members of unknown names are passed over
and a known name may stand only once, or from an array of its fields in order. A field may be left out
only if it has a default, and an array may not be longer than the record.

Decoding works alike on a JSON value and on a JSON text read in outline: it asks for one layer at a
time and never looks at what it passes over.
-/

set_option autoImplicit false

namespace Conform.Json

/-- The outermost layer of a value. `unreadable` is a layer that cannot be evaluated. -/
inductive Layer (α : Type) where
  | null
  | string (value : String)
  | array (items : List α)
  | object (members : List (String × α))
  | other
  | unreadable

/-- A form in which JSON values can be at hand. -/
class Form (α : Type) where
  layer : α → Layer α
  value? : α → Option Json

instance : Form Json where
  layer
    | .null => .null
    | .string s => .string s
    | .array items => .array items
    | .object members => .object members
    | .bool _ | .whole _ | .scaled _ _ => .other
  value? := some

def Written.names? : List (List Char × Written) → Option (List (String × Written))
  | [] => some []
  | (name, value) :: rest => do
    return (String.ofList (← unescape? name), value) :: (← names? rest)

def Written.layer : Written → Layer Written
  | .null => .null
  | .bool _ | .number _ => .other
  | .string text => ((unescape? text).map fun cs => .string (String.ofList cs)).getD .unreadable
  | .array depth items => if depth < depthBound then .array items else .unreadable
  | .object depth members =>
    if depth < depthBound then ((Written.names? members).map .object).getD .unreadable
    else .unreadable

instance : Form Written where
  layer := Written.layer
  value? := Written.value?

section

variable {α β : Type} [Form α]

def string? (form : α) : Option String :=
  match Form.layer form with
  | .string s => some s
  | _ => none

def list? (decode : α → Option β) (form : α) : Option (List β) :=
  match Form.layer form with
  | .array items => items.mapM decode
  | _ => none

/-- Decodes `null` as absent. -/
def option? (decode : α → Option β) (form : α) : Option (Option β) :=
  match Form.layer form with
  | .null => some none
  | _ => (decode form).map some

/-- A name out of a closed list: the name itself, or an object with `null` under the name. -/
def choice? (read : String → Option β) (form : α) : Option β :=
  match Form.layer form with
  | .string name => read name
  | .object [(name, inner)] =>
    match Form.layer inner with
    | .null => read name
    | _ => none
  | _ => none

/-- The one member of a name: nothing, the member, or failure if there are two. -/
def only? (name : String) (members : List (String × α)) : Option (Option α) :=
  match members.filter (·.1 = name) with
  | [] => some none
  | [(_, value)] => some (some value)
  | _ => none

/-- The fields of a record, in the order of their names: for each the form found for it, if any. -/
def fields? (names : List String) (form : α) : Option (List (Option α)) :=
  match Form.layer form with
  | .object members => names.mapM fun name => only? name members
  | .array items =>
    if items.length ≤ names.length then
      some (items.map some ++ List.replicate (names.length - items.length) none)
    else none
  | _ => none

/-- A field that has to be there. -/
def required? (decode : α → Option β) (field : Option α) : Option β :=
  field.bind decode

/-- A field that may be left out. -/
def orElse? (default : β) (decode : α → Option β) : Option α → Option β
  | some form => decode form
  | none => some default

end
end Conform.Json
