/-!
JSON values. An object is a list of named members and a member is found by its name, the first of
that name if there were two. Setting a member keeps the place of a name that is there and appends one
that is not, so a list without repeated names stays one.
-/

set_option autoImplicit false

namespace Conform

/-- A JSON value. A number is `whole`, or `scaled digits exponent` for digits times a power of ten. -/
inductive Json where
  | null
  | bool (value : Bool)
  | whole (value : Int)
  | scaled (digits exponent : Int)
  | string (value : String)
  | array (items : List Json)
  | object (members : List (String × Json))
  deriving Inhabited

namespace Json

/-- The whole numbers that are kept exactly: those of a signed or an unsigned 64-bit word. -/
def isWord (n : Int) : Bool :=
  -0x8000000000000000 ≤ n && n < 0x10000000000000000

def member? (name : String) : List (String × Json) → Option Json
  | [] => none
  | (key, value) :: rest => if key = name then some value else member? name rest

def setMember (name : String) (value : Json) : List (String × Json) → List (String × Json)
  | [] => [(name, value)]
  | (key, old) :: rest =>
    if key = name then (name, value) :: rest else (key, old) :: setMember name value rest

/-- The member of that name, if the value is an object that has one. -/
def get? : Json → String → Option Json
  | object members, name => member? name members
  | _, _ => none

def asString? : Json → Option String
  | string s => some s
  | _ => none

def asArray? : Json → Option (List Json)
  | array items => some items
  | _ => none

def ofStrings (items : List String) : Json :=
  array (items.map string)

end Json
end Conform
