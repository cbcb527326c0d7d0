import Conform.Json.Basic

/-!
Model documents as the model API holds them: JSON values of which only names, texts and arrays are
looked at. A document without the member asked for has none of it, whatever its shape.
-/

set_option autoImplicit false

namespace Conform.Document

/-- The text under a key. -/
def text? (document : Json) (key : String) : Option String :=
  (document.get? key).bind Json.asString?

/-- The array under a key. -/
def items? (document : Json) (key : String) : Option (List Json) :=
  (document.get? key).bind Json.asArray?

def name? (document : Json) : Option String :=
  text? document "name"

def isNamed (document : Json) (name : String) : Bool :=
  name? document == some name

/-- The kind of definition that an output definition is an instance of. -/
def instanceOf? (document : Json) : Option String :=
  text? document "instanceOf"

/-- The position of the first item of a name. -/
def position? (items : List Json) (name : String) : Option Nat :=
  items.findIdx? (isNamed · name)

end Conform.Document
