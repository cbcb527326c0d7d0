import Conform.Json.Location
import Conform.Text.Decimal
import Conform.Text.Occurrence

/-!
JSON pointers. A pointer is empty or a list of tokens, each after a slash; in a token `~1` stands for
a slash and `~0` for a tilde. What a token means is decided by the value it meets: the name of a
member in an object, a position in an array.
-/

set_option autoImplicit false

namespace Conform.Json.Pointer

def decodeToken (token : List Char) : List Char :=
  Text.contract '~' '0' '~' (Text.contract '~' '1' '/' token)

def encodeToken (name : List Char) : List Char :=
  name.flatMap fun c => if c = '~' then ['~', '0'] else if c = '/' then ['~', '1'] else [c]

/-- The tokens of a pointer. A pointer that is not empty starts with a slash. -/
def tokens? (path : List Char) : Option (List (List Char)) :=
  match path with
  | [] => some []
  | '/' :: rest => some ((Text.splitAt '/' rest).map decodeToken)
  | _ => none

/-- A position in plain digits: no sign, and no zero in front of another digit. The number needs no
bound of its own, since it has to be a position of the array it meets. -/
def position? (token : List Char) : Option Nat :=
  match token with
  | '0' :: _ :: _ => none
  | _ => Text.digits? token

/-- The step that a token takes in a value. -/
def step? (value : Json) (token : List Char) : Option Step :=
  match value with
  | .object _ => some (.member (String.ofList token))
  | .array _ => (position? token).map .item
  | _ => none

/-- The location that tokens lead to, if every step of it exists. -/
def locate? : Json → List (List Char) → Option Location
  | _, [] => some []
  | value, token :: rest => do
    let step ← step? value token
    let inner ← value.child? step
    return step :: (← locate? inner rest)

/-- The location that a pointer leads to in a value. -/
def resolve? (value : Json) (path : String) : Option Location :=
  (tokens? path.toList).bind (locate? value)

def ofStep : Step → List Char
  | .member name => '/' :: encodeToken name.toList
  | .item position => '/' :: (Nat.toDigits 10 position)

/-- The pointer written for a location. -/
def ofLocation (location : Location) : String :=
  String.ofList (location.flatMap ofStep)

end Conform.Json.Pointer
