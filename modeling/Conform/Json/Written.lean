import Conform.Json.Number

/-!
JSON text as written. Strings and numbers are kept as their characters and members as they come,
repeated names included, so that a part nobody asks for is never evaluated. Evaluation decodes escapes
and numbers, keeps the last of the members of one name, and refuses lone surrogates, numbers beyond
the range of a double and containers nested too deep.
-/

set_option autoImplicit false

namespace Conform.Json

/-- A JSON text read in outline. A container carries the number of containers around it. -/
inductive Written where
  | null
  | bool (value : Bool)
  | number (text : List Char)
  | string (text : List Char)
  | array (depth : Nat) (items : List Written)
  | object (depth : Nat) (members : List (List Char × Written))
  deriving Inhabited

/-- A container inside this many others is nested too deep to be evaluated. -/
def depthBound : Nat := 127

/-! ### Strings -/

def hexValue? (c : Char) : Option Nat :=
  if c.isDigit then some (c.toNat - '0'.toNat)
  else if 'a' ≤ c ∧ c ≤ 'f' then some (c.toNat - 'a'.toNat + 10)
  else if 'A' ≤ c ∧ c ≤ 'F' then some (c.toNat - 'A'.toNat + 10)
  else none

def hexUnit? (a b c d : Char) : Option Nat := do
  return (((← hexValue? a) * 16 + (← hexValue? b)) * 16 + (← hexValue? c)) * 16 + (← hexValue? d)

def shortEscape? : Char → Option Char
  | '"' => some '"'
  | '\\' => some '\\'
  | '/' => some '/'
  | 'b' => some '\x08'
  | 'f' => some '\x0c'
  | 'n' => some '\n'
  | 'r' => some '\r'
  | 't' => some '\t'
  | _ => none

/-- The character of a single UTF-16 unit. -/
def unitChar? (unit : Nat) : Option Char :=
  if 0xD800 ≤ unit ∧ unit ≤ 0xDFFF then none else some (Char.ofNat unit)

/-- The character of a surrogate pair. -/
def pairChar? (high low : Nat) : Option Char :=
  if 0xD800 ≤ high ∧ high ≤ 0xDBFF ∧ 0xDC00 ≤ low ∧ low ≤ 0xDFFF then
    some (Char.ofNat (0x10000 + (high - 0xD800) * 0x400 + (low - 0xDC00)))
  else none

/-- The characters that the inside of a string literal stands for. -/
def unescape? : List Char → Option (List Char)
  | [] => some []
  | '\\' :: 'u' :: a :: b :: c :: d :: '\\' :: 'u' :: e :: f :: g :: h :: rest => do
    let first ← hexUnit? a b c d
    match unitChar? first with
    | some char => return char :: (← unescape? ('\\' :: 'u' :: e :: f :: g :: h :: rest))
    | none => return (← pairChar? first (← hexUnit? e f g h)) :: (← unescape? rest)
  | '\\' :: 'u' :: a :: b :: c :: d :: rest => do
    return (← unitChar? (← hexUnit? a b c d)) :: (← unescape? rest)
  | '\\' :: c :: rest => do
    return (← shortEscape? c) :: (← unescape? rest)
  | '\\' :: [] => none
  | c :: rest => do
    return c :: (← unescape? rest)

/-! ### Values -/

mutual

def Written.value? : Written → Option Json
  | .null => some .null
  | .bool b => some (.bool b)
  | .number text => number? text
  | .string text => (unescape? text).map fun cs => .string (String.ofList cs)
  | .array depth items =>
    if depth < depthBound then (valueItems? items).map .array else none
  | .object depth members =>
    if depth < depthBound then (valueMembers? members).map fun ms =>
      .object (ms.foldl (fun done (name, value) => setMember name value done) [])
    else none

def valueItems? : List Written → Option (List Json)
  | [] => some []
  | item :: rest => do
    return (← item.value?) :: (← valueItems? rest)

def valueMembers? : List (List Char × Written) → Option (List (String × Json))
  | [] => some []
  | (name, value) :: rest => do
    return (String.ofList (← unescape? name), ← value.value?) :: (← valueMembers? rest)

end

end Conform.Json
