import Conform.Json.Written

/-!
Reading JSON text. The grammar is strict: one value, surrounded by blanks of four kinds, without
trailing commas, comments, byte order marks or raw control characters.
-/

set_option autoImplicit false

namespace Conform.Json

def isGap (c : Char) : Bool :=
  c = ' ' || c = '\n' || c = '\r' || c = '\t'

def skipGap (cs : List Char) : List Char :=
  cs.dropWhile isGap

/-- The inside of a string literal whose opening quote has been read, and what follows the literal.
An escape has to have its form; what it stands for is not looked at. -/
def readString : List Char → Option (List Char × List Char)
  | [] => none
  | '"' :: rest => some ([], rest)
  | '\\' :: 'u' :: a :: b :: c :: d :: rest =>
    if (hexUnit? a b c d).isSome then
      (readString rest).map fun (inner, after) =>
        ('\\' :: 'u' :: a :: b :: c :: d :: inner, after)
    else none
  | '\\' :: c :: rest =>
    if (shortEscape? c).isSome then
      (readString rest).map fun (inner, after) => ('\\' :: c :: inner, after)
    else none
  | c :: rest =>
    if c.toNat < 0x20 then none
    else (readString rest).map fun (inner, after) => (c :: inner, after)

/-- One or more digits. -/
def readDigits (cs : List Char) : Option (List Char × List Char) :=
  let digits := cs.takeWhile Char.isDigit
  if digits.isEmpty then none else some (digits, cs.dropWhile Char.isDigit)

def readWhole : List Char → Option (List Char × List Char)
  | '0' :: rest => if (rest.head?.map Char.isDigit).getD false then none else some (['0'], rest)
  | cs => readDigits cs

def readFraction : List Char → Option (List Char × List Char)
  | '.' :: rest => (readDigits rest).map fun (digits, after) => ('.' :: digits, after)
  | cs => some ([], cs)

def readExponent : List Char → Option (List Char × List Char)
  | c :: rest =>
    if c = 'e' || c = 'E' then
      match rest with
      | '+' :: more => (readDigits more).map fun (digits, after) => (c :: '+' :: digits, after)
      | '-' :: more => (readDigits more).map fun (digits, after) => (c :: '-' :: digits, after)
      | _ => (readDigits rest).map fun (digits, after) => (c :: digits, after)
    else some ([], c :: rest)
  | [] => some ([], [])

def readNumber (cs : List Char) : Option (List Char × List Char) := do
  let (sign, cs) := match cs with | '-' :: rest => (['-'], rest) | _ => ([], cs)
  let (front, cs) ← readWhole cs
  let (fraction, cs) ← readFraction cs
  let (exponent, cs) ← readExponent cs
  return (sign ++ front ++ fraction ++ exponent, cs)

mutual

/-- A value at a given depth and what follows it. The first argument bounds the number of steps. -/
def readValue : Nat → Nat → List Char → Option (Written × List Char)
  | 0, _, _ => none
  | _, _, [] => none
  | fuel + 1, depth, c :: rest =>
    match c with
    | 'n' => match rest with
      | 'u' :: 'l' :: 'l' :: after => some (.null, after)
      | _ => none
    | 't' => match rest with
      | 'r' :: 'u' :: 'e' :: after => some (.bool true, after)
      | _ => none
    | 'f' => match rest with
      | 'a' :: 'l' :: 's' :: 'e' :: after => some (.bool false, after)
      | _ => none
    | '"' => (readString rest).map fun (text, after) => (.string text, after)
    | '[' => match skipGap rest with
      | ']' :: after => some (.array depth [], after)
      | inner => (readItems fuel depth inner).map fun (items, after) => (.array depth items, after)
    | '\x7b' => match skipGap rest with
      | '\x7d' :: after => some (.object depth [], after)
      | inner =>
        (readMembers fuel depth inner).map fun (members, after) => (.object depth members, after)
    | _ => (readNumber (c :: rest)).map fun (text, after) => (.number text, after)

/-- The items of an array up to its closing bracket; at least one. -/
def readItems : Nat → Nat → List Char → Option (List Written × List Char)
  | 0, _, _ => none
  | fuel + 1, depth, cs => do
    let (item, rest) ← readValue fuel (depth + 1) cs
    match skipGap rest with
    | ']' :: after => return ([item], after)
    | ',' :: more =>
      let (items, after) ← readItems fuel depth (skipGap more)
      return (item :: items, after)
    | _ => none

/-- The members of an object up to its closing brace; at least one. -/
def readMembers : Nat → Nat → List Char → Option (List (List Char × Written) × List Char)
  | 0, _, _ => none
  | fuel + 1, depth, cs =>
    match cs with
    | '"' :: more => do
      let (name, rest) ← readString more
      match skipGap rest with
      | ':' :: rest =>
        let (value, rest) ← readValue fuel (depth + 1) (skipGap rest)
        match skipGap rest with
        | '\x7d' :: after => return ([(name, value)], after)
        | ',' :: more =>
          let (members, after) ← readMembers fuel depth (skipGap more)
          return ((name, value) :: members, after)
        | _ => none
      | _ => none
    | _ => none

end

/-- Reads a text that is one JSON value. -/
def Written.ofText? (text : String) : Option Written := do
  let cs := text.toList
  let (value, rest) ← readValue (2 * cs.length + 2) 0 (skipGap cs)
  if (skipGap rest).isEmpty then some value else none

def ofText? (text : String) : Option Json :=
  (Written.ofText? text).bind Written.value?

end Conform.Json
