import Conform.Text.Occurrence

/-!
Reading http URLs: the authority that a request goes to, and its target, which is the path and the
query. Paths lose their dot segments, a backslash is a slash, and characters that may not stand in a
target are percent-encoded byte by byte.
-/

set_option autoImplicit false

namespace Conform.Http

structure Url where
  authority : String
  target : String
  deriving DecidableEq, Repr

namespace Url

def hexDigit (n : Nat) : Char :=
  if n < 10 then Char.ofNat ('0'.toNat + n) else Char.ofNat ('A'.toNat + (n - 10))

def percent (byte : UInt8) : List Char :=
  ['%', hexDigit (byte.toNat / 16), hexDigit (byte.toNat % 16)]

/-- Percent-encodes the characters of a set, the control characters and all outside ASCII. -/
def encode (set : List Char) (cs : List Char) : List Char :=
  cs.flatMap fun c =>
    if c.toNat < 0x20 || 0x7F ≤ c.toNat || set.contains c then
      (String.singleton c).toUTF8.toList.flatMap percent
    else [c]

def pathSet : List Char := [' ', '"', '#', '<', '>', '?', '`', '\x7b', '\x7d']

def querySet : List Char := [' ', '"', '#', '<', '>', '\'']

def isSlash (c : Char) : Bool :=
  c = '/' || c = '\\'

/-- A segment as dots, where `%2e` is one of them: how many, if there is nothing else in it. -/
def dots? : List Char → Option Nat
  | [] => some 0
  | '.' :: rest => (dots? rest).map (· + 1)
  | '%' :: '2' :: 'e' :: rest => (dots? rest).map (· + 1)
  | '%' :: '2' :: 'E' :: rest => (dots? rest).map (· + 1)
  | _ => none

/-- The segments of a path without dot segments; those before are given reversed. -/
def segments (before : List (List Char)) : List (List Char) → List (List Char)
  | [] => before.reverse
  | segment :: rest =>
    let keep (before : List (List Char)) :=
      if rest.isEmpty then ([] :: before).reverse else segments before rest
    match dots? segment with
    | some 1 => keep before
    | some 2 => keep before.tail
    | _ => segments (encode pathSet segment :: before) rest

/-- The path that stands in a target; at least a slash. -/
def path (cs : List Char) : List Char :=
  match cs with
  | [] => ['/']
  | _ :: rest =>
    let slashed := rest.map fun c => if c = '\\' then '/' else c
    '/' :: ['/'].intercalate (segments [] (Text.splitAt '/' slashed))

/-- Drops the blanks and control characters that URLs are stripped of. -/
def strip (cs : List Char) : List Char :=
  let isEdge : Char → Bool := fun c => c.toNat ≤ 0x20
  (((cs.dropWhile isEdge).reverse.dropWhile isEdge).reverse).filter fun c =>
    c ≠ '\t' && c ≠ '\n' && c ≠ '\r'

/-- Reads a URL of the scheme http. -/
def ofText? (text : String) : Option Url := do
  let (scheme, rest) ← Text.cutFirst [':'] (strip text.toList)
  if scheme.map Char.toLower ≠ "http".toList then none
  let isEnd : Char → Bool := fun c => isSlash c || c = '?' || c = '#'
  let rest := rest.dropWhile isSlash
  let authority := rest.takeWhile (!isEnd ·)
  let rest := (rest.dropWhile (!isEnd ·)).takeWhile (· ≠ '#')
  let query :=
    match rest.dropWhile (· ≠ '?') with
    | [] => []
    | mark :: query => mark :: encode querySet query
  if authority.isEmpty then none
  return ⟨String.ofList authority, String.ofList (path (rest.takeWhile (· ≠ '?')) ++ query)⟩

end Url
end Conform.Http
