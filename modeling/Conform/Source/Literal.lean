/-!
The extent of character and string literals in C# source. A literal is followed with a stack of
frames, since code inside an interpolation may hold literals of its own; the literal ends where its
last frame is left. One pass looks at each character once, so the extent never exceeds the source.
-/

set_option autoImplicit false

namespace Conform.Source

/-- What the next character stands in. -/
inductive Frame where
  /-- A character literal. -/
  | character
  /-- A string where a backslash escapes; `holes` if braces open interpolations. -/
  | plain (holes : Bool)
  /-- A string where a quote is written twice. -/
  | doubled (holes : Bool)
  /-- A string that as many quotes end as opened it, and where the last `braces` of a row of braces
  open an interpolation, none if that is zero. The last two fields count the quotes and braces just
  seen. -/
  | fenced (quotes braces quotesSeen bracesSeen : Nat)
  /-- Code in an interpolation, inside `opened` brackets of its own, which as many as `braces`
  braces close. `format` tells that a format specification has begun. -/
  | hole (opened braces : Nat) (format : Bool)
  | lineNote
  | blockNote
  deriving DecidableEq, Repr

/-- The frame of a string that starts here, with the length of its opening mark. -/
def opening? (cs : List Char) : Option (Frame × Nat) :=
  let dollars := (cs.takeWhile (· = '$')).length
  let rest := cs.dropWhile (· = '$')
  let quotes := (rest.takeWhile (· = '"')).length
  match rest with
  | '@' :: '$' :: '"' :: _ => some (.doubled true, dollars + 3)
  | '@' :: '"' :: _ => some (.doubled (dollars != 0), dollars + 2)
  | '"' :: _ =>
    if 3 ≤ quotes then some (.fenced quotes dollars 0 0, dollars + quotes)
    else some (.plain (dollars != 0), dollars + 1)
  | _ => none

/-- The frames after a brace that closes an interpolation or one of the braces closing it. -/
def closeHole (braces : Nat) (format : Bool) (outer : List Frame) : List Frame :=
  if braces ≤ 1 then outer else .hole 0 (braces - 1) format :: outer

/-- The frames after a character of the code in an interpolation, and how many of the characters
after it belong to it. -/
def advanceHole (opened braces : Nat) (outer : List Frame) (c : Char) (rest : List Char) :
    List Frame × Nat :=
  let stay (opened : Nat) : List Frame := .hole opened braces false :: outer
  if c = '(' || c = '[' || c = '\x7b' then (stay (opened + 1), 0)
  else if c = ')' || c = ']' then (stay (opened - 1), 0)
  else if c = '\x7d' then
    if opened = 0 then (closeHole braces false outer, 0) else (stay (opened - 1), 0)
  else if c = ':' && opened = 0 then
    match rest with
    | ':' :: _ => (stay opened, 1)
    | _ => (.hole opened braces true :: outer, 0)
  else if c = '\'' then (.character :: stay opened, 0)
  else
    match c, rest with
    | '/', '/' :: _ => (.lineNote :: stay opened, 1)
    | '/', '*' :: _ => (.blockNote :: stay opened, 1)
    | _, _ =>
      match opening? (c :: rest) with
      | some (frame, length) => (frame :: stay opened, length - 1)
      | none => (stay opened, 0)

/-- The frames after a character, and how many of the characters after it belong to it. -/
def advance (frame : Frame) (outer : List Frame) (c : Char) (rest : List Char) :
    List Frame × Nat :=
  let next := rest.head?
  match frame with
  | .character =>
    if c = '\\' then (frame :: outer, 1) else if c = '\'' then (outer, 0) else (frame :: outer, 0)
  | .plain holes =>
    if c = '\\' then (frame :: outer, 1)
    else if c = '"' then (outer, 0)
    else if holes && c = '\x7b' then
      if next = some '\x7b' then (frame :: outer, 1) else (.hole 0 1 false :: frame :: outer, 0)
    else (frame :: outer, 0)
  | .doubled holes =>
    if c = '"' then if next = some '"' then (frame :: outer, 1) else (outer, 0)
    else if holes && c = '\x7b' then
      if next = some '\x7b' then (frame :: outer, 1) else (.hole 0 1 false :: frame :: outer, 0)
    else (frame :: outer, 0)
  | .fenced quotes braces quotesSeen bracesSeen =>
    if c = '"' then
      if quotesSeen + 1 = quotes then (outer, 0)
      else (.fenced quotes braces (quotesSeen + 1) 0 :: outer, 0)
    else if c = '\x7b' && braces != 0 then
      if braces ≤ bracesSeen + 1 && next ≠ some '\x7b' then
        (.hole 0 braces false :: .fenced quotes braces 0 0 :: outer, 0)
      else (.fenced quotes braces 0 (bracesSeen + 1) :: outer, 0)
    else (.fenced quotes braces 0 0 :: outer, 0)
  | .hole opened braces true =>
    if c = '\x7d' then (closeHole braces true outer, 0)
    else (.hole opened braces true :: outer, 0)
  | .hole opened braces false => advanceHole opened braces outer c rest
  | .lineNote => if c = '\n' then (outer, 0) else (frame :: outer, 0)
  | .blockNote => if c = '*' && next = some '/' then (outer, 1) else (frame :: outer, 0)

/-- The number of characters up to where the last frame is left; the first `skip` are passed over. -/
def literalLength (frames : List Frame) (skip : Nat) : List Char → Nat
  | [] => 0
  | c :: rest =>
    match skip, frames with
    | skip + 1, _ => 1 + literalLength frames skip rest
    | 0, [] => 0
    | 0, frame :: outer =>
      let (frames, skip) := advance frame outer c rest
      1 + literalLength frames skip rest

end Conform.Source
