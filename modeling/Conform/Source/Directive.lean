import Conform.Text.Blank

/-!
Preprocessor directives of C# source. A directive reaches from its number sign to the end of its
line, the line feed included, and further where a comment or its text runs on; one that opens, parts
or closes a conditional group leaves the comments on its line to themselves.
-/

set_option autoImplicit false

namespace Conform.Source.Directive

/-- What a directive does to the text around it. -/
inductive Role where
  /-- Opens a conditional group. -/
  | split
  /-- Begins another branch of a conditional group. -/
  | turn
  /-- Closes a conditional group. -/
  | join
  /-- Stands for itself. -/
  | line
  deriving DecidableEq, Repr

def isIndent (c : Char) : Bool :=
  Text.isBlank c && c ≠ '\n'

/-- The name of a directive, given what follows its number sign. -/
def name (cs : List Char) : String :=
  String.ofList ((cs.dropWhile isIndent).takeWhile Char.isAlpha)

def roleOf (name : String) : Role :=
  if name = "if" then .split
  else if name = "elif" || name = "else" then .turn
  else if name = "endif" then .join
  else .line

/-- Whether a directive takes a text of its own, which a backslash carries over a line end. -/
def takesText (name : String) : Bool :=
  ["region", "endregion", "error", "warning", "define", "undef"].contains name

/-- The length of a condition: up to its last character, without the comments behind it. It is
`last` if nothing else follows after `passed` characters, inside a block comment or not. -/
def conditionLength (passed last : Nat) : Bool → List Char → Nat
  | _, [] => last
  | true, '*' :: '/' :: rest => conditionLength (passed + 2) last false rest
  | true, _ :: rest => conditionLength (passed + 1) last true rest
  | false, '/' :: '/' :: _ => last
  | false, '/' :: '*' :: rest => conditionLength (passed + 2) last true rest
  | false, c :: rest =>
    if c = '\n' || c = '\r' then last
    else conditionLength (passed + 1) (if isIndent c then last else passed + 1) false rest

/-- The length of what follows the first character of a text: up to a block comment or the line end.
A slash takes the next character with it, whatever it is. -/
def textLength : List Char → Nat
  | [] => 0
  | '\n' :: _ => 0
  | '\\' :: '\n' :: rest => 2 + textLength rest
  | '\\' :: '\r' :: '\n' :: rest => 3 + textLength rest
  | '/' :: '*' :: _ => 0
  | '/' :: _ :: rest => 2 + textLength rest
  | _ :: rest => 1 + textLength rest

/-- The length up to and with the next line feed. -/
def lineLength (cs : List Char) : Nat :=
  (cs.take ((cs.takeWhile (· ≠ '\n')).length + 1)).length

/-- The length of the rest of a line, begun inside a block comment or not. The line goes on behind
the comments that begin on it. -/
def restLength : Bool → List Char → Nat
  | _, [] => 0
  | true, '*' :: '/' :: rest => 2 + restLength false rest
  | true, _ :: rest => 1 + restLength true rest
  | false, '\n' :: _ => 1
  | false, '/' :: '/' :: rest => 2 + lineLength rest
  | false, '/' :: '*' :: rest => 2 + restLength true rest
  | false, _ :: rest => 1 + restLength false rest

/-- The length of the text of a directive, if it has one. -/
def ownText (cs : List Char) : Nat :=
  let indent := (cs.takeWhile isIndent).length
  match cs.drop indent with
  | [] => indent
  | '\n' :: _ => indent
  | '/' :: '/' :: _ => indent
  | '/' :: '*' :: _ => indent
  | _ :: rest => indent + 1 + textLength rest

/-- The length of a directive behind its number sign. -/
def length (cs : List Char) : Nat :=
  let name := name cs
  let head := (cs.takeWhile isIndent).length + name.length
  let behind := cs.drop head
  match roleOf name with
  | .split => head + conditionLength 0 0 false behind
  | .turn => if name = "elif" then head + conditionLength 0 0 false behind else head
  | .join => head
  | .line =>
    let own := if takesText name then ownText behind else 0
    head + own + restLength false (behind.drop own)

end Conform.Source.Directive
