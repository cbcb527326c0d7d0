import Conform.Source.Token

/-!
Tokens nested by brackets. A forest is a row of trees, each a single token or a bracketed group with
a forest inside; flattened it is the row of tokens it came from. A bracket without partner opens a
group up to the end, or stands as a single token if it is a closing one.
-/

set_option autoImplicit false

namespace Conform.Source

inductive Forest where
  | empty
  | leaf (token : Token) (rest : Forest)
  | group (opening : Token) (inner : Forest) (closing : Option Token) (rest : Forest)

namespace Forest

def tokens : Forest → List Token
  | empty => []
  | leaf token rest => token :: rest.tokens
  | group opening inner closing rest =>
    opening :: inner.tokens ++ closing.toList ++ rest.tokens

def append : Forest → Forest → Forest
  | empty, other => other
  | leaf token rest, other => leaf token (rest.append other)
  | group opening inner closing rest, other => group opening inner closing (rest.append other)

def isOpening (token : Token) : Bool :=
  token.isMark "(" || token.isMark "[" || token.isMark "\x7b"

def isClosing (token : Token) : Bool :=
  token.isMark ")" || token.isMark "]" || token.isMark "\x7d"

/-- A forest under construction from its end: the row at hand, and for each closing bracket whose
partner has not been met the row behind it. -/
abbrev Growth := Forest × List (Token × Forest)

/-- Puts one token in front. -/
def grow (token : Token) : Growth → Growth
  | (row, pending) =>
    if isClosing token then (empty, (token, row) :: pending)
    else if isOpening token then
      match pending with
      | (closing, behind) :: pending => (group token row (some closing) behind, pending)
      | [] => (group token row none empty, [])
    else (leaf token row, pending)

/-- Puts the closing brackets without partner back into the row. -/
def settle (row : Forest) : List (Token × Forest) → Forest
  | [] => row
  | (closing, behind) :: pending => settle (row.append (leaf closing behind)) pending

def ofTokens (tokens : List Token) : Forest :=
  let (row, pending) := tokens.foldr grow (empty, [])
  settle row pending

def ofSource (source : List Char) : Forest :=
  ofTokens (Token.ofSource source)

/-- Whether every bracket has its partner. -/
def isBalanced : Forest → Bool
  | empty => true
  | leaf token rest => !isClosing token && rest.isBalanced
  | group _ inner closing rest => closing.isSome && inner.isBalanced && rest.isBalanced

end Forest
end Conform.Source
