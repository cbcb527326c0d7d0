import Conform.Source.Forest

/-!
The trees of a row as the grammar sees them. A sign keeps of a tree what decides how a statement or
a declaration goes on behind it: the word, the mark, the shape of the brackets, and of the text behind
a word its first token.
-/

set_option autoImplicit false

namespace Conform.Source

/-- What the inside of a pair of brackets holds. -/
inductive Content where
  | statements
  | members
  | accessors
  /-- Expressions, patterns, types and the like, without a statement of their own. -/
  | terms
  /-- The three parts in the head of a `for` loop. -/
  | loop
  deriving DecidableEq, Repr

namespace Keyword

/-- The names of the built-in types. -/
def types : List String := [
  "bool", "byte", "char", "decimal", "double", "float", "int", "long", "object", "sbyte", "short",
  "string", "uint", "ulong", "ushort", "void"]

/-- Reserved words that stand for a value or start one. -/
def values : List String := [
  "this", "base", "null", "true", "false", "default", "typeof", "sizeof", "checked", "unchecked"]

/-- The other reserved words. -/
def leading : List String := [
  "abstract", "as", "break", "case", "catch", "class", "const", "continue", "delegate", "do", "else",
  "enum", "event", "explicit", "extern", "finally", "fixed", "for", "foreach", "goto", "if",
  "implicit", "in", "interface", "internal", "is", "lock", "namespace", "new", "operator", "out",
  "override", "params", "private", "protected", "public", "readonly", "ref", "return", "sealed",
  "stackalloc", "static", "struct", "switch", "throw", "try", "unsafe", "using", "virtual",
  "volatile", "while"]

/-- Words that may stand in front of a name or an operand, and may be names themselves. -/
def contextual : List String := [
  "async", "await", "file", "from", "global", "not", "partial", "record", "required", "scoped",
  "yield"]

/-- Words that lead from one part of a query to the next. -/
def query : List String := [
  "from", "join", "let", "on", "equals", "into", "where", "orderby", "group", "by", "select"]

/-- Words that start a statement and stand nowhere else. -/
def statements : List String := [
  "break", "catch", "continue", "do", "else", "finally", "for", "foreach", "goto", "if", "lock",
  "return", "try", "using", "while"]

def isReserved (text : String) : Bool :=
  types.contains text || values.contains text || leading.contains text

end Keyword

inductive Sign where
  | trivia
  /-- A directive that opens, parts or closes a conditional group. -/
  | branch (role : Directive.Role)
  | literal
  /-- A word, with the first token behind it. -/
  | word (text next : String)
  | mark (text : String)
  /-- Round brackets; `isType` if what they hold reads as a type. -/
  | round (isType : Bool)
  | square
  | brace
  deriving DecidableEq, Repr

namespace Forest

/-- The text of the first token that is no trivia. -/
def firstText : Forest → String
  | empty => ""
  | leaf token rest => if token.isTrivia then rest.firstText else token.text
  | group opening _ _ _ => opening.text

/-- Whether a token may stand in a type. -/
def isTypePart (token : Token) : Bool :=
  token.isTrivia || [".", "::", "?", "*", "<", ">"].any token.isMark ||
    (token.kind == .word && !token.isNumber &&
      !Keyword.values.contains token.text && !Keyword.leading.contains token.text)

/-- Whether a row may be read as a type. A comma belongs to type arguments, `angles` lists of which
are open, or to the elements of a tuple. -/
def isType (inTuple : Bool) (angles : Nat) : Forest → Bool
  | empty => true
  | leaf token rest =>
    if token.isMark "," then (inTuple || angles ≠ 0) && rest.isType inTuple angles
    else
      let angles :=
        if token.isMark "<" then angles + 1 else if token.isMark ">" then angles - 1 else angles
      isTypePart token && rest.isType inTuple angles
  | group opening inner _ rest =>
    !opening.isMark "\x7b" && inner.isType true 0 && rest.isType inTuple angles

end Forest

namespace Sign

/-- The sign of a single token, given what follows it. A number is a literal like any other. -/
def ofToken (token : Token) (rest : Forest) : Sign :=
  match token.kind with
  | .blank => .trivia
  | .comment => .trivia
  | .directive => if token.role = .line then .trivia else .branch token.role
  | .literal => .literal
  | .word =>
    if token.isNumber then .literal else .word token.text rest.firstText
  | .mark => if Forest.isClosing token then .trivia else .mark token.text

/-- The sign of a bracketed group. -/
def ofGroup (opening : Token) (inner : Forest) : Sign :=
  if opening.isMark "(" then .round (inner.firstText ≠ "" && inner.isType false 0)
  else if opening.isMark "[" then .square
  else .brace

end Sign
end Conform.Source
