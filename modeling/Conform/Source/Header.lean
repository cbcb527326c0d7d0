import Conform.Source.Forest

/-!
Headers of C# declarations: what stands before the body, the `=` or the final `;`. The shape of a
header tells a namespace, a using directive, a type and a method apart from all other declarations.
-/

set_option autoImplicit false

namespace Conform.Source

/-- A part of a header: a token, or a group in round or square brackets. -/
inductive Piece where
  | token (single : Token)
  | group (opening : Token) (inner : List Token) (closing : Option Token)
  deriving DecidableEq, Repr

namespace Piece

def tokens : Piece → List Token
  | token single => [single]
  | group opening inner closing => opening :: inner ++ closing.toList

def isTrivia : Piece → Bool
  | token single => single.isTrivia
  | group .. => false

def isWord (text : String) : Piece → Bool
  | token single => single.isWord text
  | group .. => false

def isMark (text : String) : Piece → Bool
  | token single => single.isMark text
  | group .. => false

/-- The text of a piece that is a word. -/
def word? : Piece → Option String
  | token single => if single.kind = .word then some single.text else none
  | group .. => none

def isRound : Piece → Bool
  | token _ => false
  | group opening _ _ => opening.isMark "("

def isSquare : Piece → Bool
  | token _ => false
  | group opening _ _ => opening.isMark "["

end Piece

/-- The parts of a declaration in source order, with the trivia between them. -/
abbrev Header := List Piece

namespace Header

/-- Words that stand in front of a declaration and say nothing about its kind. -/
def modifiers : List String := [
  "public", "private", "protected", "internal", "static", "abstract", "sealed", "virtual",
  "override", "readonly", "unsafe", "extern", "new", "partial", "async", "volatile", "const", "ref",
  "required", "file", "fixed"]

def isModifier (piece : Piece) : Bool :=
  (piece.word?.map modifiers.contains).getD false

/-- The parts that count, without attributes and modifiers. -/
def core (header : Header) : List Piece :=
  let parts := header.filter (!·.isTrivia)
  (parts.dropWhile Piece.isSquare).dropWhile isModifier

/-- A row of pieces without the trivia at its two ends, as written. -/
def written (pieces : List Piece) : String :=
  let inner := ((pieces.dropWhile Piece.isTrivia).reverse.dropWhile Piece.isTrivia).reverse
  String.join ((inner.flatMap Piece.tokens).map Token.text)

/-- What follows the first word of a given text. -/
def afterWord? (text : String) (pieces : List Piece) : Option (List Piece) :=
  match pieces.dropWhile (!·.isWord text) with
  | [] => none
  | _ :: rest => some rest

def startsWith (text : String) (pieces : List Piece) : Bool :=
  (pieces.head?.map (·.isWord text)).getD false

/-- The name of the namespace that the header declares. -/
def spaceName? (header : Header) : Option String :=
  if startsWith "namespace" (core header) then (afterWord? "namespace" header).map written else none

/-- Whether the header is that of a using directive, or of a statement that starts like one. -/
def isUsing (header : Header) : Bool :=
  match core header with
  | first :: second :: _ => first.isWord "using" || (first.isWord "global" && second.isWord "using")
  | [first] => first.isWord "using"
  | [] => false

/-- Whether a piece may stand between `using` and the name. -/
def isUsingModifier (piece : Piece) : Bool :=
  piece.isTrivia || piece.isWord "static" || piece.isWord "unsafe"

/-- The directives among the pieces that stand for themselves, conditional groups left out. -/
def lineDirective? : Piece → Option String
  | .token single =>
    if single.kind = .directive ∧ single.role = .line then some single.text else none
  | .group .. => none

/-- The last thing named in a row of pieces: a directive that follows the name, else the name. -/
def lastNamed (pieces : List Piece) : String :=
  ((pieces.reverse.takeWhile Piece.isTrivia).findSome? lineDirective?).getD (written pieces)

/-- What a using directive imports: the last thing named behind its modifiers, or behind the `=` if
there is one. A using statement imports nothing. -/
def importTarget? (header : Header) : Option String :=
  if isUsing header then do
    let pieces := ((← afterWord? "using" header).dropWhile isUsingModifier)
    match pieces.dropWhile (!·.isMark "=") with
    | [] =>
      if (pieces.head?.map Piece.isRound).getD true then none else some (lastNamed pieces)
    | _ :: target =>
      let synonym := (pieces.takeWhile (!·.isMark "=")).filter (!·.isTrivia)
      if synonym.length = 1 then some (lastNamed target) else none
  else none

/-- Whether the header declares a type that can have methods. -/
def isType (header : Header) : Bool :=
  match core header with
  | first :: rest =>
    ["class", "struct", "interface"].any first.isWord ||
      (first.isWord "record" && ((rest.head?.bind Piece.word?).isSome))
  | [] => false

/-- Drops a list of type parameters from the end of a row of pieces, which is given reversed. -/
def dropTypeParameters (reversed : List Piece) : List Piece :=
  match reversed with
  | first :: rest => if first.isMark ">" then drop 1 rest else reversed
  | [] => []
where
  drop (opened : Nat) : List Piece → List Piece
    | [] => []
    | piece :: rest =>
      if piece.isMark ">" then drop (opened + 1) rest
      else if piece.isMark "<" then if opened ≤ 1 then rest else drop (opened - 1) rest
      else drop opened rest

/-- Whether a constraint on a type parameter starts here, and not what is merely named `where`. -/
def startsConstraint : List Piece → Bool
  | first :: second :: third :: _ =>
    first.isWord "where" && second.word?.isSome && third.isMark ":"
  | _ => false

/-- The parts of a header before its constraints. -/
def unconstrained : List Piece → List Piece
  | [] => []
  | piece :: rest =>
    if piece.isRound && startsConstraint rest then [piece] else piece :: unconstrained rest

/-- Words that no header of a method starts with. -/
def isOtherKind (first : Piece) (rest : List Piece) : Bool :=
  ["class", "struct", "interface", "enum", "event", "namespace", "using", "implicit",
      "explicit"].any first.isWord ||
    (first.isWord "record" && ((rest.head?.bind Piece.word?).isSome)) ||
    (first.isWord "delegate" && !((rest.head?.map (·.isMark "*")).getD false))

/-- The identifier of the method that the header declares: a name with a return type in front of it
and a parameter list behind it. -/
def methodName? (header : Header) : Option String :=
  let parts := unconstrained (core header)
  if parts.any fun piece => piece.isMark "~" || piece.isMark ":" || piece.isWord "operator" then none
  else
    match parts, parts.reverse with
    | first :: rest, last :: before =>
      if !last.isRound || isOtherKind first rest then none
      else
        match dropTypeParameters before with
        | name :: _ :: _ => name.word?
        | _ => none
    | _, _ => none

/-- The row a declaration starts at, that of the first token of its header. -/
def row (header : Header) : Nat :=
  match header.head?.map Piece.tokens with
  | some (token :: _) => token.row
  | _ => 0

end Header
end Conform.Source
