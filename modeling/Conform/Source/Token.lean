import Conform.Source.Lexeme
import Conform.Text.Span

/-!
Tokens: lexemes at their places in a source, counted in bytes and in line feeds.
-/

set_option autoImplicit false

namespace Conform.Source

structure Token where
  kind : Lexeme.Kind
  text : String
  /-- The byte the token starts at. -/
  start : Nat
  /-- The number of line feeds before the token. -/
  row : Nat
  deriving DecidableEq, Repr

namespace Token

def stop (token : Token) : Nat :=
  token.start + Text.bytes token.text.toList

/-- Blanks, comments and directives stand between the parts of a declaration and are none. -/
def isTrivia (token : Token) : Bool :=
  token.kind == .blank || token.kind == .comment || token.kind == .directive

def isWord (token : Token) (text : String) : Bool :=
  token.kind == .word && token.text == text

def isMark (token : Token) (text : String) : Bool :=
  token.kind == .mark && token.text == text

/-- Numbers are made of the characters of words and start with a digit. -/
def isNumber (token : Token) : Bool :=
  token.kind == .word && (token.text.toList.head?.map Char.isDigit).getD false

/-- Places lexemes one after the other from a byte and a row on. -/
def place (start row : Nat) : List Lexeme → List Token
  | [] => []
  | lexeme :: rest =>
    ⟨lexeme.kind, lexeme.text, start, row⟩ ::
      place (start + Text.bytes lexeme.text.toList) (row + lexeme.text.toList.count '\n') rest

def ofSource (source : List Char) : List Token :=
  place 0 0 (Lexeme.ofChars source)

/-- What a directive does to the tokens around it. -/
def role (token : Token) : Directive.Role :=
  Directive.roleOf (Directive.name (token.text.toList.drop 1))

end Token
end Conform.Source
