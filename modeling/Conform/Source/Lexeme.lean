import Conform.Source.Directive
import Conform.Source.Literal

/-!
The lexemes of C# source. Every character belongs to exactly one lexeme, blanks, comments and
directives included, so the lexemes put together are the source. A comment up to the line end stops
before it; a literal is one lexeme, with the interpolations in it.
-/

set_option autoImplicit false

namespace Conform.Source

inductive Lexeme.Kind where
  | blank
  | comment
  | directive
  | literal
  | word
  | mark
  deriving DecidableEq, Repr

structure Lexeme where
  kind : Lexeme.Kind
  text : String
  deriving DecidableEq, Repr

namespace Lexeme

/-- Between lexemes the byte order mark is as good as a blank. -/
def isGap (c : Char) : Bool :=
  Text.isBlank c || c = '\uFEFF'

def isLineEnd (c : Char) : Bool :=
  c = '\n' || c = '\r'

/-- Characters of identifiers, keywords and numbers. Outside ASCII that is all but blanks. -/
def isWordPart (c : Char) : Bool :=
  c.isAlphanum || c = '_' || c = '\\' || (128 ≤ c.toNat && !isGap c)

/-- Marks of two characters; of these alone the second is not read as a mark of its own. -/
def isPair (c d : Char) : Bool :=
  (d = '=' && "=!<>+-*/%&|^".toList.contains c) || (c = '=' && d = '>') ||
    (c = d && (c = ':' || c = '+' || c = '-'))

/-- The length of a block comment behind its opening mark. -/
def noteLength : List Char → Nat
  | [] => 0
  | '*' :: '/' :: _ => 2
  | _ :: rest => 1 + noteLength rest

/-- The length of the mark behind a string that makes it a string of bytes. -/
def byteMarkLength : List Char → Nat
  | 'u' :: '8' :: _ => 2
  | 'U' :: '8' :: _ => 2
  | _ => 0

/-- The kind of the lexeme that starts with a character, and the number of its other characters. -/
def measure (c : Char) (rest : List Char) : Kind × Nat :=
  let toLineEnd := (rest.takeWhile (!isLineEnd ·)).length
  if isGap c then (.blank, (rest.takeWhile isGap).length)
  else if c = '#' then (.directive, Directive.length rest)
  else if c = '\'' then (.literal, literalLength [.character] 0 rest)
  else
    match c, rest with
    | '/', '/' :: _ => (.comment, toLineEnd)
    | '/', '*' :: inner => (.comment, 1 + noteLength inner)
    | _, _ =>
      match opening? (c :: rest) with
      | some (frame, length) =>
        let length := literalLength [frame] (length - 1) rest
        (.literal, length + byteMarkLength (rest.drop length))
      | none =>
        if isWordPart c || c = '@' then (.word, (rest.takeWhile isWordPart).length)
        else if (rest.head?.map (isPair c)).getD false then (.mark, 1)
        else (.mark, 0)

def ofChars : List Char → List Lexeme
  | [] => []
  | c :: rest =>
    let (kind, length) := measure c rest
    ⟨kind, String.ofList (c :: rest.take length)⟩ :: ofChars (rest.drop length)
termination_by cs => cs.length
decreasing_by rw [List.length_drop, List.length_cons]; omega

/-- The lexemes put together are the source. -/
theorem flatMap_text_ofChars (cs : List Char) :
    (ofChars cs).flatMap (·.text.toList) = cs := by
  fun_induction ofChars cs with
  | case1 => rfl
  | case2 c rest kind length _ ih => simp [ih]

end Lexeme
end Conform.Source
