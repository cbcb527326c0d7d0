import Conform.Source.Block
import Conform.Source.Outline

/-!
The methods of a C# source: every declaration of a type body whose header is that of a method, with
its place, its body and the documentation comments directly above it. These are the unbroken run of
comments that start with `///` or `/**`; any other comment, a directive or a declaration breaks it.
-/

set_option autoImplicit false

namespace Conform.Source

inductive Body where
  /-- The span from brace to brace, and that of the statements if there are any. -/
  | block (span : Span) (statements : Option Span)
  | expression
  | missing
  deriving DecidableEq, Repr

structure Method where
  identifier : String
  line : Nat
  body : Body
  docs : List String
  deriving DecidableEq, Repr

def Body.ofEnding : Ending → Option Body
  | .semicolon => some .missing
  | .value => none
  | .arrow => some .expression
  | .block opening inner closing =>
    some (.block ⟨opening.start, Forest.groupStop opening inner closing⟩ inner.statements?)

/-- Whether a comment documents what follows it. -/
def Token.isDoc (token : Token) : Bool :=
  "///".toList.isPrefixOf token.text.toList || "/**".toList.isPrefixOf token.text.toList

/-- The method that a declaration of a type body is, if it is one. -/
def Method.ofDeclaration? (docs : List String) (header : Header) (ending : Ending) :
    Option Method := do
  let identifier ← Header.methodName? header
  let body ← Body.ofEnding ending
  return ⟨identifier, Header.row header + 1, body, docs⟩

namespace Outline

/-- The methods of an outline that stands in a type or not, below a run of documentation comments. -/
def methods (inType : Bool) (docs : List String) : Outline → List Method
  | empty => []
  | comment token rest =>
    rest.methods inType (if token.isDoc then docs ++ [token.text] else [])
  | directive _ rest => rest.methods inType []
  | declaration header ending members rest =>
    (if inType then (Method.ofDeclaration? docs header ending).toList else []) ++
      members.methods (Header.isType header) [] ++ rest.methods inType []

end Outline

/-- What the structure of a source file tells. -/
structure Structure where
  spaceNames : List String
  imports : List String
  methods : List Method
  /-- Whether a bracket has no partner or a semicolon is missing. -/
  hasErrors : Bool
  deriving DecidableEq, Repr

def Structure.ofSource (source : List Char) : Structure :=
  let forest := Forest.ofSource source
  let outline := Outline.ofForest forest
  { spaceNames := outline.spaceNames
    imports := outline.imports
    methods := outline.methods false []
    hasErrors := !forest.isBalanced || !forest.isWhole (.row { content := .members }) }

end Conform.Source
