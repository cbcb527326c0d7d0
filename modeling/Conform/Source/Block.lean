import Conform.Source.Course

/-!
Blocks: the span of the statements of a block, and whether a row and all it holds in brackets is
whole, with no semicolon missing.
-/

set_option autoImplicit false

namespace Conform.Source

/-- How a row is read: item by item, or as terms, where braces hold statements behind a `lead`. -/
inductive Reading where
  | row (course : Course)
  | terms (lead : Bool)
  deriving DecidableEq, Repr

namespace Reading

def ofContent : Content → Reading
  | .terms => .terms false
  | .loop => .terms false
  | content => .row { content }

/-- Whether braces behind a token of a row of terms hold statements. -/
def leads (lead : Bool) (token : Token) : Bool :=
  if token.isTrivia then lead else token.isMark "=>" || token.isWord "delegate"

end Reading

namespace Forest

def groupStop (opening : Token) (inner : Forest) (closing : Option Token) : Nat :=
  match closing with
  | some closing => closing.stop
  | none => ((inner.tokens.getLast?).getD opening).stop

/-- The spans of the trees of a block that belong to its statements. A conditional group that stands
between statements counts as one directive, with all it holds. -/
def code (course : Course) : Forest → List Span
  | empty => []
  | leaf token rest =>
    let step := course.step (Sign.ofToken token rest) rest
    if step.isCovered && !course.isFree && token.kind ≠ .blank then
      ⟨token.start, token.stop⟩ :: rest.code step.course
    else rest.code step.course
  | group opening inner closing rest =>
    let step := course.step (Sign.ofGroup opening inner) rest
    if course.isFree then rest.code step.course
    else ⟨opening.start, groupStop opening inner closing⟩ :: rest.code step.course

/-- The span from the first statement of a block to the last. -/
def statements? (inner : Forest) : Option Span :=
  match inner.code { content := .statements } with
  | [] => none
  | first :: rest => some ⟨first.start, ((rest.getLast?).getD first).stop⟩

/-- The number of semicolons that stand in a row itself. -/
def semicolons : Forest → Nat
  | empty => 0
  | leaf token rest => (if token.isMark ";" then 1 else 0) + rest.semicolons
  | group _ _ _ rest => rest.semicolons

/-- Whether no semicolon is missing in a row or in the brackets it holds. -/
def isWhole (reading : Reading) : Forest → Bool
  | empty =>
    match reading with
    | .row course => course.isResting
    | .terms _ => true
  | leaf token rest =>
    match reading with
    | .row course =>
      let step := course.step (Sign.ofToken token rest) rest
      !step.isCut && rest.isWhole (.row step.course)
    | .terms lead => rest.isWhole (.terms (Reading.leads lead token))
  | group opening inner _ rest =>
    match reading with
    | .row course =>
      let step := course.step (Sign.ofGroup opening inner) rest
      !step.isCut && (step.inside ≠ .loop || inner.semicolons = 2) &&
        inner.isWhole (Reading.ofContent step.inside) && rest.isWhole (.row step.course)
    | .terms lead =>
      let inside := if lead && opening.isMark "\x7b" then .statements else .terms
      inner.isWhole (Reading.ofContent inside) &&
        rest.isWhole (.terms (lead && opening.isMark "("))

end Forest
end Conform.Source
