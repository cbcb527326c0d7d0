import Conform.Source.Phrase

/-!
The course of a row of statements, members or accessors. It tells where an item begins and ends,
before which tree a semicolon is missing, and to which item a conditional group belongs. A group of
whole items stands between the items; one in place of a statement or inside an item is part of it.
-/

set_option autoImplicit false

namespace Conform.Source

inductive Course.Phase where
  /-- Between two items. -/
  | ready
  /-- Behind attributes or the like, which an item follows. -/
  | begun
  /-- A statement has to follow that belongs to the one begun. -/
  | owed
  /-- Round brackets of the given content have to follow, and then a statement. -/
  | head (content : Content)
  /-- In a label up to its colon; a statement is owed behind it if the label is `bound` to one. -/
  | label (bound : Bool)
  | phrase (phrase : Phrase)
  deriving DecidableEq, Repr

/-- How an open conditional group stands in its row. -/
inductive Course.Frame where
  /-- Between the items. -/
  | free
  /-- In place of a statement that is owed. -/
  | embedded
  /-- Inside an item, which each branch finds in the same phase. -/
  | inner (saved : Course.Phase)
  deriving DecidableEq, Repr

/-- How far a row has got. -/
structure Course where
  content : Content
  phase : Course.Phase := .ready
  /-- The number of `do` loops whose condition is still to come. -/
  loops : Nat := 0
  /-- The open conditional groups, the innermost first. -/
  frames : List Course.Frame := []
  deriving DecidableEq, Repr

/-- What a tree is to the row it stands in. -/
structure Course.Step where
  /-- The course behind the tree. -/
  course : Course
  /-- Whether a semicolon is missing before the tree. -/
  isCut : Bool := false
  /-- Whether the tree belongs to an item, and not between two. -/
  isCovered : Bool := true
  /-- What the tree holds if it is a group. -/
  inside : Content := .terms

namespace Course

def Phase.isResting (phase : Phase) : Bool :=
  phase = .ready || phase = .begun

def isReady (course : Course) : Bool :=
  course.phase = .ready

/-- Whether the row may end here. -/
def isResting (course : Course) : Bool :=
  course.phase.isResting

/-- Whether a conditional group is open that stands between the items. -/
def isFree (course : Course) : Bool :=
  course.frames.contains .free

/-- The phase after a word that starts a statement, if it does not start a phrase. -/
def startPhase? (phase : Phase) (text next : String) : Option Phase :=
  if text = "case" || (text = "default" && next = ":") then some (.label false)
  else if next = ":" then some (.label true)
  else if next = "(" && text = "for" then some (.head .loop)
  else if next = "(" &&
      ["if", "while", "foreach", "switch", "lock", "using", "fixed", "catch"].contains text then
    some (.head .terms)
  else if next = "(" && text = "when" && phase = .owed then some (.head .terms)
  else if ["else", "try", "catch", "finally", "do"].contains text then some .owed
  else if next = "\x7b" && ["unsafe", "checked", "unchecked"].contains text then some .owed
  else if text = "await" && (next = "foreach" || next = "using") then some .begun
  else none

/-- The course after a sign where an item may begin. -/
def begin (course : Course) (sign : Sign) : Step :=
  let follow (phase : Phase) : Step := { course := { course with phase } }
  let enter : Step :=
    follow (((Phrase.start course.content).next? sign).elim .ready .phrase)
  match sign with
  | .word text next =>
    if text = "while" && course.phase = .ready && course.loops ≠ 0 then
      { course := { course with
          phase := .phrase { posture := .complete, stage := .value, term := false }
          loops := course.loops - 1 } }
    else
      match startPhase? course.phase text next with
      | some phase =>
        { course := { course with
            phase, loops := if text = "do" then course.loops + 1 else course.loops }
          isCut := course.phase = .owed && ["else", "catch", "finally", "case"].contains text }
      | none => enter
  | .mark text => if text = ";" then follow .ready else enter
  | .square => follow .begun
  | .brace => { follow .ready with inside := .statements }
  | _ => enter

/-- The course after a sign that is no directive of a conditional group. -/
def advance (course : Course) (sign : Sign) : Step :=
  let follow (phase : Phase) : Step := { course := { course with phase } }
  let cut : Step := { { course with phase := .ready }.begin sign with isCut := true }
  match sign with
  | .trivia => { course, isCovered := !course.isReady }
  | .mark ";" => follow .ready
  | _ =>
    match course.phase with
    | .head content =>
      match sign with
      | .round _ => { follow .owed with inside := content }
      | _ => { course }
    | .label bound =>
      if sign = .mark ":" then follow (if bound then .owed else .ready) else { course }
    | .phrase phrase =>
      match sign with
      | .brace =>
        match phrase.braces? with
        | some (inside, rest) => { follow (rest.elim .ready .phrase) with inside }
        | none => cut
      | _ =>
        match phrase.next? sign with
        | some phrase => follow (.phrase phrase)
        | none => cut
    | _ => course.begin sign

/-- Whether an item is begun that the branch of a conditional group may leave open: attributes, or
an expression that a statement goes on with. -/
def isTentative (course : Course) : Bool :=
  match course.phase with
  | .begun => true
  | .phrase phrase => course.content = .statements && phrase.term
  | _ => false

end Course

namespace Forest

/-- Whether the conditional group that opens before a row of trees is a part of the item behind it:
its first branch that is not empty begins an item and leaves it open. Groups inside it, `depth` of
which are open, count as the text they hold. -/
def joinsItem (course : Course) (depth : Nat) : Forest → Bool
  | empty => false
  | leaf token rest =>
    match Sign.ofToken token rest, depth with
    | .branch .split, _ => rest.joinsItem course (depth + 1)
    | .branch .join, depth + 1 => rest.joinsItem course depth
    | .branch .join, 0 => course.isTentative
    | .branch _, 0 => if course.isReady then rest.joinsItem course 0 else course.isTentative
    | .branch _, _ => rest.joinsItem course depth
    | .trivia, _ => rest.joinsItem course depth
    | sign, _ =>
      let step := course.advance sign
      !step.isCut && !step.course.isReady && rest.joinsItem step.course depth
  | group opening inner _ rest =>
    let step := course.advance (Sign.ofGroup opening inner)
    !step.isCut && !step.course.isReady && rest.joinsItem step.course depth

end Forest

namespace Course

/-- The course after a directive that opens a conditional group, given what follows it. -/
def split (course : Course) (rest : Forest) : Step :=
  let isCut := match course.phase with
    | .phrase phrase => phrase.posture = .complete && phrase.body.isNone
    | _ => false
  let push (phase : Phase) (frame : Frame) : Step :=
    { course := { course with phase, frames := frame :: course.frames }
      isCut
      isCovered := phase ≠ .ready }
  let phase := if isCut then .ready else course.phase
  let isJoined := rest.joinsItem { content := course.content, phase } 0
  match phase with
  | .ready => if isJoined then push .begun (.inner .begun) else push .ready .free
  | .owed => push .owed (if isJoined then .inner .owed else .embedded)
  | phase => push phase (.inner phase)

/-- The course after a directive that begins another branch or closes a conditional group. -/
def leave (course : Course) (isLast : Bool) : Step :=
  let isOpen := !course.isResting
  let frames := if isLast then course.frames.tail else course.frames
  match course.frames with
  | [] => { course, isCovered := !course.isReady }
  | .free :: _ =>
    { course := { course with phase := .ready, frames }, isCut := isOpen, isCovered := false }
  | .embedded :: _ =>
    { course := { course with phase := if isLast then .ready else .owed, frames }
      isCut := isOpen && course.phase ≠ .owed }
  | .inner saved :: _ =>
    { course := { course with phase := if isLast then course.phase else saved, frames } }

/-- The course after a tree, given its sign and what follows it. -/
def step (course : Course) (sign : Sign) (rest : Forest) : Step :=
  match sign with
  | .branch .split => course.split rest
  | .branch .turn => course.leave false
  | .branch .join => course.leave true
  | sign => course.advance sign

end Course
end Conform.Source
