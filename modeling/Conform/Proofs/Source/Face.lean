import Conform.Source.Course

/-!
What the reading of a row sees of the trees in it. The face of a forest has no places, and in a pair
of braces it has nothing; the signs of the trees and the course of a row are those of the face
(`Sign.ofToken_face`, `Sign.ofGroup_face`, `Course.step_face`). So neither the places of the tokens
nor the content of a pair of braces has a part in how the trees around it are read.
-/

set_option autoImplicit false

namespace Conform.Source

/-- A token without its place. -/
def Token.face (token : Token) : Token :=
  { token with start := 0, row := 0 }

namespace Forest

def face : Forest → Forest
  | empty => empty
  | leaf token rest => leaf token.face rest.face
  | group opening inner _ rest =>
    group opening.face (if opening.isMark "\x7b" then empty else inner.face) none rest.face

theorem firstText_face (forest : Forest) : forest.face.firstText = forest.firstText := by
  induction forest with
  | empty => rfl
  | leaf token rest ih =>
    rw [face, firstText, firstText, ih]
    rfl
  | group => rfl

theorem isType_face (forest : Forest) (inTuple : Bool) (angles : Nat) :
    forest.face.isType inTuple angles = forest.isType inTuple angles := by
  induction forest generalizing inTuple angles with
  | empty => rfl
  | leaf token rest ih =>
    simp only [face, isType, ih]
    rfl
  | group opening inner closing rest ihInner ihRest =>
    rw [face, isType, isType, ihRest]
    change (!opening.isMark "\x7b" && _ && _) = _
    cases opening.isMark "\x7b" with
    | true => rfl
    | false => rw [if_neg Bool.false_ne_true, ihInner]

end Forest

namespace Sign

theorem ofToken_face (token : Token) (rest : Forest) :
    ofToken token.face rest.face = ofToken token rest := by
  simp only [ofToken, Forest.firstText_face]
  rfl

theorem ofGroup_face (opening : Token) (inner : Forest) :
    ofGroup opening.face (if opening.isMark "\x7b" then .empty else inner.face) =
      ofGroup opening inner := by
  change (if opening.isMark "(" then _ else if opening.isMark "[" then _ else _) = _
  unfold ofGroup
  split
  · rename_i hround
    have hbrace : opening.isMark "\x7b" = false := by
      simp only [Token.isMark, Bool.and_eq_true, beq_iff_eq] at hround
      simp [Token.isMark, hround]
    rw [hbrace, if_neg Bool.false_ne_true, Forest.firstText_face, Forest.isType_face]
  · rfl

end Sign

theorem Forest.joinsItem_face (forest : Forest) (course : Course) (depth : Nat) :
    forest.face.joinsItem course depth = forest.joinsItem course depth := by
  induction forest generalizing course depth with
  | empty => rfl
  | leaf token rest ih => simp only [face, joinsItem, Sign.ofToken_face, ih]
  | group opening inner closing rest _ ih => simp only [face, joinsItem, Sign.ofGroup_face, ih]

theorem Course.step_face (course : Course) (sign : Sign) (rest : Forest) :
    course.step sign rest.face = course.step sign rest := by
  unfold step
  split
  · simp only [split, Forest.joinsItem_face]
  all_goals rfl

section Congruence

variable {rest other : Forest} (hface : rest.face = other.face)
include hface

theorem Course.step_congr (course : Course) (sign : Sign) :
    course.step sign rest = course.step sign other := by
  rw [← step_face, hface, step_face]

theorem Sign.ofToken_congr {token image : Token} (htoken : token.face = image.face) :
    ofToken token rest = ofToken image other := by
  rw [← ofToken_face, hface, htoken, ofToken_face]

end Congruence

end Conform.Source
