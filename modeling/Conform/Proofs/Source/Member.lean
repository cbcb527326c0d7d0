import Conform.Proofs.Source.Block
import Conform.Proofs.Source.Isolation

/-!
Members of a type body: rows that are read as one declaration. Whether a row is a member is decided
by reading it alone (`Forest.isItem`); it is then read in the same way whatever stands behind it and
whatever conditional groups are open around it (`Outline.declares_of_isItem`). A group that opens in
front of a member is no part of it, since the member begins an item and ends it
(`Forest.joinsItem_append_of_isItem`).
-/

set_option autoImplicit false

namespace Conform.Source

/-- Whether a directive parts or closes a conditional group. -/
def Sign.leaves : Sign → Bool
  | branch .turn => true
  | branch .join => true
  | _ => false

namespace Course

/-- The course in a row around which more conditional groups are open. -/
def enclosed (outer : List Frame) (course : Course) : Course :=
  { course with frames := course.frames ++ outer }

def Step.enclosed (outer : List Frame) (step : Step) : Step :=
  { step with course := step.course.enclosed outer }

/-- Whether an item is begun and not ended: attributes stand in front, or a part of its phrase. -/
def isPending (course : Course) : Bool :=
  match course.phase with
  | .begun => true
  | .phrase _ => true
  | _ => false

end Course

namespace Forest

def isEmpty : Forest → Bool
  | empty => true
  | _ => false

/-- Whether a row is the rest of a member, up to the semicolon or the braces that end it. No
semicolon is missing in it, and it closes the conditional groups that it opens and no others. -/
def isItem (course : Course) : Forest → Bool
  | empty => false
  | leaf token rest =>
    let sign := Sign.ofToken token rest
    let step := course.step sign rest
    !step.isCut && step.isCovered && !(sign.leaves && course.frames.isEmpty) &&
      (token.isMark ";" && step.course = { content := .members } && rest.isEmpty ||
        step.course.isPending && rest.isItem step.course)
  | group opening inner _ rest =>
    let step := course.step (Sign.ofGroup opening inner) rest
    !step.isCut && (step.course = { content := .members } && rest.isEmpty ||
      step.course.isPending && rest.isItem step.course)

/-- Whether a row is a member does not depend on where it is written. -/
theorem isItem_face (forest : Forest) (course : Course) :
    forest.face.isItem course = forest.isItem course := by
  have hempty (forest : Forest) : forest.face.isEmpty = forest.isEmpty := by cases forest <;> rfl
  induction forest generalizing course with
  | empty => rfl
  | leaf token rest ih =>
    simp only [face, isItem, Sign.ofToken_face, Course.step_face, ih, hempty]
    rfl
  | group opening inner closing rest _ ih =>
    simp only [face, isItem, Sign.ofGroup_face, Course.step_face, ih, hempty]

/-! ### What stands behind a row -/

/-- Whether a row holds nothing but blanks, comments and directives. -/
def isTrivial : Forest → Bool
  | empty => true
  | leaf token rest => token.isTrivia && rest.isTrivial
  | group .. => false

variable {forest : Forest} {course : Course}

theorem isTrivia_of_isMark {token : Token} {text : String} (hmark : token.isMark text = true) :
    token.isTrivia = false := by
  simp only [Token.isMark, Bool.and_eq_true, beq_iff_eq] at hmark
  simp [Token.isTrivia, hmark.1]

theorem isTrivial_of_isItem (hitem : forest.isItem course = true) : forest.isTrivial = false := by
  induction forest generalizing course with
  | empty => contradiction
  | leaf token rest ih =>
    simp only [isItem, Bool.and_eq_true, Bool.or_eq_true] at hitem
    rcases hitem.2 with ⟨⟨hmark, -⟩, -⟩ | ⟨-, hrest⟩
    · rw [isTrivial, isTrivia_of_isMark hmark, Bool.false_and]
    · rw [isTrivial, ih hrest, Bool.and_false]
  | group => rfl

/-- The first text of a row does not depend on what stands behind the row. -/
theorem firstText_append (hforest : forest.isTrivial = false) (other : Forest) :
    (forest.append other).firstText = forest.firstText := by
  induction forest with
  | empty => contradiction
  | leaf token rest ih =>
    rw [isTrivial, Bool.and_eq_false_iff] at hforest
    rw [append, firstText, firstText]
    cases htrivia : token.isTrivia with
    | false => rfl
    | true =>
      rw [if_pos rfl, if_pos rfl]
      exact ih (hforest.resolve_left (by rw [htrivia]; exact Bool.noConfusion))
  | group => rfl

theorem ofToken_append (hforest : forest.isTrivial = false) (token : Token) (other : Forest) :
    Sign.ofToken token (forest.append other) = Sign.ofToken token forest := by
  rw [Sign.ofToken, Sign.ofToken, firstText_append hforest]

end Forest

theorem Forest.ofToken_semicolon {token : Token} (hmark : token.isMark ";" = true)
    (rest : Forest) : Sign.ofToken token rest = .mark ";" := by
  simp only [Token.isMark, Bool.and_eq_true, beq_iff_eq] at hmark
  simp [Sign.ofToken, hmark.1, isClosing, Token.isMark, hmark.2]

/-! ### Groups around a member -/

namespace Course

variable {course : Course}

theorem begin_enclosed (course : Course) (outer : List Frame) (sign : Sign) :
    (course.enclosed outer).begin sign = (course.begin sign).enclosed outer := by
  cases sign with
  | word text next =>
    obtain ⟨content, phase, loops, frames⟩ := course
    change begin ⟨content, phase, loops, frames ++ outer⟩ _ = _
    unfold begin
    dsimp only
    split
    · rfl
    · split <;> rfl
  | mark text =>
    unfold begin
    dsimp only [enclosed]
    split <;> rfl
  | _ => rfl

theorem advance_enclosed (course : Course) (outer : List Frame) (sign : Sign) :
    (course.enclosed outer).advance sign = (course.advance sign).enclosed outer := by
  have hcut (sign : Sign) :
      { ({ course with phase := .ready }.enclosed outer).begin sign with isCut := true } =
        Step.enclosed outer { { course with phase := .ready }.begin sign with isCut := true } := by
    rw [begin_enclosed]
    rfl
  unfold advance
  split
  · rfl
  · rfl
  · dsimp only [enclosed]
    split
    · split <;> rfl
    · split <;> rfl
    · split
      · split
        · rfl
        · exact hcut .brace
      · split
        · rfl
        · exact hcut sign
    · exact begin_enclosed course outer sign

/-- The phases and frames that a group opens with do not depend on the groups around it. -/
theorem split_enclosed (course : Course) (outer : List Frame) (rest : Forest) :
    (course.enclosed outer).split rest = (course.split rest).enclosed outer := by
  obtain ⟨content, phase, loops, frames⟩ := course
  change split ⟨content, phase, loops, frames ++ outer⟩ rest = _
  cases phase with
  | ready =>
    cases hjoins : rest.joinsItem { content } 0 <;> simp [split, hjoins, Step.enclosed, enclosed]
  | phrase phrase =>
    by_cases hcut : (phrase.posture = .complete && phrase.body.isNone) = true
    · cases hjoins : rest.joinsItem { content } 0 <;>
        simp [split, hcut, hjoins, Step.enclosed, enclosed]
    · simp [split, hcut, Step.enclosed, enclosed]
  | _ => rfl

theorem leave_enclosed (outer : List Frame) (hframes : course.frames ≠ []) (isLast : Bool) :
    (course.enclosed outer).leave isLast = (course.leave isLast).enclosed outer := by
  obtain ⟨content, phase, loops, _ | ⟨frame, frames⟩⟩ := course
  · contradiction
  · cases frame <;> cases isLast <;> rfl

/-- Assumes: a directive that parts or closes a conditional group finds one that is open in the row
itself. Then the groups around the row have no part in how it goes on. -/
theorem step_enclosed (outer : List Frame) {sign : Sign}
    (hleaves : sign.leaves = true → course.frames ≠ []) (rest : Forest) :
    (course.enclosed outer).step sign rest = (course.step sign rest).enclosed outer := by
  unfold step
  split
  · exact split_enclosed course outer rest
  · exact leave_enclosed outer (hleaves rfl) false
  · exact leave_enclosed outer (hleaves rfl) true
  · exact advance_enclosed course outer _

theorem step_eq_advance (course : Course) {sign : Sign} (hbranch : ∀ role, sign ≠ .branch role)
    (rest : Forest) : course.step sign rest = course.advance sign := by
  unfold step
  split
  · exact absurd rfl (hbranch .split)
  · exact absurd rfl (hbranch .turn)
  · exact absurd rfl (hbranch .join)
  · rfl

theorem step_group_enclosed {opening : Token} {inner rest : Forest} {step : Step}
    (hstep : course.step (Sign.ofGroup opening inner) rest = step) (outer : List Frame)
    (other : Forest) :
    (course.enclosed outer).step (Sign.ofGroup opening inner) (rest.append other) =
      step.enclosed outer := by
  have hbranch := (Forest.sign_ofGroup opening inner).2
  rw [step_eq_advance _ hbranch, advance_enclosed, ← hstep, step_eq_advance _ hbranch]

theorem isReady_of_isPending (hpending : course.isPending = true) : course.isReady = false := by
  unfold isPending at hpending
  split at hpending <;> simp_all [isReady]

/-! ### Phrases -/

/-- Assumes: a phrase has begun. Behind a sign it goes on, or has ended, or a semicolon is
missing. -/
theorem advance_phrase {phrase : Phrase} (hphase : course.phase = .phrase phrase) (sign : Sign) :
    (course.advance sign).isCut = true ∨ (course.advance sign).course.isReady = true ∨
      ∃ next, (course.advance sign).course = { course with phase := .phrase next } := by
  unfold advance
  rw [hphase]
  split
  · exact .inr (.inr ⟨phrase, by rw [← hphase]⟩)
  · exact .inr (.inl rfl)
  · dsimp only
    split
    · split
      · rename_i rest _
        cases rest with
        | none => exact .inr (.inl rfl)
        | some next => exact .inr (.inr ⟨next, rfl⟩)
      · exact .inl rfl
    · split
      · exact .inr (.inr ⟨_, rfl⟩)
      · exact .inl rfl

end Course

namespace Forest

variable {course : Course}

/-- A conditional group that opens in front of a phrase is no part of it. -/
theorem joinsItem_phrase {phrase : Phrase} (hcontent : course.content ≠ .statements)
    (hphase : course.phase = .phrase phrase) (depth : Nat) (forest : Forest) :
    forest.joinsItem course depth = false := by
  have hadvance {course : Course} {phrase : Phrase} (hcontent : course.content ≠ .statements)
      (hphase : course.phase = .phrase phrase) (rest : Forest) (sign : Sign) (depth : Nat)
      (hrest : ∀ next, rest.joinsItem { course with phase := .phrase next } depth = false) :
      (!(course.advance sign).isCut && !(course.advance sign).course.isReady &&
        rest.joinsItem (course.advance sign).course depth) = false := by
    rcases course.advance_phrase hphase sign with hcut | hready | ⟨next, hnext⟩
    · rw [hcut, Bool.not_true, Bool.false_and, Bool.false_and]
    · rw [hready, Bool.not_true, Bool.and_false, Bool.false_and]
    · rw [hnext, hrest next, Bool.and_false]
  induction forest generalizing course phrase depth with
  | empty => rfl
  | leaf token rest ih =>
    have htentative : course.isTentative = false := by
      simp [Course.isTentative, hphase, hcontent]
    have hready : course.isReady = false := by simp [Course.isReady, hphase]
    unfold joinsItem
    split
    · exact ih hcontent hphase _
    · exact ih hcontent hphase _
    · exact htentative
    · rw [hready]
      exact htentative
    · exact ih hcontent hphase _
    · exact ih hcontent hphase _
    · exact hadvance hcontent hphase rest _ _ fun next ↦
        @ih { course with phase := .phrase next } next hcontent rfl _
  | group opening inner closing rest _ ih =>
    exact hadvance hcontent hphase rest _ _ fun next ↦
      @ih { course with phase := .phrase next } next hcontent rfl _

theorem eq_empty_of_isEmpty {forest : Forest} (hempty : forest.isEmpty = true) :
    forest = .empty := by
  cases forest with
  | empty => rfl
  | _ => contradiction

variable {forest : Forest}

/-- The first part of a member tells that it belongs to a conditional group in front of it. -/
theorem joinsItem_append {joining : Course} {depth : Nat} (hitem : forest.isItem course = true)
    (hjoins : forest.joinsItem joining depth = true) (other : Forest) :
    (forest.append other).joinsItem joining depth = true := by
  induction forest generalizing course joining depth with
  | empty => contradiction
  | leaf token rest ih =>
    simp only [isItem, Bool.and_eq_true, Bool.or_eq_true] at hitem
    rcases hitem.2 with ⟨⟨hmark, -⟩, hempty⟩ | ⟨-, hrest⟩
    · unfold joinsItem at hjoins
      rw [eq_empty_of_isEmpty hempty, ofToken_semicolon hmark] at hjoins
      simp [joinsItem] at hjoins
    · rw [append]
      unfold joinsItem at hjoins ⊢
      rw [ofToken_append (isTrivial_of_isItem hrest)]
      split at hjoins
      · exact ih hrest hjoins
      · exact ih hrest hjoins
      · exact hjoins
      · split at hjoins
        · rename_i hready
          rw [if_pos hready]
          exact ih hrest hjoins
        · rename_i hready
          rw [if_neg hready]
          exact hjoins
      · exact ih hrest hjoins
      · exact ih hrest hjoins
      · simp only [Bool.and_eq_true] at hjoins ⊢
        exact ⟨hjoins.1, ih hrest hjoins.2⟩
  | group opening inner closing rest _ ih =>
    simp only [isItem, Bool.and_eq_true, Bool.or_eq_true] at hitem
    rcases hitem.2 with ⟨-, hempty⟩ | ⟨-, hrest⟩
    · rw [eq_empty_of_isEmpty hempty] at hjoins
      simp [joinsItem] at hjoins
    · simp only [append, joinsItem, Bool.and_eq_true] at hjoins ⊢
      exact ⟨hjoins.1, ih hrest hjoins.2⟩

/-! ### Reading a member -/

theorem split_append (hphase : course.phase = .ready ∨ course.isPending = true)
    (hcut : (course.split forest).isCut = false) (hcovered : (course.split forest).isCovered = true)
    {next : Course} (hitem : forest.isItem next = true) (other : Forest) :
    course.split (forest.append other) = course.split forest := by
  obtain ⟨content, phase, loops, frames⟩ := course
  cases phase with
  | ready =>
    cases hjoins : forest.joinsItem { content } 0 with
    | false => simp [Course.split, hjoins] at hcovered
    | true => simp [Course.split, hjoins, joinsItem_append hitem hjoins]
  | phrase phrase =>
    cases hwhole : decide (phrase.posture = .complete) && phrase.body.isNone with
    | true =>
      cases hjoins : forest.joinsItem { content } 0 <;>
        simp [Course.split, hwhole, hjoins] at hcut
    | false => simp [Course.split, hwhole]
  | begun => rfl
  | _ => rcases hphase with hphase | hphase <;> contradiction

theorem step_append (hphase : course.phase = .ready ∨ course.isPending = true) {sign : Sign}
    (hcut : (course.step sign forest).isCut = false)
    (hcovered : (course.step sign forest).isCovered = true)
    {next : Course} (hitem : forest.isItem next = true) (other : Forest) :
    course.step sign (forest.append other) = course.step sign forest := by
  unfold Course.step at hcut hcovered ⊢
  split
  · exact split_append hphase hcut hcovered hitem other
  all_goals rfl

end Forest

namespace Outline

variable {course : Course} {draft : Draft} {forest : Forest} {step : Course.Step}

theorem read_leaf_covered {token : Token}
    (hstep : course.step (Sign.ofToken token forest) forest = step) (hcut : step.isCut = false)
    (hcovered : step.isCovered = true) :
    read course draft (.leaf token forest) =
      if step.course.isReady then
        (draft.add (.token token)).declare .semicolon empty (read step.course {} forest)
      else read step.course (draft.add (.token token)) forest := by
  simp only [read, hstep, hcut, hcovered, if_true, Bool.false_eq_true, if_false, id_eq]

theorem read_group_uncut {opening : Token} {inner : Forest} {closing : Option Token}
    (hstep : course.step (Sign.ofGroup opening inner) forest = step) (hcut : step.isCut = false) :
    read course draft (.group opening inner closing forest) =
      if step.course.isReady then
        draft.declare (.block opening inner closing) (membersOf draft step.inside inner)
          (read step.course {} forest)
      else read step.course (draft.add (.group opening inner.tokens closing)) forest := by
  simp only [read, hstep, hcut, Bool.false_eq_true, if_false, id_eq, membersOf]

/-- A row is read as one declaration, whatever stands behind it and whatever conditional groups are
open around it. A method has no members. -/
def Declares (course : Course) (draft : Draft) (forest : Forest) : Prop :=
  ∃ header ending members, ((Header.methodName? header).isSome = true → members = empty) ∧
    ∀ outer other, read (course.enclosed outer) draft (forest.append other) =
      declaration header ending members (read { content := .members, frames := outer } {} other)

theorem declares_semicolon {token : Token} (hmark : token.isMark ";" = true)
    (hstep : (course.step (Sign.ofToken token .empty) .empty).course = { content := .members }) :
    Declares course draft (.leaf token .empty) := by
  rw [Forest.ofToken_semicolon hmark] at hstep
  have hsemicolon (outer : List Course.Frame) (other : Forest) :
      (course.enclosed outer).step (Sign.ofToken token other) other =
        { course := { content := .members, frames := outer } } := by
    rw [Forest.ofToken_semicolon hmark, Course.step_enclosed outer Bool.noConfusion]
    exact congrArg (fun next : Course ↦ Course.Step.enclosed outer { course := next }) hstep
  exact ⟨_, _, empty, fun _ ↦ rfl, fun outer other ↦
    read_leaf_covered (hsemicolon outer other) rfl rfl⟩

theorem Declares.leaf {token : Token} (hphase : course.phase = .ready ∨ course.isPending = true)
    (hstep : course.step (Sign.ofToken token forest) forest = step) (hcut : step.isCut = false)
    (hcovered : step.isCovered = true)
    (hleaves : (Sign.ofToken token forest).leaves = true → course.frames ≠ [])
    (hpending : step.course.isPending = true) {next : Course} (hitem : forest.isItem next = true)
    (hrest : Declares step.course (draft.add (.token token)) forest) :
    Declares course draft (.leaf token forest) := by
  obtain ⟨header, ending, members, hmembers, hread⟩ := hrest
  refine ⟨header, ending, members, hmembers, fun outer other ↦ ?_⟩
  have hnext : (course.enclosed outer).step (Sign.ofToken token (forest.append other))
      (forest.append other) = step.enclosed outer := by
    rw [Forest.ofToken_append (Forest.isTrivial_of_isItem hitem),
      Course.step_enclosed outer hleaves,
      Forest.step_append hphase (hstep ▸ hcut) (hstep ▸ hcovered) hitem, hstep]
  rw [Forest.append, read_leaf_covered hnext hcut hcovered, if_neg]
  · exact hread outer other
  · exact Bool.eq_false_iff.mp (Course.isReady_of_isPending hpending)

theorem Declares.group {opening : Token} {inner : Forest} {closing : Option Token}
    (hstep : course.step (Sign.ofGroup opening inner) forest = step) (hcut : step.isCut = false)
    (hpending : step.course.isPending = true)
    (hrest : Declares step.course (draft.add (.group opening inner.tokens closing)) forest) :
    Declares course draft (.group opening inner closing forest) := by
  obtain ⟨header, ending, members, hmembers, hread⟩ := hrest
  refine ⟨header, ending, members, hmembers, fun outer other ↦ ?_⟩
  rw [Forest.append, read_group_uncut (Course.step_group_enclosed hstep outer other) hcut, if_neg]
  · exact hread outer other
  · exact Bool.eq_false_iff.mp (Course.isReady_of_isPending hpending)

theorem declares_braces {opening : Token} {inner : Forest} {closing : Option Token}
    (hstep : course.step (Sign.ofGroup opening inner) .empty = step) (hcut : step.isCut = false)
    (hnext : step.course = { content := .members }) :
    Declares course draft (.group opening inner closing .empty) := by
  have hgroup := Course.step_group_enclosed hstep
  obtain ⟨_, isCut, isCovered, inside⟩ := step
  obtain rfl : _ = ({ content := .members } : Course) := hnext
  refine ⟨_, _, membersOf draft inside inner, fun hmethod ↦ ?_, fun outer other ↦
    read_group_uncut (hgroup outer other) hcut⟩
  exact membersOf_of_isMethod hmethod inner

/-- A member is read as one declaration. -/
theorem declares_of_isItem (hphase : course.phase = .ready ∨ course.isPending = true)
    (hitem : forest.isItem course = true) (draft : Draft) : Declares course draft forest := by
  induction forest generalizing course draft with
  | empty => contradiction
  | leaf token rest ih =>
    simp only [Forest.isItem, Bool.and_eq_true, Bool.or_eq_true, Bool.not_eq_true',
      Bool.and_eq_false_iff, decide_eq_true_eq] at hitem
    obtain ⟨⟨⟨hcut, hcovered⟩, hleaves⟩, hend⟩ := hitem
    rcases hend with ⟨⟨hmark, hnext⟩, hempty⟩ | ⟨hpending, hrest⟩
    · obtain rfl := Forest.eq_empty_of_isEmpty hempty
      exact declares_semicolon hmark hnext
    · refine .leaf hphase rfl hcut hcovered ?_ hpending hrest (ih (.inr hpending) hrest _)
      rintro hsign hframes
      simp [hsign, hframes] at hleaves
  | group opening inner closing rest _ ih =>
    simp only [Forest.isItem, Bool.and_eq_true, Bool.or_eq_true, Bool.not_eq_true',
      decide_eq_true_eq] at hitem
    obtain ⟨hcut, ⟨hnext, hempty⟩ | ⟨hpending, hrest⟩⟩ := hitem
    · obtain rfl := Forest.eq_empty_of_isEmpty hempty
      exact declares_braces rfl hcut hnext
    · exact .group rfl hcut hpending (ih (.inr hpending) hrest _)

end Outline

/-! ### Groups in front of a member -/

namespace Course

variable {course other : Course} {sign : Sign}

/-- No more than attributes have been met, and conditional groups around them. -/
structure IsFront (course : Course) : Prop where
  content : course.content = .members
  isResting : course.isResting = true
  loops : course.loops = 0
  frames : ∀ frame ∈ course.frames, frame = .inner .begun

theorem isFront_new : IsFront { content := .members } :=
  ⟨rfl, rfl, rfl, List.forall_mem_nil _⟩

theorem IsFront.phase (hfront : course.IsFront) : course.phase = .ready ∨ course.phase = .begun := by
  simpa [Course.isResting, Phase.isResting] using hfront.isResting

theorem content_begin (course : Course) (sign : Sign) :
    (course.begin sign).course.content = course.content := by
  cases sign with
  | word text next =>
    unfold begin
    dsimp only
    split
    · rfl
    · split <;> rfl
  | mark text =>
    unfold begin
    dsimp only
    split <;> rfl
  | _ => rfl

theorem startPhase?_begun (text next : String) :
    startPhase? .begun text next = startPhase? .ready text next :=
  rfl

/-- Where no more than attributes have been met, an item begins as it does where nothing has. -/
theorem IsFront.begin_eq (hfront : course.IsFront) (sign : Sign) :
    let start : Course := { content := .members }
    (course.begin sign).course.phase = (start.begin sign).course.phase ∧
      (course.begin sign).course.loops = (start.begin sign).course.loops := by
  obtain ⟨content, phase, loops, frames⟩ := course
  obtain ⟨rfl, -, rfl, -⟩ := id hfront
  rcases hfront.phase with rfl | rfl
  · have henclosed := begin_enclosed { content := .members } frames sign
    exact ⟨congrArg (·.course.phase) henclosed, congrArg (·.course.loops) henclosed⟩
  · cases sign with
    | word text next =>
      unfold begin
      dsimp only
      rw [startPhase?_begun]
      simp only [ne_eq, not_true_eq_false, decide_false, Bool.and_false, Bool.false_eq_true,
        if_false]
      split <;> exact ⟨rfl, rfl⟩
    | mark text =>
      unfold begin
      dsimp only
      split <;> exact ⟨rfl, rfl⟩
    | _ => exact ⟨rfl, rfl⟩

/-- A loop is no more than begun where its statement is owed. -/
theorem startPhase?_do (next : String) : startPhase? .ready "do" next ≠ some .begun := by
  by_cases hlabel : next = ":" <;> simp [startPhase?, hlabel]

/-- What is behind attributes still is. -/
theorem IsFront.begin_begun (hfront : course.IsFront)
    (hbegun : (course.begin sign).course.phase = .begun) : (course.begin sign).course.IsFront where
  content := (content_begin course sign).trans hfront.content
  isResting := by simp [Course.isResting, Phase.isResting, hbegun]
  loops := by
    rw [(hfront.begin_eq sign).1] at hbegun
    rw [(hfront.begin_eq sign).2]
    cases sign with
    | word text next =>
      unfold begin at hbegun ⊢
      simp only [ne_eq, not_true_eq_false, decide_false, Bool.and_false, Bool.false_eq_true,
        if_false] at hbegun ⊢
      split at hbegun
      · rename_i hphase
        rw [if_neg]
        rintro rfl
        exact startPhase?_do next (hphase.trans (congrArg some hbegun))
      · rfl
    | mark text =>
      unfold begin
      dsimp only
      split <;> rfl
    | _ => rfl
  frames := by
    rw [(begin_spec course sign).1]
    exact hfront.frames

theorem IsFront.advance_eq (hfront : course.IsFront) (htrivia : sign ≠ .trivia)
    (hmark : sign ≠ .mark ";") : course.advance sign = course.begin sign := by
  unfold advance
  rcases hfront.phase with hphase | hphase <;> rw [hphase] <;> split <;>
    first | rfl | contradiction

/-- A group that opens in front of a member stands behind attributes at most, and is begun with the
member or lies between its attributes. -/
theorem IsFront.split (hfront : course.IsFront) {rest : Forest}
    (hcovered : (course.split rest).isCovered = true) :
    (course.split rest).course.IsFront ∧
      (course.split rest).course.frames = .inner .begun :: course.frames := by
  obtain ⟨content, phase, loops, frames⟩ := course
  obtain ⟨rfl, -, rfl, hframes⟩ := id hfront
  have hbegun : IsFront ⟨.members, .begun, 0, .inner .begun :: frames⟩ :=
    ⟨rfl, rfl, rfl, List.forall_mem_cons.mpr ⟨rfl, hframes⟩⟩
  rcases hfront.phase with rfl | rfl
  · cases hjoins : rest.joinsItem { content := .members } 0 with
    | false => simp [Course.split, hjoins] at hcovered
    | true => simpa [Course.split, hjoins] using hbegun
  · exact ⟨hbegun, rfl⟩

/-- A directive that parts or closes a group that the member has open. -/
theorem IsFront.leave (hfront : course.IsFront) (hframes : course.frames ≠ []) (isLast : Bool) :
    (course.leave isLast).course.IsFront ∧ ∃ inner, course.frames.length = inner + 1 ∧
      (course.leave isLast).course.frames.length = if isLast then inner else inner + 1 := by
  obtain ⟨content, phase, loops, _ | ⟨frame, frames⟩⟩ := course
  · contradiction
  · obtain ⟨rfl, -, rfl, hall⟩ := id hfront
    obtain ⟨rfl, htail⟩ := List.forall_mem_cons.mp hall
    cases isLast with
    | false => exact ⟨⟨rfl, rfl, rfl, hall⟩, frames.length, rfl, rfl⟩
    | true => exact ⟨⟨rfl, hfront.isResting, rfl, htail⟩, frames.length, rfl, rfl⟩

end Course

namespace Forest

variable {course joining : Course}

theorem ofToken_ne_line (token : Token) (rest : Forest) :
    Sign.ofToken token rest ≠ .branch .line := by
  unfold Sign.ofToken
  split <;> try exact Sign.noConfusion
  · split
    · exact Sign.noConfusion
    · rename_i hrole
      simpa using hrole
  · split <;> exact Sign.noConfusion
  · split <;> exact Sign.noConfusion

theorem ofGroup_ne_mark (opening : Token) (inner : Forest) (text : String) :
    Sign.ofGroup opening inner ≠ .mark text := by
  unfold Sign.ofGroup
  split
  · exact Sign.noConfusion
  · split <;> exact Sign.noConfusion

/-- A sign in front of which no more than attributes stand ends a member, or begins a phrase, or
leaves the member begun. Only in the last case what follows tells whether a group joins it. -/
theorem joinsItem_advance (hcourse : course.IsFront) (hjoining : joining.IsFront) {sign : Sign}
    (htrivia : sign ≠ .trivia) (hmark : sign ≠ .mark ";")
    (hend : (course.advance sign).course.isReady = true ∨
      (course.advance sign).course.isPending = true) {rest : Forest} {depth : Nat}
    (hrest : (course.advance sign).course.phase = .begun → (course.advance sign).course.IsFront →
      (joining.advance sign).course.IsFront →
      rest.joinsItem (joining.advance sign).course depth = false) :
    (!(joining.advance sign).isCut && !(joining.advance sign).course.isReady &&
      rest.joinsItem (joining.advance sign).course depth) = false := by
  rw [hcourse.advance_eq htrivia hmark] at hend hrest
  rw [hjoining.advance_eq htrivia hmark] at hrest ⊢
  have hphase : (joining.begin sign).course.phase = (course.begin sign).course.phase :=
    (hjoining.begin_eq sign).1.trans (hcourse.begin_eq sign).1.symm
  cases hbegin : (course.begin sign).course.phase with
  | ready => simp [Course.isReady, hphase, hbegin]
  | begun =>
    rw [hrest hbegin (hcourse.begin_begun hbegin) (hjoining.begin_begun (hphase.trans hbegin)),
      Bool.and_false]
  | phrase phrase =>
    rw [joinsItem_phrase _ (hphase.trans hbegin), Bool.and_false]
    rw [Course.content_begin, hjoining.content]
    exact Content.noConfusion
  | _ => simp [Course.isPending, Course.isReady, hbegin] at hend

theorem joinsItem_leaf {token : Token} {rest : Forest} (htrivia : Sign.ofToken token rest ≠ .trivia)
    (hbranch : ∀ role, Sign.ofToken token rest ≠ .branch role) (depth : Nat) :
    (leaf token rest).joinsItem course depth =
      (!(course.advance (Sign.ofToken token rest)).isCut &&
        !(course.advance (Sign.ofToken token rest)).course.isReady &&
        rest.joinsItem (course.advance (Sign.ofToken token rest)).course depth) := by
  conv => lhs; unfold joinsItem
  split
  · exact absurd ‹_› (hbranch _)
  · exact absurd ‹_› (hbranch _)
  · exact absurd ‹_› (hbranch _)
  · exact absurd ‹_› (hbranch _)
  · exact absurd ‹_› (hbranch _)
  · exact absurd ‹_› htrivia
  · rfl

/-- A directive of a conditional group within a member. The groups that the member has open are the
first to be closed. -/
theorem joinsItem_branch (hcourse : course.IsFront) {token : Token} {rest other : Forest}
    {role : Directive.Role} (hsign : Sign.ofToken token (rest.append other) = .branch role)
    (hcovered : (course.step (.branch role) rest).isCovered = true)
    (hopen : (Sign.branch role).leaves = true → course.frames ≠ []) {depth : Nat}
    (hrest : (course.step (.branch role) rest).course.IsFront →
      (rest.append other).joinsItem joining
        ((course.step (.branch role) rest).course.frames.length + depth) = false) :
    ((leaf token rest).append other).joinsItem joining (course.frames.length + depth) = false := by
  unfold append joinsItem
  rw [hsign]
  cases role with
  | line => exact absurd hsign (ofToken_ne_line _ _)
  | split =>
    obtain ⟨hnext, hframes⟩ := hcourse.split hcovered
    have hjoins := hrest hnext
    rw [Course.step, hframes, List.length_cons, Nat.add_right_comm] at hjoins
    exact hjoins
  | turn =>
    obtain ⟨hnext, inner, hlength, hinner⟩ := hcourse.leave (hopen rfl) false
    have hjoins := hrest hnext
    rw [Course.step, hinner, if_neg Bool.false_ne_true, Nat.add_right_comm] at hjoins
    rw [hlength, Nat.add_right_comm]
    exact hjoins
  | join =>
    obtain ⟨hnext, inner, hlength, hinner⟩ := hcourse.leave (hopen rfl) true
    have hjoins := hrest hnext
    rw [Course.step, hinner, if_pos rfl] at hjoins
    rw [hlength, Nat.add_right_comm]
    exact hjoins

/-- A member begins and ends in one, so a conditional group that opens in front of it, at any depth,
is no part of an item. -/
theorem joinsItem_append_of_isItem {forest : Forest} (hcourse : course.IsFront)
    (hjoining : joining.IsFront) (hitem : forest.isItem course = true) (depth : Nat)
    (other : Forest) :
    (forest.append other).joinsItem joining (course.frames.length + depth) = false := by
  induction forest generalizing course joining depth with
  | empty => contradiction
  | leaf token rest ih =>
    simp only [isItem, Bool.and_eq_true, Bool.or_eq_true, Bool.not_eq_true',
      Bool.and_eq_false_iff, decide_eq_true_eq] at hitem
    obtain ⟨⟨⟨hcut, hcovered⟩, hleaves⟩, hend⟩ := hitem
    rcases hend with ⟨⟨hmark, -⟩, -⟩ | ⟨hpending, hrest⟩
    · unfold append joinsItem
      rw [ofToken_semicolon hmark]
      simp [Course.advance, Course.isReady]
    · have hsame := ofToken_append (isTrivial_of_isItem hrest) token other
      by_cases hbranch : ∃ role, Sign.ofToken token rest = .branch role
      · obtain ⟨role, hsign⟩ := hbranch
        rw [hsign] at hsame hcovered hleaves hrest
        refine joinsItem_branch hcourse hsame hcovered ?_ fun hnext ↦ ih hnext hjoining hrest depth
        rintro hsigns hframes
        simp [hsigns, hframes] at hleaves
      · by_cases htrivia : Sign.ofToken token rest = .trivia
        · unfold append joinsItem
          rw [hsame, htrivia]
          rw [htrivia] at hrest
          exact ih hcourse hjoining hrest depth
        · have hbranch := not_exists.mp hbranch
          rw [append, joinsItem_leaf (hsame ▸ htrivia) (hsame ▸ hbranch), hsame]
          have hmark : Sign.ofToken token rest ≠ .mark ";" := by
            rintro hmark
            rw [hmark] at hpending
            contradiction
          rw [Course.step_eq_advance course hbranch] at hpending hrest
          refine joinsItem_advance hcourse hjoining htrivia hmark (.inr hpending)
            fun _ hnext hother ↦ ?_
          rw [← (course.advance_spec htrivia).1]
          exact ih hnext hother hrest depth
  | group opening inner closing rest _ ih =>
    simp only [isItem, Bool.and_eq_true, Bool.or_eq_true, Bool.not_eq_true',
      decide_eq_true_eq] at hitem
    obtain ⟨htrivia, hbranch⟩ := sign_ofGroup opening inner
    rw [Course.step_eq_advance course hbranch] at hitem
    have hend := hitem.2.imp (fun hend ↦ congrArg Course.isReady hend.1) And.left
    refine joinsItem_advance hcourse hjoining htrivia (ofGroup_ne_mark opening inner ";") hend
      fun hbegun hnext hother ↦ ?_
    rcases hitem.2 with ⟨hready, -⟩ | ⟨-, hrest⟩
    · rw [hready] at hbegun
      contradiction
    · rw [← (course.advance_spec htrivia).1]
      exact ih hnext hother hrest depth

end Forest

end Conform.Source
