import Conform.Proofs.Source.Row
import Conform.Source.Block

/-!
The code of a block where no conditional group is open: every tree but trivia is covered by an item,
a semicolon leaves the row ready for the next one, and a comment between two items is no code. The
span of the statements is the hull of the code (`Forest.statements?_eq_hull`), and a row of trees may
be replaced by its hull when it is put together with others (`hull_append`).
-/

set_option autoImplicit false

namespace Conform.Source

/-! ### The course of a statement -/

namespace Course

/-- Whatever an item begins with, it is covered, and conditional groups stay as they are. -/
theorem begin_spec (course : Course) (sign : Sign) :
    (course.begin sign).course.frames = course.frames ∧ (course.begin sign).isCovered = true := by
  cases sign with
  | word text next =>
    unfold begin
    dsimp only
    split
    · exact ⟨rfl, rfl⟩
    · split <;> exact ⟨rfl, rfl⟩
  | mark text =>
    unfold begin
    dsimp only
    split <;> exact ⟨rfl, rfl⟩
  | _ => exact ⟨rfl, rfl⟩

/-- Assumes: a tree that is no trivia. It belongs to an item, and conditional groups stay as they
are. -/
theorem advance_spec (course : Course) {sign : Sign} (htrivia : sign ≠ .trivia) :
    (course.advance sign).course.frames = course.frames ∧
      (course.advance sign).isCovered = true := by
  unfold advance
  split
  · exact absurd rfl htrivia
  · exact ⟨rfl, rfl⟩
  · dsimp only
    split
    · split <;> exact ⟨rfl, rfl⟩
    · split <;> exact ⟨rfl, rfl⟩
    · split
      -- Where a phrase does not go on, an item begins.
      · split
        · exact ⟨rfl, rfl⟩
        · exact begin_spec { course with phase := .ready } .brace
      · split
        · exact ⟨rfl, rfl⟩
        · exact begin_spec { course with phase := .ready } sign
    · exact begin_spec course sign

theorem isFree_eq_false {course : Course} (hframes : course.frames = []) :
    course.isFree = false := by
  rw [isFree, hframes]
  rfl

end Course

/-- Assumes: a lexeme whose line goes on behind it. It is neither a comment nor a directive. -/
theorem Lexeme.Stands.kind_ne {lexeme : Lexeme} {behind : List Char}
    (hstands : lexeme.Stands behind) (hline : ∃ c ∈ behind.head?, isLineEnd c = false) :
    lexeme.kind ≠ .comment ∧ lexeme.kind ≠ .directive := by
  obtain ⟨c, hc, hend⟩ := hline
  cases hstands
  case comment hbehind => exact absurd (hbehind c hc) (hend ▸ Bool.false_ne_true)
  all_goals exact ⟨Lexeme.Kind.noConfusion, Lexeme.Kind.noConfusion⟩

namespace Forest

variable {course : Course}

theorem code_blank (token : Token) (rest : Forest) (hkind : token.kind = .blank) :
    code course (leaf token rest) = code course rest := by
  have hsign : Sign.ofToken token rest = .trivia := by
    rw [Sign.ofToken, hkind]
  simp [code, hsign, Course.step, Course.advance, hkind]

theorem code_comment (token : Token) (rest : Forest) (hkind : token.kind = .comment)
    (hready : course.phase = .ready) : code course (leaf token rest) = code course rest := by
  have hsign : Sign.ofToken token rest = .trivia := by
    rw [Sign.ofToken, hkind]
  simp [code, hsign, Course.step, Course.advance, Course.isReady, hready]

/-- A tree whose sign is neither trivia nor of a directive belongs to a statement, and conditional
groups stay as they are. -/
theorem step_covered (course : Course) {sign : Sign} (htrivia : sign ≠ .trivia)
    (hbranch : ∀ role, sign ≠ .branch role) (rest : Forest) :
    (course.step sign rest).course.frames = course.frames ∧
      (course.step sign rest).isCovered = true := by
  have hstep : course.step sign rest = course.advance sign := by
    unfold Course.step
    split
    · exact absurd rfl (hbranch _)
    · exact absurd rfl (hbranch _)
    · exact absurd rfl (hbranch _)
    · rfl
  rw [hstep]
  exact course.advance_spec htrivia

/-- The sign of a token that is neither trivia nor a closing bracket. -/
theorem sign_ofToken {token : Token} (rest : Forest) (htrivia : token.isTrivia = false)
    (hclosing : isClosing token = false) :
    Sign.ofToken token rest ≠ .trivia ∧ ∀ role, Sign.ofToken token rest ≠ .branch role := by
  unfold Sign.ofToken
  split <;> rename_i hkind
  · simp [Token.isTrivia, hkind] at htrivia
  · simp [Token.isTrivia, hkind] at htrivia
  · simp [Token.isTrivia, hkind] at htrivia
  · exact ⟨Sign.noConfusion, fun _ ↦ Sign.noConfusion⟩
  · split <;> exact ⟨Sign.noConfusion, fun _ ↦ Sign.noConfusion⟩
  · rw [hclosing]
    exact ⟨Sign.noConfusion, fun _ ↦ Sign.noConfusion⟩

theorem sign_ofGroup (opening : Token) (inner : Forest) :
    Sign.ofGroup opening inner ≠ .trivia ∧ ∀ role, Sign.ofGroup opening inner ≠ .branch role := by
  unfold Sign.ofGroup
  split
  · exact ⟨Sign.noConfusion, fun _ ↦ Sign.noConfusion⟩
  · split <;> exact ⟨Sign.noConfusion, fun _ ↦ Sign.noConfusion⟩

/-- Assumes: no conditional group between two items is open. A token that is no trivia is code. -/
theorem code_leaf (hfree : course.isFree = false) {token : Token} (htrivia : token.isTrivia = false)
    (hclosing : isClosing token = false) (rest : Forest) :
    ∃ next : Course, next.frames = course.frames ∧
      code course (leaf token rest) = ⟨token.start, token.stop⟩ :: code next rest := by
  obtain ⟨hsign, hbranch⟩ := sign_ofToken rest htrivia hclosing
  obtain ⟨hnext, hcovered⟩ := step_covered course hsign hbranch rest
  have hblank : token.kind ≠ .blank := by
    intro hkind
    simp [Token.isTrivia, hkind] at htrivia
  refine ⟨_, hnext, ?_⟩
  rw [code, hcovered, hfree]
  exact if_pos (by simpa using hblank)

/-- Assumes: no conditional group between two items is open. A group in brackets is code. -/
theorem code_group (hfree : course.isFree = false) (opening : Token) (inner : Forest)
    (closing : Option Token) (rest : Forest) :
    ∃ next : Course, next.frames = course.frames ∧
      code course (group opening inner closing rest) =
        ⟨opening.start, groupStop opening inner closing⟩ :: code next rest := by
  obtain ⟨hsign, hbranch⟩ := sign_ofGroup opening inner
  obtain ⟨hnext, -⟩ := step_covered course hsign hbranch rest
  refine ⟨_, hnext, ?_⟩
  rw [code, hfree]
  rfl

/-- A semicolon is the last token of its statement. -/
theorem code_semicolon (hframes : course.frames = []) (place : Place) (rest : Forest) :
    ∃ next : Course, next.phase = .ready ∧ next.frames = [] ∧
      code course (leaf ⟨.mark, String.ofList [';'], place.byte, place.row⟩ rest) =
        ⟨place.byte, place.byte + 1⟩ :: code next rest := by
  have hsign : Sign.ofToken ⟨.mark, String.ofList [';'], place.byte, place.row⟩ rest = .mark ";" :=
    rfl
  have hstop : Text.bytes [';'] = 1 := by decide
  refine ⟨{ course with phase := .ready }, rfl, hframes, ?_⟩
  rw [code, hsign, Course.isFree_eq_false hframes, Token.stop]
  simp [Course.step, Course.advance, hstop]

end Forest

/-! ### The hull of some spans -/

/-- The span from the first of some spans to the last. -/
def hull (spans : List Span) : Option Span := do
  let first ← spans.head?
  let last ← spans.getLast?
  return ⟨first.start, last.stop⟩

theorem Forest.statements?_eq_hull (inner : Forest) :
    inner.statements? = hull (inner.code { content := .statements }) := by
  unfold Forest.statements?
  cases inner.code { content := .statements } with
  | nil => rfl
  | cons first rest => cases h : rest.getLast? <;> simp [hull, List.getLast?_cons, h]

theorem hull_eq_some {spans : List Span} {start stop : Nat}
    (hstart : spans.head?.map Span.start = some start)
    (hstop : spans.getLast?.map Span.stop = some stop) : hull spans = some ⟨start, stop⟩ := by
  obtain ⟨first, hfirst, rfl⟩ := Option.map_eq_some_iff.mp hstart
  obtain ⟨last, hlast, rfl⟩ := Option.map_eq_some_iff.mp hstop
  rw [hull, hfirst, hlast]
  rfl

theorem hull_cons (span : Span) (spans : List Span) :
    hull (span :: spans) = some ⟨span.start, ((hull spans).map Span.stop).getD span.stop⟩ := by
  cases spans with
  | nil => rfl
  | cons first rest => simp [hull, List.getLast?_cons]

/-- Spans in front may be replaced by their hull. -/
theorem hull_append {spans others : List Span} {span : Span} (hspans : hull spans = some span) :
    hull (spans ++ others) = hull (span :: others) := by
  induction spans generalizing span with
  | nil => contradiction
  | cons first rest ih =>
    rw [hull_cons] at hspans
    rw [List.cons_append, hull_cons, hull_cons, ← Option.some.inj hspans]
    cases hrest : hull rest with
    | none =>
      have hnil : rest = [] := by
        cases rest with
        | nil => rfl
        | cons second rest => rw [hull_cons] at hrest; contradiction
      rw [hnil]
      rfl
    | some inner => rw [ih hrest, hull_cons]; rfl

/-- Spans one behind the other lie between the start of the first and the end of the last. -/
theorem hull_cons_bounds {first span : Span} {spans : List Span} {middle stop : Nat}
    (hfirst : first.start < first.stop ∧ first.stop ≤ middle) (hmiddle : middle ≤ stop)
    (hspans : ∀ span, hull spans = some span →
      middle ≤ span.start ∧ span.start < span.stop ∧ span.stop ≤ stop)
    (hspan : hull (first :: spans) = some span) :
    first.start = span.start ∧ span.start < span.stop ∧ span.stop ≤ stop := by
  rw [hull_cons] at hspan
  cases hrest : hull spans with
  | none =>
    rw [hrest] at hspan
    cases hspan
    exact ⟨rfl, hfirst.1, Nat.le_trans hfirst.2 hmiddle⟩
  | some rest =>
    rw [hrest] at hspan
    cases hspan
    have hbounds := hspans rest hrest
    refine ⟨rfl, ?_, hbounds.2.2⟩
    change first.start < rest.stop
    omega

/-- Assumes: a row whose lexemes are not empty. Its statements lie in the row and are not empty. -/
theorem Row.hull_code_bounds {row : Row} (hfilled : ∀ lexeme ∈ row.lexemes, lexeme.chars ≠ [])
    (place : Place) (course : Course) {span : Span}
    (hspan : hull ((row.forest place).code course) = some span) :
    place.byte ≤ span.start ∧ span.start < span.stop ∧
      span.stop ≤ (place.after row.chars).byte := by
  induction row generalizing place course span with
  | empty => contradiction
  | single lexeme rest ih =>
    obtain ⟨hlexeme, hfilled⟩ := List.forall_mem_cons.mp hfilled
    have hrest := fun course span ↦ @ih hfilled (place.after lexeme.chars) course span
    have hpositive := place.byte_lt_after hlexeme
    rw [chars_single, Place.after_append]
    rw [forest, Forest.code] at hspan
    split at hspan
    · have hbounds := hull_cons_bounds ⟨hpositive, Nat.le_refl _⟩ (Nat.le_add_right _ _)
        (hrest _) hspan
      exact ⟨Nat.le_of_eq hbounds.1, hbounds.2⟩
    · have hbounds := hrest _ _ hspan
      omega
  | group bracket inner rest _ ih =>
    have hfilled : ∀ lexeme ∈ rest.lexemes, lexeme.chars ≠ [] := fun lexeme hlexeme ↦
      hfilled lexeme (by simp [lexemes, hlexeme])
    have hrest := fun course span ↦ @ih hfilled
      (((place.after bracket.opening.chars).after inner.chars).after bracket.closing.chars)
        course span
    have hpositive := byte_lt_after_group bracket place inner
    rw [chars_group, Place.after_append, Place.after_append, Place.after_append]
    rw [forest, Forest.code] at hspan
    split at hspan
    · have hbounds := hrest _ _ hspan
      omega
    · have hbounds := hull_cons_bounds ⟨hpositive, Nat.le_refl _⟩ (Nat.le_add_right _ _)
        (hrest _) hspan
      exact ⟨Nat.le_of_eq hbounds.1, hbounds.2⟩

theorem getLast?_stop_cons {spans : List Span} {stop : Nat}
    (hstop : spans.getLast?.map Span.stop = some stop) (span : Span) :
    (span :: spans).getLast?.map Span.stop = some stop := by
  obtain ⟨last, hlast, rfl⟩ := Option.map_eq_some_iff.mp hstop
  rw [List.getLast?_cons, hlast]
  rfl

end Conform.Source
