import Conform.Proofs.Source.Boundary

/-!
What the code of a row leaves out. A token that is no trivia stands within the code of its row, or
behind a directive of a conditional group with no code between the two (`Row.isAccountedFrom`). The
code is left only where a group opens between two items, and all that it holds is passed over.
-/

set_option autoImplicit false

namespace Conform.Source

/-- Whether a token is a directive that opens, parts or closes a conditional group. -/
def Token.isBranch (token : Token) : Bool :=
  token.kind == .directive && token.role != .line

theorem Token.isBranch_of_sign {token : Token} {rest : Forest} {role : Directive.Role}
    (hsign : Sign.ofToken token rest = .branch role) :
    token.isBranch = true ∧ token.isTrivia = true := by
  unfold Sign.ofToken at hsign
  split at hsign <;> rename_i hkind
  case h_3 =>
    split at hsign
    · contradiction
    · rename_i hrole
      simp [Token.isBranch, Token.isTrivia, hkind, hrole]
  all_goals first
    | contradiction
    | (split at hsign <;> contradiction)

/-! ### Groups between items -/

namespace Course

variable {course : Course}

theorem isFree_congr {other : Course} (hframes : other.frames = course.frames) :
    other.isFree = course.isFree := by
  rw [isFree, isFree, hframes]

/-- A directive that parts or closes a conditional group opens none. -/
theorem isFree_leave (hfree : course.isFree = false) (isLast : Bool) :
    (course.leave isLast).course.isFree = false := by
  have hframes : .free ∉ course.frames := by simpa [isFree] using hfree
  unfold leave
  rcases hcons : course.frames with _ | ⟨frame, frames⟩
  · simpa [hcons] using hfree
  · rw [hcons] at hframes
    have hrest : .free ∉ frames := fun hmem ↦ hframes (List.mem_cons_of_mem _ hmem)
    cases frame with
    | free => exact absurd List.mem_cons_self hframes
    | _ => cases isLast <;> simpa [isFree] using hrest

/-- A conditional group that opens between two items begins no item. -/
theorem frames_split (course : Course) (rest : Forest) :
    ∃ frame, (course.split rest).course.frames = frame :: course.frames ∧
      (frame = .free → (course.split rest).isCovered = false) := by
  unfold split
  extract_lets isCut push phase isJoined
  cases phase with
  | ready =>
    dsimp only
    split
    · exact ⟨_, rfl, Frame.noConfusion⟩
    · exact ⟨_, rfl, fun _ ↦ rfl⟩
  | owed =>
    refine ⟨_, rfl, ?_⟩
    split <;> exact Frame.noConfusion
  | _ => exact ⟨_, rfl, Frame.noConfusion⟩

/-- Only a directive that opens a conditional group between two items ends the code of a row, and it
is not covered. -/
theorem step_of_isFree (hfree : course.isFree = false) {sign : Sign} {rest : Forest}
    (hopens : (course.step sign rest).course.isFree = true) :
    sign = .branch .split ∧ (course.step sign rest).isCovered = false := by
  have hadvance : (course.advance sign).course.frames = course.frames := by
    by_cases htrivia : sign = .trivia
    · rw [htrivia, advance]
    · exact (course.advance_spec htrivia).1
  unfold step at hopens ⊢
  split at hopens
  · obtain ⟨frame, hframes, hcovered⟩ := course.frames_split rest
    refine ⟨rfl, hcovered ?_⟩
    rw [isFree, hframes, List.contains_cons, ← isFree, hfree, Bool.or_false] at hopens
    exact (eq_of_beq hopens).symm
  · exact absurd hopens (by simp [isFree_leave hfree])
  · exact absurd hopens (by simp [isFree_leave hfree])
  · exact absurd hopens (by simp [isFree_congr hadvance, hfree])

end Course

/-! ### The code of a tree -/

namespace Forest

variable {course : Course}

theorem code_leaf_of_isFree (hfree : course.isFree = true) (token : Token) (rest : Forest) :
    (leaf token rest).code course =
      rest.code (course.step (Sign.ofToken token rest) rest).course := by
  rw [code, hfree]
  exact if_neg (by simp)

theorem code_group_of_isFree (hfree : course.isFree = true) (opening : Token) (inner : Forest)
    (closing : Option Token) (rest : Forest) :
    (group opening inner closing rest).code course =
      rest.code (course.step (Sign.ofGroup opening inner) rest).course := by
  rw [code]
  exact if_pos hfree

/-- A token is code, or it is trivia; where a conditional group between two items opens behind it,
it is the directive that opens the group. -/
theorem code_leaf_or (hfree : course.isFree = false) {token : Token}
    (hclosing : isClosing token = false) (rest : Forest) :
    (∃ next : Course, next.isFree = false ∧
      (leaf token rest).code course = ⟨token.start, token.stop⟩ :: rest.code next) ∨
    token.isTrivia = true ∧ ∃ next : Course, (leaf token rest).code course = rest.code next ∧
      (next.isFree = true → token.isBranch = true) := by
  cases htrivia : token.isTrivia with
  | false =>
    obtain ⟨next, hframes, hcode⟩ := code_leaf hfree htrivia hclosing rest
    exact .inl ⟨next, (Course.isFree_congr hframes).trans hfree, hcode⟩
  | true =>
    have hopens := @Course.step_of_isFree course hfree (Sign.ofToken token rest) rest
    rw [code]
    split
    · rename_i hcode
      refine .inl ⟨_, Bool.eq_false_iff.mpr fun hfree ↦ ?_, rfl⟩
      simp [(hopens hfree).2] at hcode
    · exact .inr ⟨rfl, _, rfl, fun hfree ↦ (Token.isBranch_of_sign (hopens hfree).1).1⟩

end Forest

/-! ### Tokens and the code around them -/

/-- A token stands within the code of a row, or behind a directive of a conditional group with no
code between the two. -/
def IsAccounted (tokens : List Token) (code : Option Span) (token : Token) : Prop :=
  (∃ span ∈ code, span.start ≤ token.start ∧ token.stop ≤ span.stop) ∨
    ∃ directive ∈ tokens, directive.isBranch = true ∧ directive.stop ≤ token.start ∧
      ∀ span ∈ code, span.stop ≤ directive.start ∨ token.stop ≤ span.start

theorem IsAccounted.mono {tokens others : List Token} {code : Option Span} {token : Token}
    (haccounted : IsAccounted tokens code token) (hsubset : tokens ⊆ others) :
    IsAccounted others code token := by
  rcases haccounted with hwithin | ⟨directive, hdirective, hbehind⟩
  · exact .inl hwithin
  · exact .inr ⟨directive, hsubset hdirective, hbehind⟩

namespace Forest

/-- Behind a course a token of a forest is accounted for, or a conditional group between two items
is open before the forest and the token stands in front of all code. -/
def IsAccountedFrom (course : Course) (forest : Forest) (token : Token) : Prop :=
  IsAccounted forest.tokens (hull (forest.code course)) token ∨
    course.isFree = true ∧ ∀ span ∈ hull (forest.code course), token.stop ≤ span.start

/-- A forest begins with a tree from one byte to another, and the rest stands behind it. -/
structure Begins (forest : Forest) (tree : List Token) (start stop : Nat) (rest : Forest) :
    Prop where
  tokens_eq : forest.tokens = tree ++ rest.tokens
  start_le : start ≤ stop
  tree_bounds : ∀ token ∈ tree, start ≤ token.start ∧ token.stop ≤ stop
  le_start : ∀ token ∈ rest.tokens, stop ≤ token.start
  code_bounds : ∀ course, ∀ span ∈ hull (rest.code course),
    stop ≤ span.start ∧ span.start ≤ span.stop

namespace Begins

variable {course next : Course} {forest rest : Forest} {tree : List Token} {start stop : Nat}
  {token : Token}

/-- Assumes: the code is that of the rest. What is accounted for in the rest stays so. -/
theorem passed (hbegins : forest.Begins tree start stop rest)
    (hcode : forest.code course = rest.code next)
    (haccounted : IsAccounted rest.tokens (hull (rest.code next)) token) :
    IsAccounted forest.tokens (hull (forest.code course)) token := by
  rw [hcode, hbegins.tokens_eq]
  exact haccounted.mono (List.subset_append_right _ _)

/-- In a conditional group between two items a tree is no code. -/
theorem free (hbegins : forest.Begins tree start stop rest) (hfree : course.isFree = true)
    (hcode : forest.code course = rest.code next) (htoken : token ∈ forest.tokens)
    (hrest : token ∈ rest.tokens → rest.IsAccountedFrom next token) :
    forest.IsAccountedFrom course token := by
  rw [hbegins.tokens_eq] at htoken
  rcases List.mem_append.mp htoken with htree | htoken
  · refine .inr ⟨hfree, fun span hspan ↦ ?_⟩
    rw [hcode] at hspan
    exact Nat.le_trans (hbegins.tree_bounds token htree).2 (hbegins.code_bounds next span hspan).1
  · rcases hrest htoken with haccounted | ⟨-, hbefore⟩
    · exact .inl (hbegins.passed hcode haccounted)
    · exact .inr ⟨hfree, hcode ▸ hbefore⟩

/-- What is accounted for behind a tree stays so where the tree is code. -/
theorem covered_behind (hbegins : forest.Begins tree start stop rest) (htoken : token ∈ rest.tokens)
    (haccounted : IsAccounted rest.tokens (hull (rest.code next)) token) :
    IsAccounted rest.tokens (hull (⟨start, stop⟩ :: rest.code next)) token := by
  have hstart := Nat.le_trans hbegins.start_le (hbegins.le_start token htoken)
  rw [hull_cons]
  rcases haccounted with ⟨span, hspan, -, hwithin⟩ |
    ⟨directive, hdirective, hbranch, hbehind, hapart⟩
  · rw [hspan]
    exact .inl ⟨_, rfl, hstart, hwithin⟩
  · cases hinner : hull (rest.code next) with
    | none =>
      refine .inr ⟨directive, hdirective, hbranch, hbehind, fun span hspan ↦ .inl ?_⟩
      cases hspan
      exact hbegins.le_start directive hdirective
    | some inner =>
      rcases hapart inner hinner with hbefore | hbefore
      · refine .inr ⟨directive, hdirective, hbranch, hbehind, fun span hspan ↦ .inl ?_⟩
        cases hspan
        exact hbefore
      -- A token between the tree and the code behind it is between the ends of the hull.
      · have hwidth := (hbegins.code_bounds next inner hinner).2
        exact .inl ⟨_, rfl, hstart, Nat.le_trans hbefore hwidth⟩

/-- A tree that is code holds its own tokens, and what is accounted for behind it stays so. -/
theorem covered (hbegins : forest.Begins tree start stop rest)
    (hcode : forest.code course = ⟨start, stop⟩ :: rest.code next)
    (htoken : token ∈ forest.tokens)
    (hrest : token ∈ rest.tokens → IsAccounted rest.tokens (hull (rest.code next)) token) :
    IsAccounted forest.tokens (hull (forest.code course)) token := by
  rw [hcode]
  rw [hbegins.tokens_eq] at htoken ⊢
  rcases List.mem_append.mp htoken with htree | htoken
  · obtain ⟨hbefore, hbehind⟩ := hbegins.tree_bounds token htree
    rw [hull_cons]
    refine .inl ⟨_, rfl, hbefore, ?_⟩
    cases hinner : hull (rest.code next) with
    | none => exact hbehind
    | some inner =>
      obtain ⟨hstart, hwidth⟩ := hbegins.code_bounds next inner hinner
      exact Nat.le_trans hbehind (Nat.le_trans hstart hwidth)
  · exact (hbegins.covered_behind htoken (hrest htoken)).mono (List.subset_append_right _ _)

end Begins

end Forest

namespace Row

variable {place : Place} {token : Token}

theorem token_bounds {row : Row} (htoken : token ∈ (row.forest place).tokens) :
    place.byte ≤ token.start ∧ token.start ≤ token.stop ∧
      token.stop ≤ (place.after row.chars).byte := by
  rw [tokens_forest] at htoken
  exact Token.place_bounds htoken

/-- A row is a tree in front of the rest of it. -/
theorem begins_append (tree : Row) {rest : Row}
    (hfilled : ∀ lexeme ∈ rest.lexemes, lexeme.chars ≠ []) (place : Place) :
    ((tree.append rest).forest place).Begins (tree.forest place).tokens place.byte
      (place.after tree.chars).byte (rest.forest (place.after tree.chars)) where
  tokens_eq := by
    rw [tokens_forest, tokens_forest, tokens_forest, lexemes_append]
    exact Token.place_append place tree.lexemes rest.lexemes
  start_le := place.byte_le_after _
  tree_bounds := by
    intro token htoken
    obtain ⟨hstart, -, hstop⟩ := token_bounds htoken
    exact ⟨hstart, hstop⟩
  le_start := fun token htoken ↦ (token_bounds htoken).1
  code_bounds := by
    intro course span hspan
    obtain ⟨hstart, hwidth, -⟩ := hull_code_bounds hfilled _ course hspan
    exact ⟨hstart, Nat.le_of_lt hwidth⟩

theorem begins_single (lexeme : Lexeme) {rest : Row}
    (hfilled : ∀ lexeme ∈ rest.lexemes, lexeme.chars ≠ []) (place : Place) :
    ((single lexeme rest).forest place).Begins [lexeme.at place] place.byte
      (place.after lexeme.chars).byte (rest.forest (place.after lexeme.chars)) := by
  have hbegins := (single lexeme empty).begins_append hfilled place
  rwa [chars_single, chars_empty, List.append_nil] at hbegins

theorem begins_group (bracket : Bracket) (inner : Row) {rest : Row}
    (hfilled : ∀ lexeme ∈ rest.lexemes, lexeme.chars ≠ []) (place : Place) :
    ((group bracket inner rest).forest place).Begins
      ((group bracket inner empty).forest place).tokens place.byte
      (((place.after bracket.opening.chars).after inner.chars).after bracket.closing.chars).byte
      (rest.forest
        (((place.after bracket.opening.chars).after inner.chars).after bracket.closing.chars)) := by
  have hbegins := (group bracket inner empty).begins_append hfilled place
  rwa [chars_group, chars_empty, List.append_nil, Place.after_append, Place.after_append] at hbegins

/-- Assumes: a row whose brackets are in groups and whose lexemes are not empty. Each token of the
row that is no trivia is accounted for. -/
theorem isAccountedFrom {row : Row} (hplain : row.IsPlain)
    (hfilled : ∀ lexeme ∈ row.lexemes, lexeme.chars ≠ []) (course : Course)
    (htoken : token ∈ (row.forest place).tokens) (htrivia : token.isTrivia = false) :
    (row.forest place).IsAccountedFrom course token := by
  induction row generalizing place course with
  | empty => contradiction
  | single lexeme rest ih =>
    obtain ⟨-, hfilled⟩ := List.forall_mem_cons.mp hfilled
    obtain ⟨hbracket, hplain⟩ := hplain
    have hbegins := begins_single lexeme hfilled place
    have hrest := fun next ↦ @ih (place.after lexeme.chars) hplain hfilled next
    cases hfree : course.isFree with
    | true => exact hbegins.free hfree (Forest.code_leaf_of_isFree hfree _ _) htoken (hrest _)
    | false =>
      refine .inl ?_
      rcases Forest.code_leaf_or hfree (not_bracket_at hbracket place).2
          (rest.forest (place.after lexeme.chars)) with
        ⟨next, hnext, hcode⟩ | ⟨hskipped, next, hcode, hbranch⟩
      · exact hbegins.covered hcode htoken fun htoken ↦
          (hrest next htoken).resolve_right (by simp [hnext])
      · rcases List.mem_cons.mp htoken with rfl | htoken
        · exact absurd hskipped (by simp [htrivia])
        · rcases hrest next htoken with haccounted | ⟨hopens, hbefore⟩
          · exact hbegins.passed hcode haccounted
          -- What follows a directive that opens a group stands behind this directive.
          · exact .inr ⟨lexeme.at place, List.mem_cons_self, hbranch hopens,
              hbegins.le_start token htoken, fun span hspan ↦ .inr (hbefore span (hcode ▸ hspan))⟩
  | group bracket inner rest _ ih =>
    have hfilled : ∀ lexeme ∈ rest.lexemes, lexeme.chars ≠ [] := fun lexeme hlexeme ↦
      hfilled lexeme (by simp [lexemes, hlexeme])
    have hbegins := begins_group bracket inner hfilled place
    have hrest := fun next ↦ @ih
      (((place.after bracket.opening.chars).after inner.chars).after bracket.closing.chars)
      hplain.2 hfilled next
    cases hfree : course.isFree with
    | true => exact hbegins.free hfree (Forest.code_group_of_isFree hfree _ _ _ _) htoken (hrest _)
    | false =>
      obtain ⟨next, hframes, hcode⟩ := Forest.code_group hfree
        (bracket.opening.at place) (inner.forest (place.after bracket.opening.chars))
        (some (bracket.closing.at ((place.after bracket.opening.chars).after inner.chars)))
        (rest.forest
          (((place.after bracket.opening.chars).after inner.chars).after bracket.closing.chars))
      have hnext := (Course.isFree_congr hframes).trans hfree
      exact .inl (hbegins.covered hcode htoken fun htoken ↦
        (hrest next htoken).resolve_right (by simp [hnext]))

end Row

end Conform.Source
