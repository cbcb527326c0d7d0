import Conform.Proofs.Source.Lexeme
import Conform.Proofs.Text.Span
import Conform.Source.Forest

/-!
Written rows: lexemes and bracketed groups of them, not yet at any place. A row says how a source is
meant to be read, and reading gives it back: if every lexeme of a row stands before what follows it,
then the forest of the source that the row is written as is the row itself, each lexeme at the place
where it is written (`Row.ofSource_chars`).
-/

set_option autoImplicit false

namespace Conform.Source

/-! ### Nested forests -/

namespace Forest

theorem append_empty (forest : Forest) : forest.append empty = forest := by
  induction forest with
  | empty => rfl
  | leaf token rest ih => rw [append, ih]
  | group opening inner closing rest _ ih => rw [append, ih]

/-- Whether the groups of a forest are those that its brackets make. -/
def IsNested : Forest → Prop
  | empty => True
  | leaf token rest => isOpening token = false ∧ isClosing token = false ∧ rest.IsNested
  | group opening inner closing rest =>
    isOpening opening = true ∧ isClosing opening = false ∧
      (∃ token, closing = some token ∧ isClosing token = true) ∧ inner.IsNested ∧ rest.IsNested

theorem grow_single {token : Token} (hopening : isOpening token = false)
    (hclosing : isClosing token = false) (row : Forest) (pending : List (Token × Forest)) :
    grow token (row, pending) = (leaf token row, pending) := by
  simp [grow, hopening, hclosing]

theorem grow_closing {token : Token} (hclosing : isClosing token = true) (row : Forest)
    (pending : List (Token × Forest)) :
    grow token (row, pending) = (empty, (token, row) :: pending) := by
  simp [grow, hclosing]

theorem grow_opening {token : Token} (hopening : isOpening token = true)
    (hclosing : isClosing token = false) (row behind : Forest) (closing : Token)
    (pending : List (Token × Forest)) :
    grow token (row, (closing, behind) :: pending) =
      (group token row (some closing) behind, pending) := by
  simp [grow, hopening, hclosing]

/-- Growing the tokens of a nested forest puts the forest in front of the row at hand. -/
theorem foldr_grow_tokens {forest : Forest} (hnested : forest.IsNested) (growth : Growth) :
    forest.tokens.foldr grow growth = (forest.append growth.1, growth.2) := by
  induction forest generalizing growth with
  | empty => rfl
  | leaf token rest ih =>
    obtain ⟨hopening, hclosing, hrest⟩ := hnested
    rw [tokens, List.foldr_cons, ih hrest, grow_single hopening hclosing]
    rfl
  | group opening inner closing rest ihInner ihRest =>
    obtain ⟨hopening, hunclosing, ⟨token, rfl, hclosing⟩, hinner, hrest⟩ := hnested
    rw [tokens, Option.toList_some, List.append_assoc, List.cons_append, List.foldr_cons,
      List.foldr_append, List.singleton_append, List.foldr_cons, ihRest hrest,
      grow_closing hclosing, ihInner hinner, grow_opening hopening hunclosing, append_empty]
    rfl

theorem ofTokens_tokens {forest : Forest} (hnested : forest.IsNested) :
    ofTokens forest.tokens = forest := by
  rw [ofTokens, foldr_grow_tokens hnested]
  exact append_empty forest

end Forest

/-! ### Places -/

/-- A place in a source. -/
structure Place where
  byte : Nat := 0
  row : Nat := 0

/-- The place behind a text that starts at a place. -/
def Place.after (place : Place) (text : List Char) : Place where
  byte := place.byte + Text.bytes text
  row := place.row + text.count '\n'

theorem Place.after_append (place : Place) (front back : List Char) :
    place.after (front ++ back) = (place.after front).after back := by
  simp only [after, Text.bytes_append, List.count_append, Nat.add_assoc]

theorem Place.byte_le_after (place : Place) (text : List Char) :
    place.byte ≤ (place.after text).byte :=
  Nat.le_add_right _ _

theorem Place.byte_lt_after (place : Place) {text : List Char} (htext : text ≠ []) :
    place.byte < (place.after text).byte :=
  Nat.lt_add_of_pos_right (Text.bytes_pos htext)

/-- The token that a lexeme is at a place. -/
def Lexeme.at (lexeme : Lexeme) (place : Place) : Token :=
  ⟨lexeme.kind, lexeme.text, place.byte, place.row⟩

def Lexeme.chars (lexeme : Lexeme) : List Char :=
  lexeme.text.toList

theorem Token.place_append (place : Place) (front back : List Lexeme) :
    Token.place place.byte place.row (front ++ back) =
      Token.place place.byte place.row front ++
        Token.place (place.after (front.flatMap Lexeme.chars)).byte
          (place.after (front.flatMap Lexeme.chars)).row back := by
  induction front generalizing place with
  | nil => rfl
  | cons lexeme rest ih =>
    rw [List.flatMap_cons, Place.after_append]
    exact congrArg (lexeme.at place :: ·) (ih (place.after lexeme.chars))

/-! ### Rows -/

inductive Bracket where
  | round
  | square
  | brace
  deriving DecidableEq, Repr

namespace Bracket

def opening : Bracket → Lexeme
  | round => ⟨.mark, "("⟩
  | square => ⟨.mark, "["⟩
  | brace => ⟨.mark, "\x7b"⟩

def closing : Bracket → Lexeme
  | round => ⟨.mark, ")"⟩
  | square => ⟨.mark, "]"⟩
  | brace => ⟨.mark, "\x7d"⟩

end Bracket

def Lexeme.isBracket (lexeme : Lexeme) : Bool :=
  lexeme.kind == .mark && ["(", ")", "[", "]", "\x7b", "\x7d"].contains lexeme.text

inductive Row where
  | empty
  | single (lexeme : Lexeme) (rest : Row)
  | group (bracket : Bracket) (inner rest : Row)
  deriving DecidableEq

namespace Row

def append : Row → Row → Row
  | empty, other => other
  | single lexeme rest, other => single lexeme (rest.append other)
  | group bracket inner rest, other => group bracket inner (rest.append other)

def lexemes : Row → List Lexeme
  | empty => []
  | single lexeme rest => lexeme :: rest.lexemes
  | group bracket inner rest =>
    bracket.opening :: (inner.lexemes ++ bracket.closing :: rest.lexemes)

/-- The text that a row is written as. -/
def chars (row : Row) : List Char :=
  row.lexemes.flatMap Lexeme.chars

/-- The forest of a row that is written at a place. -/
def forest : Row → Place → Forest
  | empty, _ => .empty
  | single lexeme rest, place => .leaf (lexeme.at place) (rest.forest (place.after lexeme.chars))
  | group bracket inner rest, place =>
    let inside := place.after bracket.opening.chars
    let behind := inside.after inner.chars
    .group (bracket.opening.at place) (inner.forest inside) (some (bracket.closing.at behind))
      (rest.forest (behind.after bracket.closing.chars))

/-- Every lexeme of a row stands before what follows it, and the brackets are in groups. -/
def Stands : Row → List Char → Prop
  | empty, _ => True
  | single lexeme rest, behind =>
    lexeme.Stands (rest.chars ++ behind) ∧ lexeme.isBracket = false ∧ rest.Stands behind
  | group bracket inner rest, behind =>
    inner.Stands (bracket.closing.chars ++ (rest.chars ++ behind)) ∧ rest.Stands behind

/-- The brackets of a row are in groups. -/
def IsPlain : Row → Prop
  | empty => True
  | single lexeme rest => lexeme.isBracket = false ∧ rest.IsPlain
  | group _ inner rest => inner.IsPlain ∧ rest.IsPlain

@[simp] theorem chars_empty : empty.chars = [] := rfl

@[simp] theorem chars_single (lexeme : Lexeme) (rest : Row) :
    (single lexeme rest).chars = lexeme.chars ++ rest.chars := rfl

@[simp] theorem chars_group (bracket : Bracket) (inner rest : Row) :
    (group bracket inner rest).chars =
      bracket.opening.chars ++ (inner.chars ++ (bracket.closing.chars ++ rest.chars)) := by
  simp [chars, lexemes]

theorem lexemes_append (row other : Row) :
    (row.append other).lexemes = row.lexemes ++ other.lexemes := by
  induction row with
  | empty => rfl
  | single lexeme rest ih => rw [append, lexemes, ih, lexemes, List.cons_append]
  | group bracket inner rest _ ih => simp [append, lexemes, ih]

@[simp] theorem chars_append (row other : Row) :
    (row.append other).chars = row.chars ++ other.chars := by
  rw [chars, lexemes_append, List.flatMap_append, chars, chars]

theorem byte_lt_after_group (bracket : Bracket) (place : Place) (inner : Row) :
    place.byte < (((place.after bracket.opening.chars).after inner.chars).after
      bracket.closing.chars).byte := by
  have hopening : bracket.opening.chars ≠ [] := by cases bracket <;> decide
  have hbehind := place.byte_lt_after hopening
  have hinner := (place.after bracket.opening.chars).byte_le_after inner.chars
  have hclosing := ((place.after bracket.opening.chars).after inner.chars).byte_le_after
    bracket.closing.chars
  omega

theorem tokens_forest (row : Row) (place : Place) :
    (row.forest place).tokens = Token.place place.byte place.row row.lexemes := by
  induction row generalizing place with
  | empty => rfl
  | single lexeme rest ih =>
    exact congrArg (lexeme.at place :: ·) (ih (place.after lexeme.chars))
  | group bracket inner rest ihInner ihRest =>
    rw [lexemes, forest, Forest.tokens, ihInner, ihRest, Option.toList_some, List.append_assoc]
    refine congrArg (bracket.opening.at place :: ·) ?_
    exact (Token.place_append (place.after bracket.opening.chars) inner.lexemes
      (bracket.closing :: rest.lexemes)).symm

theorem head?_append_congr {behind other : List Char} (front : List Char)
    (hhead : behind.head? = other.head?) : (front ++ behind).head? = (front ++ other).head? := by
  rw [List.head?_append, List.head?_append, hhead]

theorem Stands.congr {row : Row} {behind other : List Char} (hhead : behind.head? = other.head?)
    (hstands : row.Stands behind) : row.Stands other := by
  induction row generalizing behind other with
  | empty => trivial
  | single lexeme rest ih =>
    obtain ⟨hlexeme, hbracket, hrest⟩ := hstands
    exact ⟨hlexeme.congr (head?_append_congr _ hhead), hbracket, ih hhead hrest⟩
  | group bracket inner rest ihInner ihRest =>
    obtain ⟨hinner, hrest⟩ := hstands
    exact ⟨ihInner (head?_append_congr _ (head?_append_congr _ hhead)) hinner,
      ihRest hhead hrest⟩

theorem stands_append {row other : Row} {behind : List Char}
    (hrow : row.Stands (other.chars ++ behind)) (hother : other.Stands behind) :
    (row.append other).Stands behind := by
  induction row with
  | empty => exact hother
  | single lexeme rest ih =>
    obtain ⟨hlexeme, hbracket, hrest⟩ := hrow
    refine ⟨?_, hbracket, ih hrest⟩
    rwa [chars_append, List.append_assoc]
  | group bracket inner rest _ ih =>
    obtain ⟨hinner, hrest⟩ := hrow
    refine ⟨?_, ih hrest⟩
    rwa [chars_append, List.append_assoc]

/-! ### Reading rows -/

theorem stands_opening (bracket : Bracket) (behind : List Char) :
    bracket.opening.Stands behind := by
  cases bracket <;> exact Lexeme.stands_alone (by decide) (by decide) behind

theorem stands_closing (bracket : Bracket) (behind : List Char) :
    bracket.closing.Stands behind := by
  cases bracket <;> exact Lexeme.stands_alone (by decide) (by decide) behind

/-- The lexemes of a row are read one by one. -/
theorem ofChars_chars {row : Row} {behind : List Char} (hstands : row.Stands behind) :
    Lexeme.ofChars (row.chars ++ behind) = row.lexemes ++ Lexeme.ofChars behind := by
  induction row generalizing behind with
  | empty => rfl
  | single lexeme rest ih =>
    obtain ⟨hlexeme, -, hrest⟩ := hstands
    rw [chars_single, List.append_assoc]
    exact (Lexeme.ofChars_append hlexeme).trans (congrArg (lexeme :: ·) (ih hrest))
  | group bracket inner rest ihInner ihRest =>
    obtain ⟨hinner, hrest⟩ := hstands
    have hclosing := Lexeme.ofChars_append (stands_closing bracket (rest.chars ++ behind))
    have hopening := Lexeme.ofChars_append (stands_opening bracket
      (inner.chars ++ (bracket.closing.chars ++ (rest.chars ++ behind))))
    rw [ihInner hinner, Lexeme.chars, hclosing, ihRest hrest] at hopening
    simp only [chars_group, lexemes, List.append_assoc, List.cons_append]
    exact hopening

theorem not_bracket_at {lexeme : Lexeme} (hbracket : lexeme.isBracket = false) (place : Place) :
    Forest.isOpening (lexeme.at place) = false ∧ Forest.isClosing (lexeme.at place) = false := by
  obtain ⟨kind, text⟩ := lexeme
  simp only [Lexeme.isBracket, Bool.and_eq_false_iff] at hbracket
  simp only [Forest.isOpening, Forest.isClosing, Token.isMark, Lexeme.at]
  rcases hbracket with hkind | htext
  · simp [hkind]
  · simp_all

theorem isNested_forest {row : Row} (hplain : row.IsPlain) (place : Place) :
    (row.forest place).IsNested := by
  induction row generalizing place with
  | empty => trivial
  | single lexeme rest ih =>
    obtain ⟨hbracket, hrest⟩ := hplain
    obtain ⟨hopening, hclosing⟩ := not_bracket_at hbracket place
    exact ⟨hopening, hclosing, ih hrest _⟩
  | group bracket inner rest ihInner ihRest =>
    obtain ⟨hinner, hrest⟩ := hplain
    refine ⟨?_, ?_, ⟨_, rfl, ?_⟩, ihInner hinner _, ihRest hrest _⟩ <;> cases bracket <;> rfl

theorem Stands.isPlain {row : Row} {behind : List Char} (hstands : row.Stands behind) :
    row.IsPlain := by
  induction row generalizing behind with
  | empty => trivial
  | single lexeme rest ih => exact ⟨hstands.2.1, ih hstands.2.2⟩
  | group bracket inner rest ihInner ihRest => exact ⟨ihInner hstands.1, ihRest hstands.2⟩

/-- A source whose lexemes are those of a row is read as the row. -/
theorem ofSource_eq {row : Row} (hplain : row.IsPlain) {source : List Char}
    (hlexemes : Lexeme.ofChars source = row.lexemes) :
    Forest.ofSource source = row.forest {} := by
  rw [Forest.ofSource, Token.ofSource, hlexemes, ← tokens_forest row {},
    Forest.ofTokens_tokens (isNested_forest hplain {})]

/-- A source that is written as a row is read as the row. -/
theorem ofSource_chars {row : Row} (hstands : row.Stands []) :
    Forest.ofSource row.chars = row.forest {} := by
  have hlexemes := ofChars_chars hstands
  rw [List.append_nil, Lexeme.ofChars, List.append_nil] at hlexemes
  exact ofSource_eq hstands.isPlain hlexemes

end Row

end Conform.Source
