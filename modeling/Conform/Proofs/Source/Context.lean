import Conform.Proofs.Source.Shift

/-!
Rows around a pair of braces. A context is a row with a hole between braces, which stand in the row
itself or in braces of it; plugged, it is the row with a content there. Its face does not tell the
content (`Row.Context.face_plug`).
-/

set_option autoImplicit false

namespace Conform.Source

theorem Row.forest_eq_shift (row : Row) (place : Place) :
    row.forest place = (row.forest {}).shift place :=
  row.forest_shift place {}

theorem Row.face_forest (row : Row) (place other : Place) :
    (row.forest place).face = (row.forest other).face := by
  rw [row.forest_eq_shift place, row.forest_eq_shift other, Forest.face_shift, Forest.face_shift]

/-! ### Blocks -/

/-- The place behind the opening brace of a block that opens at a place. -/
def Place.inside (opens : Place) : Place :=
  opens.after Bracket.brace.opening.chars

/-- The place of the closing brace of a block. -/
def Place.closes (opens : Place) (content : Row) : Place :=
  opens.inside.after content.chars

/-- The place behind a block. -/
def Place.past (opens : Place) (content : Row) : Place :=
  (opens.closes content).after Bracket.brace.closing.chars

theorem Place.after_eq_shift (place : Place) (text : List Char) :
    place.after text = (({} : Place).after text).shift place :=
  Place.after_shift place {} text

/-- The body that a block with a content is. -/
def Body.blockAt (opens : Place) (content : Row) : Body :=
  .block ⟨opens.byte, (opens.past content).byte⟩ (content.forest opens.inside).statements?

/-! ### Contexts -/

inductive Row.Context where
  | hole (rest : Row)
  | single (lexeme : Lexeme) (context : Context)
  | behind (bracket : Bracket) (inner : Row) (context : Context)
  | within (context : Context) (rest : Row)

namespace Row.Context

/-- The row with a content in the hole. -/
def plug (content : Row) : Context → Row
  | hole rest => .group .brace content rest
  | single lexeme context => .single lexeme (context.plug content)
  | behind bracket inner context => .group bracket inner (context.plug content)
  | within context rest => .group .brace (context.plug content) rest

/-- The lexemes before the opening brace of the hole. -/
def lead : Context → List Lexeme
  | hole _ => []
  | single lexeme context => lexeme :: context.lead
  | behind bracket inner context =>
    bracket.opening :: (inner.lexemes ++ bracket.closing :: context.lead)
  | within context _ => Bracket.brace.opening :: context.lead

/-- The lexemes behind the closing brace of the hole. -/
def tail : Context → List Lexeme
  | hole rest => rest.lexemes
  | single _ context => context.tail
  | behind _ _ context => context.tail
  | within context rest => context.tail ++ Bracket.brace.closing :: rest.lexemes

variable (context : Context)

theorem lexemes_plug (content : Row) :
    (context.plug content).lexemes =
      context.lead ++ Bracket.brace.opening ::
        (content.lexemes ++ Bracket.brace.closing :: context.tail) := by
  induction context with
  | hole rest => rfl
  | single lexeme context ih => rw [plug, lexemes, ih, lead, tail, List.cons_append]
  | behind bracket inner context ih => simp [plug, lexemes, ih, lead, tail]
  | within context rest ih => simp [plug, lexemes, ih, lead, tail]

theorem isPlain_content {context : Context} {content : Row}
    (hplain : (context.plug content).IsPlain) : content.IsPlain := by
  induction context with
  | hole rest => exact hplain.1
  | single lexeme context ih => exact ih hplain.2
  | behind bracket inner context ih => exact ih hplain.2
  | within context rest ih => exact ih hplain.1

theorem isPlain_plug {context : Context} {content other : Row}
    (hplain : (context.plug content).IsPlain) (hother : other.IsPlain) :
    (context.plug other).IsPlain := by
  induction context with
  | hole rest => exact ⟨hother, hplain.2⟩
  | single lexeme context ih => exact ⟨hplain.1, ih hplain.2⟩
  | behind bracket inner context ih => exact ⟨hplain.1, ih hplain.2⟩
  | within context rest ih => exact ⟨ih hplain.1, hplain.2⟩

/-! ### Places -/

/-- The place of the opening brace in a row that starts at a place. -/
def opens (place : Place) : Context → Place
  | hole _ => place
  | single lexeme context => context.opens (place.after lexeme.chars)
  | behind bracket inner context =>
    context.opens
      (((place.after bracket.opening.chars).after inner.chars).after bracket.closing.chars)
  | within context _ => context.opens (place.after Bracket.brace.opening.chars)

theorem opens_eq (place : Place) :
    context.opens place = place.after (context.lead.flatMap Lexeme.chars) := by
  induction context generalizing place with
  | hole rest => rfl
  | single lexeme context ih => rw [opens, ih, lead, List.flatMap_cons, Place.after_append]
  | behind bracket inner context ih =>
    rw [opens, ih, lead, List.flatMap_cons, List.flatMap_append, List.flatMap_cons,
      Place.after_append, Place.after_append, Place.after_append]
    rfl
  | within context rest ih => rw [opens, ih, lead, List.flatMap_cons, Place.after_append]

theorem after_plug (place : Place) (content : Row) :
    place.after (context.plug content).chars =
      ((context.opens place).past content).after (context.tail.flatMap Lexeme.chars) := by
  rw [chars, lexemes_plug]
  simp only [List.flatMap_append, List.flatMap_cons, Place.after_append, Place.past, Place.closes,
    Place.inside, opens_eq, chars]

theorem past_le (place : Place) (content : Row) :
    ((context.opens place).past content).byte ≤
      (place.after (context.plug content).chars).byte := by
  rw [after_plug]
  exact Place.byte_le_after _ _

/-- How far a block reaches behind the hole in its content. -/
def beyond : Place :=
  (({} : Place).after (context.tail.flatMap Lexeme.chars)).after Bracket.brace.closing.chars

theorem past_plug (opens : Place) (content : Row) :
    opens.past (context.plug content) =
      context.beyond.shift ((context.opens opens.inside).past content) := by
  rw [Place.past, Place.closes, after_plug, Place.after_eq_shift _ (context.tail.flatMap _),
    Place.after_shift]
  rfl

/-! ### Faces -/

theorem face_plug (content other : Row) (place image : Place) :
    ((context.plug content).forest place).face = ((context.plug other).forest image).face := by
  induction context generalizing place image with
  | hole rest =>
    exact congrArg (Forest.group _ _ none) (rest.face_forest _ _)
  | single lexeme context ih => exact congrArg (Forest.leaf _) (ih _ _)
  | behind bracket inner context ih =>
    simp only [plug, forest, Forest.face]
    rw [inner.face_forest _ (image.after bracket.opening.chars), ih]
    rfl
  | within context rest ih => exact congrArg (Forest.group _ _ none) (rest.face_forest _ _)

end Row.Context

end Conform.Source
