import Conform.Proofs.Source.Face
import Conform.Proofs.Source.Row
import Conform.Proofs.Source.Site

/-!
Sources read at another place. Tokens, trees, declarations and methods can be shifted to a later
place; a row that is written there has the same forest, shifted (`Row.forest_shift`), and reading a
row keeps the shift (`Outline.read_shift`), as it keeps every change of tokens that leaves them
alike. So the methods found in a row of declarations are the same wherever the row starts, but for
their spans and lines (`Outline.methods_shift`).
-/

set_option autoImplicit false

namespace Conform

namespace Source

/-! ### Tokens and trees -/

/-- The place that is as far behind another one as it is from the start. -/
def Place.shift (inner place : Place) : Place where
  byte := place.byte + inner.byte
  row := place.row + inner.row

variable (place : Place)

theorem Place.after_shift (inner : Place) (text : List Char) :
    (inner.shift place).after text = (inner.after text).shift place := by
  simp only [shift, after, Nat.add_assoc]

def Token.shift (token : Token) : Token :=
  { token with start := place.byte + token.start, row := place.row + token.row }

theorem Token.stop_shift (token : Token) : (token.shift place).stop = place.byte + token.stop :=
  Nat.add_assoc _ _ _

def Forest.shift : Forest → Forest
  | empty => empty
  | leaf token rest => leaf (token.shift place) rest.shift
  | group opening inner closing rest =>
    group (opening.shift place) inner.shift (closing.map (Token.shift place)) rest.shift

theorem Row.forest_shift (row : Row) (inner : Place) :
    row.forest (inner.shift place) = (row.forest inner).shift place := by
  induction row generalizing inner with
  | empty => rfl
  | single lexeme rest ih =>
    simp only [forest, Place.after_shift, ih]
    rfl
  | group bracket within rest ihInner ihRest =>
    simp only [forest, Place.after_shift, ihInner, ihRest]
    rfl

theorem Token.alike_shift (token : Token) : token.Alike (token.shift place) :=
  ⟨rfl, fun _ ↦ rfl, fun _ ↦ rfl, fun _ ↦ rfl, rfl⟩

namespace Forest

theorem shift_eq_map (forest : Forest) : forest.shift place = forest.map (Token.shift place) := by
  induction forest with
  | empty => rfl
  | leaf token rest ih => rw [shift, map, ih]
  | group opening inner closing rest ihInner ihRest => rw [shift, map, ihInner, ihRest]

theorem keepsOpenings_shift (forest : Forest) : forest.KeepsOpenings (Token.shift place) :=
  keepsOpenings_of_text (fun token ↦ (rfl : (token.shift place).text = token.text)) forest

theorem face_shift (forest : Forest) : (forest.shift place).face = forest.face := by
  induction forest with
  | empty => rfl
  | leaf token rest ih =>
    rw [shift, face, ih]
    rfl
  | group opening inner closing rest ihInner ihRest =>
    rw [shift, face, ihInner, ihRest]
    rfl

end Forest

/-! ### Blocks -/

end Source

def Span.shift (place : Source.Place) (span : Span) : Span :=
  ⟨place.byte + span.start, place.byte + span.stop⟩

namespace Source

variable (place : Place)

namespace Forest

theorem moves_shift (tokens : List Token) :
    Moves (Token.shift place) (place.byte + ·) tokens :=
  fun token _ ↦ ⟨rfl, token.stop_shift place⟩

theorem groupStop_shift (opening : Token) (inner : Forest) (closing : Option Token) :
    groupStop (opening.shift place) (inner.shift place) (closing.map (Token.shift place)) =
      place.byte + groupStop opening inner closing := by
  rw [shift_eq_map]
  exact groupStop_map (moves_shift place _)

theorem statements?_shift (forest : Forest) :
    (forest.shift place).statements? = forest.statements?.map (Span.shift place) := by
  rw [shift_eq_map]
  exact statements?_map (Token.alike_shift place) (forest.keepsOpenings_shift place)
    (moves_shift place _)

end Forest

/-! ### Declarations -/

def Piece.shift : Piece → Piece
  | token single => token (single.shift place)
  | group opening inner closing =>
    group (opening.shift place) (inner.map (Token.shift place)) (closing.map (Token.shift place))

theorem Piece.shift_eq_map : Piece.shift place = Piece.map (Token.shift place) := by
  funext piece
  cases piece <;> rfl

namespace Header

/-- Assumes: a header with a part in it, which tells where the declaration starts. -/
theorem row_shift {header : Header} (hheader : header ≠ []) :
    row (header.map (Piece.shift place)) = place.row + row header := by
  cases header with
  | nil => contradiction
  | cons piece rest => cases piece <;> rfl

theorem ne_nil_of_methodName? {header : Header} {name : String}
    (hname : methodName? header = some name) : header ≠ [] := by
  rintro rfl
  contradiction

end Header

def Ending.shift : Ending → Ending
  | semicolon => semicolon
  | value => value
  | arrow => arrow
  | block opening inner closing =>
    block (opening.shift place) (inner.shift place) (closing.map (Token.shift place))

theorem Ending.shift_eq_map : Ending.shift place = Ending.map (Token.shift place) := by
  funext ending
  cases ending with
  | block opening inner closing => rw [shift, map, Forest.shift_eq_map]
  | _ => rfl

def Draft.shift (draft : Draft) : Draft where
  reversed := draft.reversed.map (Piece.shift place)
  ending := draft.ending.map (Ending.shift place)

namespace Outline

def shift : Outline → Outline
  | empty => empty
  | comment token rest => comment (token.shift place) rest.shift
  | directive token rest => directive (token.shift place) rest.shift
  | declaration header ending members rest =>
    declaration (header.map (Piece.shift place)) (ending.shift place) members.shift rest.shift

theorem shift_eq_map (outline : Outline) : outline.shift place = outline.map (Token.shift place) := by
  induction outline with
  | empty => rfl
  | comment token rest ih => rw [shift, map, ih]
  | directive token rest ih => rw [shift, map, ih]
  | declaration header ending members rest ihMembers ihRest =>
    rw [shift, map, ihMembers, ihRest, Piece.shift_eq_map, Ending.shift_eq_map]

/-- Reading a row keeps the shift. -/
theorem read_shift (forest : Forest) (course : Course) (draft : Draft) :
    read course (draft.shift place) (forest.shift place) =
      (read course draft forest).shift place := by
  rw [Draft.shift, Piece.shift_eq_map, Ending.shift_eq_map, Forest.shift_eq_map, shift_eq_map]
  exact read_map (Token.alike_shift place) (forest.keepsOpenings_shift place) course draft

end Outline

/-! ### Methods -/

def Body.shift : Body → Body
  | block span statements => block (span.shift place) (statements.map (Span.shift place))
  | expression => expression
  | missing => missing

/-- The method at the place that is as far behind another place as it is from the start. -/
def Method.shift (method : Method) : Method :=
  { method with line := place.row + method.line, body := method.body.shift place }

theorem Body.ofEnding_shift (ending : Ending) :
    ofEnding (ending.shift place) = (ofEnding ending).map (Body.shift place) := by
  cases ending with
  | block opening inner closing =>
    simp only [ofEnding, Ending.shift, Forest.groupStop_shift, Forest.statements?_shift,
      Option.map_some]
    rfl
  | _ => rfl

theorem Method.ofDeclaration?_shift (docs : List String) (header : Header) (ending : Ending) :
    ofDeclaration? docs (header.map (Piece.shift place)) (ending.shift place) =
      (ofDeclaration? docs header ending).map (Method.shift place) := by
  have hmethod : Header.methodName? (header.map (Piece.shift place)) = Header.methodName? header := by
    rw [Piece.shift_eq_map, Header.methodName?_map (Token.alike_shift place)]
  unfold ofDeclaration?
  rw [hmethod, Body.ofEnding_shift]
  cases hname : Header.methodName? header with
  | none => rfl
  | some name =>
    rw [Header.row_shift place (Header.ne_nil_of_methodName? hname)]
    cases Body.ofEnding ending <;> rfl

namespace Outline

theorem methods_shift (outline : Outline) (inType : Bool) (docs : List String) :
    (outline.shift place).methods inType docs =
      (outline.methods inType docs).map (Method.shift place) := by
  induction outline generalizing inType docs with
  | empty => rfl
  | comment token rest ih => exact ih _ _
  | directive token rest ih => exact ih _ _
  | declaration header ending members rest ihMembers ihRest =>
    have htype : Header.isType (header.map (Piece.shift place)) = Header.isType header := by
      rw [Piece.shift_eq_map, Header.isType_map (Token.alike_shift place)]
    simp only [shift, methods, Method.ofDeclaration?_shift, htype, ihMembers, ihRest,
      List.map_append]
    cases inType <;> cases Method.ofDeclaration? docs header ending <;> rfl

theorem joined_shift (texts : List (List Token)) :
    (texts.map (List.map (Token.shift place))).map Token.joined = texts.map Token.joined := by
  rw [List.map_map]
  refine List.map_congr_left fun tokens _ ↦ ?_
  rw [Function.comp_apply, Token.joined, List.map_map, Token.joined]
  rfl

theorem spaceNames_shift (outline : Outline) :
    (outline.shift place).spaceNames = outline.spaceNames := by
  rw [spaceNames_eq, shift_eq_map, spaceTokens_map (Token.alike_shift place), joined_shift,
    spaceNames_eq]

theorem imports_shift (outline : Outline) : (outline.shift place).imports = outline.imports := by
  rw [imports_eq, shift_eq_map, importTokens_map (Token.alike_shift place), joined_shift,
    imports_eq]

end Outline

end Source

end Conform
