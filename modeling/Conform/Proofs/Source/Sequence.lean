import Conform.Proofs.Source.Content
import Conform.Proofs.Source.Member
import Mathlib.Data.List.DropRight

/-!
Type bodies as sequences of members, comments and directives with blanks between them. The items of
a sequence are read one by one, whatever conditional groups are open between them
(`Item.methods_read`): a member tells its methods below the comments that stand directly above it,
and nothing else of the sequence has a part in them.
-/

set_option autoImplicit false

namespace Conform.Source

theorem Row.forest_append (row other : Row) (place : Place) :
    (row.append other).forest place =
      (row.forest place).append (other.forest (place.after row.chars)) := by
  induction row generalizing place with
  | empty => rfl
  | single lexeme rest ih =>
    rw [append, forest, ih, chars_single, Place.after_append]
    rfl
  | group bracket inner rest _ ih =>
    rw [append, forest, ih, chars_group, Place.after_append, Place.after_append,
      Place.after_append]
    rfl

theorem Method.bare_shift (place : Place) (method : Method) :
    (method.shift place).bare = method.bare := by
  obtain ⟨identifier, line, body, docs⟩ := method
  cases body with
  | block span statements => cases statements <;> rfl
  | _ => rfl

theorem Method.map_bare_shift (place : Place) (methods : List Method) :
    (methods.map (Method.shift place)).map Method.bare = methods.map Method.bare := by
  rw [List.map_map]
  exact List.map_congr_left fun method _ ↦ method.bare_shift place

/-! ### Members -/

/-- A member of a type as it is written. -/
structure Member where
  row : Row
  isItem : (row.forest {}).isItem { content := .members } = true

namespace Member

/-- What a member tells below some documentation comments, but for the places. -/
def methods (member : Member) (docs : List String) : List Method :=
  ((Outline.ofForest (member.row.forest {})).methods true docs).map Method.bare

/-- The method that a member is, if it is one, without its documentation. -/
def method? (member : Member) : Option Method :=
  match Outline.ofForest (member.row.forest {}) with
  | .declaration header ending _ _ => (Method.ofDeclaration? [] header ending).map Method.bare
  | _ => none

variable (member : Member)

theorem isItem_forest (place : Place) :
    (member.row.forest place).isItem { content := .members } = true := by
  rw [← Forest.isItem_face, member.row.face_forest place {}, Forest.isItem_face]
  exact member.isItem

/-- Wherever a member is written, it is one declaration before the rest of the row. -/
theorem exists_declaration (place : Place) :
    ∃ header ending members, ((Header.methodName? header).isSome = true →
      members = Outline.empty) ∧ ∀ outer other,
        Outline.read { content := .members, frames := outer } {}
            ((member.row.forest place).append other) =
          .declaration header ending members
            (Outline.read { content := .members, frames := outer } {} other) :=
  Outline.declares_of_isItem (.inl rfl) (member.isItem_forest place) {}

theorem ofForest_eq {place : Place} {header : Header} {ending : Ending} {members : Outline}
    (hread : ∀ outer other, Outline.read { content := .members, frames := outer } {}
        ((member.row.forest place).append other) =
      .declaration header ending members
        (Outline.read { content := .members, frames := outer } {} other)) :
    Outline.ofForest (member.row.forest place) = .declaration header ending members .empty := by
  have hown := hread [] .empty
  rwa [Forest.append_empty] at hown

theorem joinsItem_eq_false (place : Place) (depth : Nat) (other : Forest) :
    ((member.row.forest place).append other).joinsItem { content := .members } depth = false := by
  have hjoins := Forest.joinsItem_append_of_isItem Course.isFront_new Course.isFront_new
    (member.isItem_forest place) depth other
  rwa [List.length_nil, Nat.zero_add] at hjoins

/-- A member tells the same methods wherever it is written and whatever stands behind it. -/
theorem methods_read (place : Place) (outer : List Course.Frame) (docs : List String)
    (other : Forest) :
    ((Outline.read { content := .members, frames := outer } {}
        ((member.row.forest place).append other)).methods true docs).map Method.bare =
      member.methods docs ++
        ((Outline.read { content := .members, frames := outer } {} other).methods true []).map
          Method.bare := by
  obtain ⟨header, ending, members, -, hread⟩ := member.exists_declaration place
  have hown : ((Outline.declaration header ending members .empty).methods true docs).map
      Method.bare = member.methods docs := by
    rw [← member.ofForest_eq hread, member.row.forest_eq_shift place]
    change ((Outline.read _ (Draft.shift place {}) _).methods true docs).map Method.bare = _
    rw [Outline.read_shift, Outline.methods_shift, Method.map_bare_shift]
    rfl
  rw [hread, ← hown, ← List.map_append, Outline.methods, Outline.methods, Outline.methods,
    List.append_nil]

/-- A member that is a method tells itself, with the comments above it as its documentation. -/
theorem methods_of_method? {method : Method} (hmethod : member.method? = some method)
    (docs : List String) : member.methods docs = [{ method with docs }] := by
  obtain ⟨header, ending, members, hmembers, hread⟩ := member.exists_declaration {}
  rw [method?, member.ofForest_eq hread] at hmethod
  obtain ⟨own, hown, rfl⟩ := Option.map_eq_some_iff.mp hmethod
  obtain ⟨hname, hbody, hrecord⟩ := Method.ofDeclaration?_eq_some hown
  obtain rfl := hmembers (by rw [hname]; rfl)
  have hdocs : Method.ofDeclaration? docs header ending = _ :=
    Method.ofDeclaration?_of_some hname hbody
  rw [methods, member.ofForest_eq hread, Outline.methods, Outline.methods, Outline.methods, hdocs,
    hrecord]
  rfl

/-- In what a member tells that is no method, the comments above it have no part. -/
theorem methods_of_not_method (hmethod : member.method? = none) (docs : List String) :
    member.methods docs = member.methods [] := by
  obtain ⟨header, ending, members, hmembers, hread⟩ := member.exists_declaration {}
  have hnone (docs : List String) : Method.ofDeclaration? docs header ending = none := by
    rw [method?, member.ofForest_eq hread, Option.map_eq_none_iff] at hmethod
    unfold Method.ofDeclaration? at hmethod ⊢
    cases hname : Header.methodName? header with
    | none => rfl
    | some name =>
      cases hbody : Body.ofEnding ending with
      | none => rfl
      | some body => simp [hname, hbody] at hmethod
  rw [methods, methods, member.ofForest_eq hread]
  simp only [Outline.methods, hnone]

end Member

/-! ### Directives between members -/

theorem Forest.joinsItem_directive {token : Token} {rest : Forest} (hkind : token.kind = .directive)
    (hrest : ∀ depth, rest.joinsItem { content := .members } depth = false) (depth : Nat) :
    (leaf token rest).joinsItem { content := .members } depth = false := by
  have hsign : Sign.ofToken token rest =
      if token.role = .line then .trivia else .branch token.role := by
    rw [Sign.ofToken, hkind]
  unfold joinsItem
  rw [hsign]
  cases token.role with
  | split => exact hrest (depth + 1)
  | turn => cases depth <;> exact hrest _
  | join =>
    cases depth with
    | zero => rfl
    | succ depth => exact hrest depth
  | line => exact hrest depth

/-- A directive between members stands between them, and so does the group that it opens. -/
theorem Outline.read_directive {token : Token} {rest : Forest} (hkind : token.kind = .directive)
    {outer : List Course.Frame} (houter : ∀ frame ∈ outer, frame = .free)
    (hrest : rest.joinsItem { content := .members } 0 = false) :
    ∃ inner : List Course.Frame, (∀ frame ∈ inner, frame = .free) ∧
      read { content := .members, frames := outer } {} (.leaf token rest) =
        directive token (read { content := .members, frames := inner } {} rest) := by
  have hread {step : Course.Step} {inner : List Course.Frame}
      (hstep : Course.step { content := .members, frames := outer } (Sign.ofToken token rest) rest =
        step) (hcut : step.isCut = false) (hcovered : step.isCovered = false)
      (hcourse : step.course = { content := .members, frames := inner }) :
      read { content := .members, frames := outer } {} (.leaf token rest) =
        directive token (read { content := .members, frames := inner } {} rest) := by
    simp only [read, hstep, hcut, hcovered, hcourse, hkind, Bool.false_eq_true, if_false, id_eq]
  have hsign : Sign.ofToken token rest =
      if token.role = .line then .trivia else .branch token.role := by
    rw [Sign.ofToken, hkind]
  rw [hsign] at hread
  cases hrole : token.role with
  | line =>
    rw [hrole] at hread
    exact ⟨outer, houter, hread rfl rfl rfl rfl⟩
  | split =>
    have hsplit : Course.split { content := .members, frames := outer } rest =
        { course := { content := .members, frames := .free :: outer }, isCovered := false } := by
      simp [Course.split, hrest]
    rw [hrole] at hread
    exact ⟨.free :: outer, List.forall_mem_cons.mpr ⟨rfl, houter⟩, hread hsplit rfl rfl rfl⟩
  | turn =>
    rw [hrole] at hread
    cases outer with
    | nil => exact ⟨[], houter, hread rfl rfl rfl rfl⟩
    | cons frame frames =>
      obtain ⟨rfl, hframes⟩ := List.forall_mem_cons.mp houter
      exact ⟨.free :: frames, houter, hread rfl rfl rfl rfl⟩
  | join =>
    rw [hrole] at hread
    cases outer with
    | nil => exact ⟨[], houter, hread rfl rfl rfl rfl⟩
    | cons frame frames =>
      obtain ⟨rfl, hframes⟩ := List.forall_mem_cons.mp houter
      exact ⟨frames, hframes, hread rfl rfl rfl rfl⟩

/-! ### Items -/

/-- The items of a type body: its members, and what stands between them. -/
inductive Item where
  | blank (text : String)
  | comment (text : String)
  | directive (text : String)
  | member (own : Member)

namespace Item

def row : Item → Row
  | blank text => .single ⟨.blank, text⟩ .empty
  | comment text => .single ⟨.comment, text⟩ .empty
  | directive text => .single ⟨.directive, text⟩ .empty
  | member own => own.row

/-- The row that a sequence of items is. -/
def rowOf (items : List Item) : Row :=
  items.foldr (fun item rest ↦ item.row.append rest) .empty

/-- Whether a comment is one that documents. -/
def documents (text : String) : Bool :=
  "///".toList.isPrefixOf text.toList || "/**".toList.isPrefixOf text.toList

def isBlank : Item → Bool
  | blank _ => true
  | _ => false

def isDoc : Item → Bool
  | comment text => documents text
  | _ => false

def isMember : Item → Bool
  | member _ => true
  | _ => false

def comment? : Item → Option String
  | comment text => some text
  | _ => none

/-- The documentation comments directly above what follows some items: the last of these up to one
that documents nothing, blanks left out. -/
def docs (above : List Item) : List String :=
  ((above.filter (!·.isBlank)).rtakeWhile isDoc).filterMap comment?

/-- What the items of a sequence tell, each member below the comments directly above it. -/
def methods (above : List Item) : List Item → List Method
  | [] => []
  | member own :: below => own.methods (docs above) ++ methods (above ++ [member own]) below
  | item :: below => methods (above ++ [item]) below

variable {above : List Item}

theorem docs_concat_blank (text : String) : docs (above ++ [blank text]) = docs above := by
  simp [docs, isBlank]

theorem docs_concat (item : Item) (hblank : item.isBlank = false) :
    docs (above ++ [item]) =
      if item.isDoc then docs above ++ (comment? item).toList else [] := by
  have hfilter : (above ++ [item]).filter (!·.isBlank) = above.filter (!·.isBlank) ++ [item] := by
    simp [hblank]
  rw [docs, hfilter]
  cases hdoc : item.isDoc with
  | true =>
    rw [List.rtakeWhile_concat_pos _ _ _ hdoc, List.filterMap_append]
    cases hcomment : item.comment? <;> simp [hcomment, docs]
  | false =>
    rw [List.rtakeWhile_concat_neg _ _ _ (by rw [hdoc]; exact Bool.false_ne_true)]
    rfl

/-- A conditional group that opens between items is no part of one. -/
theorem joinsItem_rowOf (items : List Item) (place : Place) (depth : Nat) :
    ((rowOf items).forest place).joinsItem { content := .members } depth = false := by
  induction items generalizing place depth with
  | nil => rfl
  | cons item below ih =>
    cases item with
    | blank text => exact ih _ depth
    | comment text => exact ih _ depth
    | directive text => exact Forest.joinsItem_directive rfl (ih _) depth
    | member own =>
      rw [rowOf, List.foldr_cons, row, Row.forest_append]
      exact own.joinsItem_eq_false place depth _

theorem methods_read (items : List Item) {outer : List Course.Frame}
    (houter : ∀ frame ∈ outer, frame = .free) (place : Place) :
    ((Outline.read { content := .members, frames := outer } {}
        ((rowOf items).forest place)).methods true (docs above)).map Method.bare =
      methods above items := by
  induction items generalizing above outer place with
  | nil => rfl
  | cons item below ih =>
    cases item with
    | blank text =>
      rw [← docs_concat_blank text]
      exact ih houter _
    | comment text =>
      have hdocs : docs (above ++ [comment text]) =
          if documents text then docs above ++ [text] else [] := docs_concat (comment text) rfl
      have hbelow := @ih (above ++ [comment text]) outer houter
        (place.after (Lexeme.chars ⟨.comment, text⟩))
      rw [hdocs] at hbelow
      exact hbelow
    | directive text =>
      obtain ⟨inner, hinner, hread⟩ := Outline.read_directive
        (show (Lexeme.at ⟨.directive, text⟩ place).kind = .directive from rfl) houter
        (joinsItem_rowOf below (place.after (Lexeme.chars ⟨.directive, text⟩)) 0)
      have hdocs : docs (above ++ [directive text]) = [] := docs_concat (directive text) rfl
      have hbelow := @ih (above ++ [directive text]) inner hinner
        (place.after (Lexeme.chars ⟨.directive, text⟩))
      rw [hdocs] at hbelow
      refine Eq.trans ?_ hbelow
      exact congrArg
        (fun outline : Outline ↦ (outline.methods true (docs above)).map Method.bare) hread
    | member own =>
      have hdocs : docs (above ++ [member own]) = [] := docs_concat (member own) rfl
      have hbelow := @ih (above ++ [member own]) outer houter (place.after own.row.chars)
      rw [hdocs] at hbelow
      rw [rowOf, List.foldr_cons, row, Row.forest_append, own.methods_read]
      exact congrArg (own.methods (docs above) ++ ·) hbelow

end Item

end Conform.Source
