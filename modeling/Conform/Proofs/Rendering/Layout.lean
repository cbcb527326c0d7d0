import Conform.Proofs.Source.Row
import Conform.Source.Sign

/-!
The layout of generated files: one namespace with one class, and its methods one below the other,
each with a summary above it if it is documented, and with a body of statements and comments, a line
for each. What may stand in a file is said by the parts it is made of; a statement is any row of
lexemes on one line that a semicolon ends. A file is written as a row (`File.stands_row`), so that
reading it gives the row back.
-/

set_option autoImplicit false

namespace Conform.Rendering

open Source

/-! ### Parts -/

/-- A word that starts with no digit. -/
def isPlainName : List Char → Bool
  | [] => false
  | c :: rest => !c.isDigit && (c :: rest).all Lexeme.isWordPart

def isName : List Char → Bool
  | [] => false
  | c :: rest => if c = '@' then isPlainName rest else isPlainName (c :: rest)

/-- An identifier that is no keyword. -/
structure Identifier where
  chars : List Char
  isName : isName chars = true
  isFree : Keyword.isReserved (String.ofList chars) = false

def Identifier.text (identifier : Identifier) : String :=
  String.ofList identifier.chars

/-- The blanks in front of what stands in a line. -/
structure Indent where
  chars : List Char
  isGap : ∀ c ∈ chars, Lexeme.isGap c = true
  isInline : '\n' ∉ chars

/-- A statement on one line, given up to its semicolon. -/
structure Statement where
  row : Row
  stands : row.Stands [';']
  isInline : ∀ c ∈ row.chars, Lexeme.isLineEnd c = false
  isFlush : ∀ lexeme ∈ row.lexemes.head?, lexeme.kind ≠ .blank

def Statement.chars (statement : Statement) : List Char :=
  statement.row.chars ++ [';']

/-- The text of a comment up to the line end. -/
structure Note where
  text : List Char
  isInline : ∀ c ∈ text, Lexeme.isLineEnd c = false

def Note.chars (note : Note) : List Char :=
  '/' :: '/' :: note.text

/-- What stands in a line of a method body, behind its indent. -/
inductive Line where
  | statement (indent : Indent) (statement : Statement)
  | comment (indent : Indent) (note : Note)

/-- A line of documentation: neither blank at its ends nor with a tag in it. -/
structure DocLine where
  chars : List Char
  isFilled : chars ≠ []
  isTrimmed : Text.trim chars = chars
  isInline : ∀ c ∈ chars, Lexeme.isLineEnd c = false
  isPlain : '<' ∉ chars

structure Method where
  identifier : Identifier
  docs : List DocLine
  body : List Line

structure File where
  space : List Identifier
  name : Identifier
  methods : List Method
  isNamed : space ≠ []
  isPlain : ∀ identifier ∈ name :: space, identifier.text ≠ "await"

/-! ### Texts -/

/-- A line without its line end. -/
def Line.text : Line → List Char
  | .statement indent inner => indent.chars ++ inner.chars
  | .comment indent note => indent.chars ++ note.chars

def Line.chars (line : Line) : List Char :=
  line.text ++ ['\n']

/-- The comments above a method. -/
def Method.comments (method : Method) : List (List Char) :=
  if method.docs.isEmpty then []
  else ["/// <summary>".toList] ++ method.docs.map ("/// ".toList ++ ·.chars) ++
    ["/// </summary>".toList]

def Method.chars (method : Method) : List Char :=
  method.comments.flatMap (fun comment ↦ "\t\t".toList ++ comment ++ "\n".toList) ++
  "\t\tprivate void ".toList ++ method.identifier.chars ++ "()\n".toList ++
  "\t\t\x7b\n".toList ++ method.body.flatMap Line.chars ++ "\t\t\x7d\n\n".toList

def File.spaceChars (file : File) : List Char :=
  ['.'].intercalate (file.space.map Identifier.chars)

def File.chars (file : File) : List Char :=
  "namespace ".toList ++ file.spaceChars ++ "\n\x7b\n".toList ++
  "\tpublic partial class ".toList ++ file.name.chars ++ "\n\t\x7b\n".toList ++
  file.methods.flatMap Method.chars ++ "\t\x7d\n\x7d\n".toList

/-! ### Rows -/

/-- The row of a lexeme of a kind before another row. -/
def put (kind : Lexeme.Kind) (chars : List Char) (rest : Row) : Row :=
  .single ⟨kind, String.ofList chars⟩ rest

/-- What stands between the braces of a method. -/
def bodyRow : List Line → Row
  | [] => put .blank "\n\t\t".toList .empty
  | .statement indent inner :: rest =>
    put .blank ('\n' :: indent.chars) (inner.row.append (put .mark [';'] (bodyRow rest)))
  | .comment indent note :: rest =>
    put .blank ('\n' :: indent.chars) (put .comment note.chars (bodyRow rest))

/-- Comments, a line for each. -/
def commentsRow (rest : Row) : List (List Char) → Row
  | [] => rest
  | comment :: comments =>
    put .comment comment (put .blank "\n\t\t".toList (commentsRow rest comments))

/-- A method before the row that follows it. -/
def Method.declarationRow (method : Method) (rest : Row) : Row :=
  put .word "private".toList <| put .blank " ".toList <| put .word "void".toList <|
    put .blank " ".toList <| put .word method.identifier.chars <| .group .round .empty <|
    put .blank "\n\t\t".toList <| .group .brace (bodyRow method.body) rest

def Method.row (method : Method) (rest : Row) : Row :=
  commentsRow (method.declarationRow rest) method.comments

/-- Methods, behind the line ends that come before them. -/
def methodsRow (gap : List Char) : List Method → Row
  | [] => put .blank (gap ++ "\t".toList) .empty
  | method :: rest =>
    put .blank (gap ++ "\t\t".toList) (method.row (methodsRow "\n\n".toList rest))

def spaceRow (rest : Row) : List Identifier → Row
  | [] => rest
  | [last] => put .word last.chars rest
  | first :: second :: others =>
    put .word first.chars (put .mark ['.'] (spaceRow rest (second :: others)))

def File.classRow (file : File) : Row :=
  put .blank "\n\t".toList <| put .word "public".toList <| put .blank " ".toList <|
    put .word "partial".toList <| put .blank " ".toList <| put .word "class".toList <|
    put .blank " ".toList <| put .word file.name.chars <| put .blank "\n\t".toList <|
    .group .brace (methodsRow "\n".toList file.methods) <| put .blank "\n".toList .empty

def File.row (file : File) : Row :=
  put .word "namespace".toList <| put .blank " ".toList <|
    spaceRow (put .blank "\n".toList <| .group .brace file.classRow <|
      put .blank "\n".toList .empty) file.space

/-- What stands in front of the braces of a method. -/
def Method.headChars (method : Method) : List Char :=
  "private void ".toList ++ method.identifier.chars ++ "()\n\t\t".toList

/-- The comments above a method, up to its header. -/
def Method.commentChars (method : Method) : List Char :=
  method.comments.flatMap (· ++ "\n\t\t".toList)

/-- A method from its first comment to its closing brace. -/
def Method.writtenChars (method : Method) : List Char :=
  method.commentChars ++ (method.headChars ++
    '\x7b' :: ((bodyRow method.body).chars ++ ['\x7d']))

@[simp] theorem chars_put (kind : Lexeme.Kind) (chars : List Char) (rest : Row) :
    (put kind chars rest).chars = chars ++ rest.chars := by
  rw [put, Row.chars_single, Lexeme.chars, String.toList_ofList]

theorem forest_put (kind : Lexeme.Kind) (chars : List Char) (rest : Row) (place : Place) :
    (put kind chars rest).forest place =
      .leaf ⟨kind, String.ofList chars, place.byte, place.row⟩
        (rest.forest (place.after chars)) := by
  rw [put, Row.forest, Lexeme.chars, String.toList_ofList]
  rfl

theorem chars_bodyRow (body : List Line) :
    (bodyRow body).chars = '\n' :: (body.flatMap Line.chars ++ "\t\t".toList) := by
  induction body with
  | nil => rfl
  | cons line rest ih =>
    cases line <;> simp [bodyRow, ih, Line.chars, Line.text, Statement.chars]

theorem chars_commentsRow (rest : Row) (comments : List (List Char)) :
    (commentsRow rest comments).chars =
      comments.flatMap (· ++ "\n\t\t".toList) ++ rest.chars := by
  induction comments with
  | nil => rfl
  | cons comment comments ih => simp [commentsRow, ih]

theorem Method.chars_declarationRow (method : Method) (rest : Row) :
    (method.declarationRow rest).chars =
      method.headChars ++ '\x7b' :: ((bodyRow method.body).chars ++ ['\x7d']) ++ rest.chars := by
  unfold Method.declarationRow Method.headChars
  simp [Bracket.opening, Bracket.closing, Lexeme.chars]

theorem Method.chars_row (method : Method) (rest : Row) :
    (method.row rest).chars = method.writtenChars ++ rest.chars := by
  rw [Method.row, chars_commentsRow, Method.chars_declarationRow, Method.writtenChars,
    Method.commentChars]
  simp only [List.append_assoc]

theorem flatMap_indented (comments : List (List Char)) :
    comments.flatMap (fun comment ↦ "\t\t".toList ++ comment ++ "\n".toList) ++ "\t\t".toList =
      "\t\t".toList ++ comments.flatMap (· ++ "\n\t\t".toList) := by
  induction comments with
  | nil => rfl
  | cons comment comments ih =>
    rw [List.flatMap_cons, List.append_assoc, ih]
    simp

/-- A method is written behind an indent and before an empty line. -/
theorem Method.chars_eq (method : Method) :
    method.chars = "\t\t".toList ++ method.writtenChars ++ "\n\n".toList := by
  have hhead : method.chars =
      (method.comments.flatMap (fun comment ↦ "\t\t".toList ++ comment ++ "\n".toList) ++
        "\t\t".toList) ++ (method.headChars ++ '\x7b' :: ((bodyRow method.body).chars ++
          "\x7d\n\n".toList)) := by
    rw [chars_bodyRow]
    unfold Method.chars Method.headChars
    simp
  rw [hhead, flatMap_indented, Method.writtenChars, Method.commentChars]
  simp

theorem chars_methodsRow (gap : List Char) (methods : List Method) :
    (methodsRow gap methods).chars = gap ++ (methods.flatMap Method.chars ++ "\t".toList) := by
  induction methods generalizing gap with
  | nil => simp [methodsRow]
  | cons method rest ih =>
    rw [methodsRow, chars_put, Method.chars_row, ih, List.flatMap_cons, Method.chars_eq]
    simp only [List.append_assoc]

theorem chars_spaceRow (rest : Row) (space : List Identifier) :
    (spaceRow rest space).chars =
      ['.'].intercalate (space.map Identifier.chars) ++ rest.chars := by
  fun_induction spaceRow rest space with
  | case1 => rfl
  | case2 last => simp [List.intercalate]
  | case3 first second others ih => simp_all [List.intercalate]

/-- The row of a file is written as the file. -/
theorem chars_fileRow (file : File) : file.row.chars = file.chars := by
  have hopening : Bracket.brace.opening.chars = ['\x7b'] := rfl
  have hclosing : Bracket.brace.closing.chars = ['\x7d'] := rfl
  unfold File.row File.classRow File.chars File.spaceChars
  simp only [chars_put, chars_spaceRow, chars_methodsRow, Row.chars_group, Row.chars_empty,
    hopening, hclosing, List.append_assoc]
  simp

/-! ### Standing -/

section Standing

variable {chars behind : List Char} {rest : Row}

theorem stands_blank (hchars : chars ≠ []) (hgap : ∀ c ∈ chars, Lexeme.isGap c = true)
    (hhead : ∀ c ∈ (rest.chars ++ behind).head?, Lexeme.isGap c = false)
    (hrest : rest.Stands behind) : (put .blank chars rest).Stands behind :=
  ⟨.blank hchars hgap hhead, rfl, hrest⟩

theorem stands_word (hword : Lexeme.isWholeWord chars = true)
    (hhead : ∀ c ∈ (rest.chars ++ behind).head?, Lexeme.isWordPart c = false)
    (hrest : rest.Stands behind) : (put .word chars rest).Stands behind :=
  ⟨.word hword hhead, rfl, hrest⟩

theorem stands_comment {text : List Char} (hline : ∀ c ∈ text, Lexeme.isLineEnd c = false)
    (hhead : ∀ c ∈ (rest.chars ++ behind).head?, Lexeme.isLineEnd c = true)
    (hrest : rest.Stands behind) : (put .comment ('/' :: '/' :: text) rest).Stands behind :=
  ⟨.comment hline hhead, rfl, hrest⟩

theorem stands_mark {c : Char} (hmark : Lexeme.isMarkChar c = true)
    (halone : c ∉ "=!<>+-*/%&|^:".toList)
    (hbracket : Lexeme.isBracket ⟨.mark, String.ofList [c]⟩ = false) (hrest : rest.Stands behind) :
    (put .mark [c] rest).Stands behind :=
  ⟨Lexeme.stands_alone hmark halone _, hbracket, hrest⟩

theorem head_put {test : Char → Prop} {kind : Lexeme.Kind} (hchars : chars ≠ [])
    (hhead : ∀ c ∈ chars.head?, test c) :
    ∀ c ∈ ((put kind chars rest).chars ++ behind).head?, test c := by
  obtain ⟨c, tail, rfl⟩ := List.exists_cons_of_ne_nil hchars
  rwa [chars_put]

theorem head_cons {test : Char → Prop} {kind : Lexeme.Kind} {c : Char} (hhead : test c) :
    ∀ d ∈ ((put kind (c :: chars) rest).chars ++ behind).head?, test d :=
  head_put (List.cons_ne_nil c chars) fun _ hd ↦ Option.some.inj hd ▸ hhead

theorem head_group {test : Char → Prop} {bracket : Bracket} {inner : Row}
    (hhead : ∀ c ∈ bracket.opening.chars.head?, test c) :
    ∀ c ∈ ((Row.group bracket inner rest).chars ++ behind).head?, test c := by
  cases bracket <;> exact hhead

theorem head_closing (bracket : Bracket) (behind : List Char) :
    ∀ c ∈ (bracket.closing.chars ++ behind).head?, Lexeme.isGap c = false := by
  intro c hc
  cases bracket <;> exact Option.some.inj hc ▸ by decide

theorem isWholeWord_of_isName {name : List Char} (hname : isName name = true) :
    Lexeme.isWholeWord name = true := by
  cases name with
  | nil => contradiction
  | cons c rest =>
    rw [isName] at hname
    split at hname
    case isTrue hat =>
      cases rest with
      | nil => contradiction
      | cons d rest =>
        rw [isPlainName, Bool.and_eq_true] at hname
        simp only [Lexeme.isWholeWord, hat, hname.2, decide_true, List.isEmpty_cons, Bool.not_false,
          Bool.and_self, Bool.or_true]
    case isFalse hat =>
      rw [isPlainName, List.all_cons, Bool.and_eq_true, Bool.and_eq_true] at hname
      simp only [Lexeme.isWholeWord, hname.2, Bool.true_or, Bool.and_self]

theorem Identifier.head (identifier : Identifier) :
    identifier.chars ≠ [] ∧ ∀ c ∈ identifier.chars.head?, Lexeme.isGap c = false := by
  obtain ⟨c, tail, hchars, hgap⟩ :=
    Lexeme.isGap_head_of_isWholeWord (isWholeWord_of_isName identifier.isName)
  rw [hchars]
  exact ⟨List.cons_ne_nil c tail, fun d hd ↦ Option.some.inj hd ▸ hgap⟩

theorem Statement.head (statement : Statement) :
    ∀ c ∈ ((statement.row.append (put .mark [';'] rest)).chars ++ behind).head?,
      Lexeme.isGap c = false := by
  obtain ⟨row, hstands, -, hflush⟩ := statement
  cases row with
  | empty => exact head_put (List.cons_ne_nil _ _) (by decide)
  | single lexeme others =>
    obtain ⟨c, tail, htext, hgap⟩ := hstands.1.isGap_head (hflush lexeme rfl)
    rw [Row.append, Row.chars_single, Lexeme.chars, htext]
    exact fun d hd ↦ Option.some.inj hd ▸ hgap
  | group bracket inner others => exact head_group (by cases bracket <;> decide)

theorem Statement.stands_append (statement : Statement) (hrest : rest.Stands behind) :
    (statement.row.append (put .mark [';'] rest)).Stands behind :=
  Row.stands_append (statement.stands.congr (by rw [chars_put]; rfl))
    (stands_mark (by decide) (by decide) (by decide) hrest)

theorem Indent.isGap_cons (indent : Indent) : ∀ c ∈ '\n' :: indent.chars, Lexeme.isGap c = true :=
  List.forall_mem_cons.mpr ⟨by decide, indent.isGap⟩

theorem stands_bodyRow (body : List Line)
    (hbehind : ∀ c ∈ behind.head?, Lexeme.isGap c = false) : (bodyRow body).Stands behind := by
  induction body with
  | nil => exact stands_blank (by decide) (by decide) hbehind trivial
  | cons line rest ih =>
    cases line with
    | statement indent inner =>
      exact stands_blank (List.cons_ne_nil _ _) indent.isGap_cons inner.head
        (inner.stands_append ih)
    | comment indent note =>
      refine stands_blank (List.cons_ne_nil _ _) indent.isGap_cons
        (head_cons (by decide)) (stands_comment note.isInline ?_ ih)
      cases rest with
      | nil => exact head_put (by decide) (by decide)
      | cons next rest => cases next <;> exact head_cons (by decide)

theorem Identifier.stands (identifier : Identifier)
    (hhead : ∀ c ∈ (rest.chars ++ behind).head?, Lexeme.isWordPart c = false)
    (hrest : rest.Stands behind) : (put .word identifier.chars rest).Stands behind :=
  stands_word (isWholeWord_of_isName identifier.isName) hhead hrest

/-- Assumes: texts that are comments up to the line end. -/
theorem stands_commentsRow {comments : List (List Char)}
    (hcomments : ∀ comment ∈ comments, ∃ text, comment = '/' :: '/' :: text ∧
      ∀ c ∈ text, Lexeme.isLineEnd c = false)
    (hhead : ∀ c ∈ (rest.chars ++ behind).head?, Lexeme.isGap c = false)
    (hrest : rest.Stands behind) :
    (commentsRow rest comments).Stands behind ∧
      ∀ c ∈ ((commentsRow rest comments).chars ++ behind).head?, Lexeme.isGap c = false := by
  induction comments with
  | nil => exact ⟨hrest, hhead⟩
  | cons comment comments ih =>
    rw [List.forall_mem_cons] at hcomments
    obtain ⟨⟨text, rfl, htext⟩, hothers⟩ := hcomments
    obtain ⟨hstands, hgap⟩ := ih hothers
    exact ⟨stands_comment htext (head_put (by decide) (by decide))
      (stands_blank (by decide) (by decide) hgap hstands), head_cons (by decide)⟩

theorem Method.exists_comment {method : Method} {comment : List Char}
    (hcomment : comment ∈ method.comments) :
    ∃ text, comment = '/' :: '/' :: text ∧ ∀ c ∈ text, Lexeme.isLineEnd c = false := by
  rw [Method.comments] at hcomment
  split at hcomment
  · exact absurd hcomment List.not_mem_nil
  · rw [List.mem_append, List.mem_append, List.mem_singleton, List.mem_singleton,
      List.mem_map] at hcomment
    rcases hcomment with (rfl | ⟨doc, -, rfl⟩) | rfl
    · exact ⟨"/ <summary>".toList, rfl, by decide⟩
    · refine ⟨"/ ".toList ++ doc.chars, rfl, List.forall_mem_append.mpr ⟨by decide, doc.isInline⟩⟩
    · exact ⟨"/ </summary>".toList, rfl, by decide⟩

theorem Method.stands_row (method : Method) (hrest : rest.Stands behind) :
    (method.row rest).Stands behind ∧
      ∀ c ∈ ((method.row rest).chars ++ behind).head?, Lexeme.isGap c = false := by
  refine stands_commentsRow (fun _ ↦ exists_comment) (head_put (by decide) (by decide)) ?_
  refine stands_word (by decide) (head_put (by decide) (by decide)) ?_
  refine stands_blank (by decide) (by decide) (head_put (by decide) (by decide)) ?_
  refine stands_word (by decide) (head_put (by decide) (by decide)) ?_
  refine stands_blank (by decide) (by decide)
    (head_put method.identifier.head.1 method.identifier.head.2) ?_
  refine method.identifier.stands (head_group (by decide)) ⟨trivial, ?_⟩
  refine stands_blank (by decide) (by decide) (head_group (by decide)) ⟨?_, hrest⟩
  exact stands_bodyRow method.body (head_closing _ _)

theorem stands_methodsRow {gap : List Char} (methods : List Method)
    (hgap : ∀ c ∈ gap, Lexeme.isGap c = true)
    (hbehind : ∀ c ∈ behind.head?, Lexeme.isGap c = false) :
    (methodsRow gap methods).Stands behind := by
  induction methods generalizing gap with
  | nil =>
    exact stands_blank (by simp) (List.forall_mem_append.mpr ⟨hgap, by decide⟩) hbehind trivial
  | cons method rest ih =>
    have hline : ∀ c ∈ "\n\n".toList, Lexeme.isGap c = true := by decide
    obtain ⟨hstands, hhead⟩ := method.stands_row (ih hline)
    exact stands_blank (by simp) (List.forall_mem_append.mpr ⟨hgap, by decide⟩) hhead hstands

theorem stands_spaceRow (space : List Identifier)
    (hhead : ∀ c ∈ (rest.chars ++ behind).head?, Lexeme.isWordPart c = false)
    (hrest : rest.Stands behind) : (spaceRow rest space).Stands behind := by
  fun_induction spaceRow rest space with
  | case1 => exact hrest
  | case2 last => exact last.stands hhead hrest
  | case3 first second others ih =>
    exact first.stands (head_cons (by decide))
      (stands_mark (by decide) (by decide) (by decide) ih)

end Standing

theorem File.stands_classRow (file : File) {behind : List Char}
    (hbehind : ∀ c ∈ behind.head?, Lexeme.isGap c = false) : file.classRow.Stands behind := by
  refine stands_blank (by decide) (by decide) (head_put (by decide) (by decide)) ?_
  refine stands_word (by decide) (head_put (by decide) (by decide)) ?_
  refine stands_blank (by decide) (by decide) (head_put (by decide) (by decide)) ?_
  refine stands_word (by decide) (head_put (by decide) (by decide)) ?_
  refine stands_blank (by decide) (by decide) (head_put (by decide) (by decide)) ?_
  refine stands_word (by decide) (head_put (by decide) (by decide)) ?_
  refine stands_blank (by decide) (by decide) (head_put file.name.head.1 file.name.head.2) ?_
  refine file.name.stands (head_put (by decide) (by decide)) ?_
  refine stands_blank (by decide) (by decide) (head_group (by decide)) ⟨?_, ?_⟩
  · exact stands_methodsRow file.methods (by decide) (head_closing _ _)
  · exact stands_blank (by decide) (by decide) hbehind trivial

/-- Every lexeme of a file stands before the next. -/
theorem File.stands_row (file : File) : file.row.Stands [] := by
  refine stands_word (by decide) (head_put (by decide) (by decide)) ?_
  refine stands_blank (by decide) (by decide) ?_ ?_
  · obtain ⟨first, others, hspace⟩ := List.exists_cons_of_ne_nil file.isNamed
    rw [hspace]
    cases others <;> exact head_put first.head.1 first.head.2
  · refine stands_spaceRow _ (head_put (by decide) (by decide)) ?_
    refine stands_blank (by decide) (by decide) (head_group (by decide)) ⟨?_, ?_⟩
    · exact file.stands_classRow (by decide)
    · exact stands_blank (by decide) (by decide) (by decide) trivial

/-- A file is read as its row. -/
theorem File.ofSource_chars (file : File) : Forest.ofSource file.chars = file.row.forest {} := by
  rw [← chars_fileRow]
  exact Row.ofSource_chars file.stands_row

/-! ### Simple statements -/

theorem isLineEnd_of_isGap {c : Char} (hgap : Lexeme.isGap c = false) :
    Lexeme.isLineEnd c = false := by
  cases hend : Lexeme.isLineEnd c with
  | false => rfl
  | true =>
    rw [Lexeme.isLineEnd, Bool.or_eq_true, decide_eq_true_eq, decide_eq_true_eq] at hend
    rcases hend with rfl | rfl <;> exact absurd hgap (by decide)

theorem Identifier.isInline (identifier : Identifier) :
    ∀ c ∈ identifier.chars, Lexeme.isLineEnd c = false := by
  obtain ⟨c, tail, hchars, hhead, htail⟩ :=
    Lexeme.exists_cons_of_isWholeWord (isWholeWord_of_isName identifier.isName)
  rw [hchars]
  refine List.forall_mem_cons.mpr ⟨?_, fun d hd ↦ ?_⟩
  · rcases hhead with hword | ⟨rfl, -⟩
    · exact isLineEnd_of_isGap (Lexeme.isGap_eq_false_of_isWordPart hword)
    · decide
  · exact isLineEnd_of_isGap (Lexeme.isGap_eq_false_of_isWordPart (htail d hd))

theorem isInline_of_isQuoted {content : List Char} (hcontent : Lexeme.isQuoted '"' content = true) :
    ∀ c ∈ content, Lexeme.isLineEnd c = false := by
  fun_induction Lexeme.isQuoted '"' content with
  | case1 => exact List.forall_mem_nil _
  | case2 c rest ih =>
    rw [Bool.and_eq_true, Bool.not_eq_true'] at hcontent
    exact List.forall_mem_cons.mpr ⟨by decide, List.forall_mem_cons.mpr ⟨hcontent.1, ih hcontent.2⟩⟩
  | case3 c rest _ ih =>
    rw [Bool.and_eq_true, Bool.and_eq_true, Bool.not_eq_true'] at hcontent
    exact List.forall_mem_cons.mpr ⟨hcontent.1.2, ih hcontent.2⟩

/-- The statement that calls a name without arguments. -/
def Statement.call (name : Identifier) : Statement where
  row := put .word name.chars (.group .round .empty .empty)
  stands := name.stands (head_group (by decide)) ⟨trivial, trivial⟩
  isInline := by
    rw [chars_put]
    exact List.forall_mem_append.mpr ⟨name.isInline, by decide⟩
  isFlush := by
    intro lexeme hlexeme
    rw [← Option.some.inj hlexeme]
    exact Lexeme.Kind.noConfusion

/-- The statement that assigns a literal to a name, whatever the literal holds. -/
def Statement.assign (name : Identifier) (content : List Char)
    (hcontent : Lexeme.isQuoted '"' content = true) : Statement where
  row := put .word name.chars <| put .blank [' '] <| put .mark ['='] <| put .blank [' '] <|
    put .literal ('"' :: (content ++ ['"'])) .empty
  stands := by
    refine name.stands (head_cons (by decide)) ?_
    refine stands_blank (by decide) (by decide) (head_cons (by decide)) ?_
    refine ⟨.mark (by decide) (head_cons (by decide)) (fun _ _ h ↦ absurd h (by decide)),
      by decide, ?_⟩
    refine stands_blank (by decide) (by decide) (head_cons (by decide)) ?_
    exact ⟨.string hcontent (by decide), rfl, trivial⟩
  isInline := by
    have hinline := isInline_of_isQuoted hcontent
    simp only [chars_put, List.forall_mem_append, List.forall_mem_cons]
    exact ⟨name.isInline, by decide, by decide, by decide, ⟨by decide, hinline, by decide⟩,
      by decide⟩
  isFlush := by
    intro lexeme hlexeme
    rw [← Option.some.inj hlexeme]
    exact Lexeme.Kind.noConfusion

end Conform.Rendering
