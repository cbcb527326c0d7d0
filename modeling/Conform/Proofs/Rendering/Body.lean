import Conform.Expression
import Conform.Proofs.Rendering.Layout
import Conform.Proofs.Source.Block
import Mathlib.Data.List.DropRight

/-!
The bodies of generated methods. Of the trees between the braces of a method those that belong to a
statement are its code, and they reach from the first statement to the last: a comment between two
statements opens nothing and closes nothing, and neither does what a literal holds. Laid out, the
code is the lines of the body without the comments behind the last statement (`laidOut_body`).
-/

set_option autoImplicit false

namespace Conform

/-! ### The laid-out form -/

theorem Expression.lineEnd?_newline (start : Nat) (cs : List Char) :
    lineEnd? start ('\n' :: cs) = some (start + 1) := rfl

/-- Assumes: a block whose opening brace ends its line, and whose code ends a line within the block.
Statements that start in the code and end it are laid out as the code, with its line end. -/
theorem Expression.laidOut_lines {source before front rest code inside behind : List Char}
    (hfront : source = before ++ '\x7b' :: '\n' :: (front ++ rest))
    (hcode : source = before ++ '\x7b' :: '\n' :: (code ++ '\n' :: (inside ++ behind))) :
    laidOut source
        ⟨Text.bytes before,
          Text.bytes before + 1 + Text.bytes ('\n' :: (code ++ '\n' :: inside)) + 1⟩
        (some ⟨Text.bytes before + 1 + Text.bytes ('\n' :: front),
          Text.bytes before + 1 + Text.bytes ('\n' :: code)⟩) =
      code ++ ['\n'] := by
  have hbrace : '\x7b'.utf8Size = 1 := rfl
  have hnewline : '\n'.utf8Size = 1 := rfl
  have hfirst : Text.slice ⟨Text.bytes before + 1,
      Text.bytes before + 1 + Text.bytes ('\n' :: front)⟩ source = '\n' :: front := by
    have hparts : source = (before ++ ['\x7b']) ++ ('\n' :: front ++ rest) := by simpa using hfront
    exact Text.slice_eq hparts (Text.bytes_append before ['\x7b']).symm rfl
  have hlast : Text.slice ⟨Text.bytes before + 1 + Text.bytes ('\n' :: code),
      Text.bytes before + 1 + Text.bytes ('\n' :: (code ++ '\n' :: inside))⟩ source =
      '\n' :: inside := by
    have hparts : source = (before ++ '\x7b' :: '\n' :: code) ++ ('\n' :: inside ++ behind) := by
      simpa using hcode
    refine Text.slice_eq hparts ?_ ?_ <;> simp only [Text.bytes_append, Text.bytes_cons] <;> omega
  have hparts : source = (before ++ ['\x7b', '\n']) ++ (code ++ ['\n'] ++ (inside ++ behind)) := by
    simpa using hcode
  rw [laidOut, layout]
  simp only [Nat.add_sub_cancel, hfirst, hlast, lineEnd?_newline, Option.getD_some]
  refine Text.slice_eq hparts ?_ ?_ <;>
    simp only [Text.bytes_append, Text.bytes] <;> omega

namespace Rendering

open Source

/-! ### The span of a body -/

theorem exists_head_line {chars : List Char} (hinline : ∀ c ∈ chars, Lexeme.isLineEnd c = false) :
    ∃ c ∈ (chars ++ [';']).head?, Lexeme.isLineEnd c = false := by
  cases chars with
  | nil => exact ⟨';', rfl, by decide⟩
  | cons c rest => exact ⟨c, rfl, hinline c List.mem_cons_self⟩

/-- The trees up to the semicolon that ends a statement, and those of them that are its code. -/
theorem code_line {row : Row} (hstands : row.Stands [';'])
    (hinline : ∀ c ∈ row.chars, Lexeme.isLineEnd c = false) (rest : Row) (place : Place)
    {course : Course} (hframes : course.frames = []) :
    ∃ spans, ∃ next : Course, next.phase = .ready ∧ next.frames = [] ∧
      ((row.append (put .mark [';'] rest)).forest place).code course =
        spans ++ (rest.forest (place.after (row.chars ++ [';']))).code next ∧
      spans.getLast?.map Span.stop = some (place.after (row.chars ++ [';'])).byte ∧
      ((∀ lexeme ∈ row.lexemes.head?, lexeme.kind ≠ .blank) →
        spans.head?.map Span.start = some place.byte) := by
  -- No directive stands in a line, so no conditional group opens on the way to the semicolon.
  induction row generalizing place course with
  | empty =>
    obtain ⟨next, hready, hnext, hcode⟩ := Forest.code_semicolon hframes place
      (rest.forest (place.after [';']))
    rw [Row.append, forest_put, hcode]
    exact ⟨[_], next, hready, hnext, rfl, rfl, fun _ ↦ rfl⟩
  | single lexeme others ih =>
    obtain ⟨hlexeme, hbracket, hothers⟩ := hstands
    rw [Row.chars_single, List.forall_mem_append] at hinline
    rw [Row.append, Row.forest, Row.chars_single, List.append_assoc, Place.after_append]
    by_cases hblank : lexeme.kind = .blank
    case pos =>
      obtain ⟨spans, next, hready, hnext, hcode, hstop, -⟩ :=
        ih hothers hinline.2 (place.after lexeme.chars) hframes
      rw [Forest.code_blank _ _ hblank]
      exact ⟨spans, next, hready, hnext, hcode, hstop,
        fun hflush ↦ absurd hblank (hflush lexeme rfl)⟩
    case neg =>
      obtain ⟨hcomment, hdirective⟩ := hlexeme.kind_ne (exists_head_line hinline.2)
      have htrivia : (lexeme.at place).isTrivia = false := by
        simp [Token.isTrivia, Lexeme.at, hblank, hcomment, hdirective]
      obtain ⟨behind, hbehind, hleaf⟩ := Forest.code_leaf (Course.isFree_eq_false hframes) htrivia
        (Row.not_bracket_at hbracket place).2
        ((others.append (put .mark [';'] rest)).forest (place.after lexeme.chars))
      obtain ⟨spans, next, hready, hnext, hcode, hstop, -⟩ :=
        ih hothers hinline.2 (place.after lexeme.chars) (hbehind.trans hframes)
      rw [hleaf, hcode]
      exact ⟨_ :: spans, next, hready, hnext, rfl, getLast?_stop_cons hstop _, fun _ ↦ rfl⟩
  | group bracket inner others _ ih =>
    obtain ⟨-, hothers⟩ := hstands
    rw [Row.chars_group, List.forall_mem_append, List.forall_mem_append,
      List.forall_mem_append] at hinline
    obtain ⟨-, -, -, hline⟩ := hinline
    rw [Row.append, Row.forest, Row.chars_group, List.append_assoc, List.append_assoc,
      List.append_assoc, Place.after_append, Place.after_append, Place.after_append]
    let inside := place.after bracket.opening.chars
    let ending := inside.after inner.chars
    obtain ⟨behind, hbehind, hgroup⟩ := Forest.code_group (Course.isFree_eq_false hframes)
      (bracket.opening.at place) (inner.forest inside) (some (bracket.closing.at ending))
      ((others.append (put .mark [';'] rest)).forest (ending.after bracket.closing.chars))
    obtain ⟨spans, next, hready, hnext, hcode, hstop, -⟩ := ih hothers hline _ (hbehind.trans hframes)
    rw [hgroup, hcode]
    exact ⟨_ :: spans, next, hready, hnext, rfl, getLast?_stop_cons hstop _, fun _ ↦ rfl⟩

theorem Statement.code_append (statement : Statement) (rest : Row) (place : Place)
    {course : Course} (hframes : course.frames = []) :
    ∃ spans, ∃ next : Course, next.phase = .ready ∧ next.frames = [] ∧
      hull spans = some ⟨place.byte, place.byte + Text.bytes statement.chars⟩ ∧
      ((statement.row.append (put .mark [';'] rest)).forest place).code course =
        spans ++ (rest.forest (place.after statement.chars)).code next := by
  obtain ⟨spans, next, hready, hnext, hcode, hstop, hstart⟩ :=
    code_line statement.stands statement.isInline rest place hframes
  exact ⟨spans, next, hready, hnext, hull_eq_some (hstart statement.isFlush) hstop, hcode⟩

/-- The spans of the statements of lines, the first of which comes behind a line end at a byte. -/
def statementSpans (start : Nat) : List Line → List Span
  | [] => []
  | .statement indent inner :: rest =>
    let first := start + Text.bytes ('\n' :: indent.chars)
    let last := first + Text.bytes inner.chars
    ⟨first, last⟩ :: statementSpans last rest
  | .comment indent note :: rest =>
    statementSpans (start + Text.bytes ('\n' :: indent.chars) + Text.bytes note.chars) rest

/-- The code of a body reaches from its first statement to its last. -/
theorem hull_code_bodyRow (body : List Line) (place : Place) {course : Course}
    (hready : course.phase = .ready) (hframes : course.frames = []) :
    hull (((bodyRow body).forest place).code course) = hull (statementSpans place.byte body) := by
  induction body generalizing place course with
  | nil =>
    rw [bodyRow, forest_put, Forest.code_blank _ _ rfl]
    rfl
  | cons line rest ih =>
    cases line with
    | statement indent inner =>
      obtain ⟨spans, next, hphase, hnext, hspans, hcode⟩ :=
        inner.code_append (bodyRow rest) (place.after ('\n' :: indent.chars)) hframes
      rw [bodyRow, forest_put, Forest.code_blank _ _ rfl, hcode, hull_append hspans, hull_cons,
        ih _ hphase hnext, statementSpans, hull_cons]
      rfl
    | comment indent note =>
      rw [bodyRow, forest_put, forest_put, Forest.code_blank _ _ rfl,
        Forest.code_comment _ _ rfl hready, ih _ hready hframes]
      rfl

/-! ### The lines of the code -/

def Line.isComment : Line → Bool
  | .statement _ _ => false
  | .comment _ _ => true

/-- The lines of a body up to its last statement. -/
def codeLines (body : List Line) : List Line :=
  body.rdropWhile Line.isComment

/-- Lines as they stand behind a line end, the last one without its own. -/
def leadChars (lines : List Line) : List Char :=
  lines.flatMap ('\n' :: ·.text)

theorem leadChars_cons (line : Line) (rest : List Line) :
    leadChars (line :: rest) = '\n' :: line.text ++ leadChars rest :=
  List.flatMap_cons

theorem leadChars_append (front back : List Line) :
    leadChars (front ++ back) = leadChars front ++ leadChars back :=
  List.flatMap_append

theorem leadChars_append_newline (lines : List Line) (behind : List Char) :
    leadChars lines ++ '\n' :: behind = '\n' :: (lines.flatMap Line.chars ++ behind) := by
  induction lines with
  | nil => rfl
  | cons line rest ih =>
    rw [leadChars_cons, List.append_assoc, ih]
    simp [Line.chars]

theorem statementSpans_append (start : Nat) (front back : List Line) :
    statementSpans start (front ++ back) =
      statementSpans start front ++ statementSpans (start + Text.bytes (leadChars front)) back := by
  induction front generalizing start with
  | nil => rfl
  | cons line rest ih =>
    rw [leadChars_cons, Text.bytes_append]
    cases line with
    | statement indent inner =>
      simp only [List.cons_append, statementSpans, ih, Line.text, Text.bytes_cons,
        Text.bytes_append, Nat.add_assoc]
    | comment indent note =>
      simp only [List.cons_append, statementSpans, ih, Line.text, Text.bytes_cons,
        Text.bytes_append, Nat.add_assoc]

theorem statementSpans_comments {lines : List Line} (hlines : ∀ line ∈ lines, line.isComment = true)
    (start : Nat) : statementSpans start lines = [] := by
  induction lines generalizing start with
  | nil => rfl
  | cons line rest ih =>
    rw [List.forall_mem_cons] at hlines
    cases line with
    | statement indent inner => exact absurd hlines.1 Bool.false_ne_true
    | comment indent note => exact ih hlines.2 _

/-- Assumes: lines that are not all comments. The first statement among them. -/
theorem exists_first_statement {body : List Line} (hcode : codeLines body ≠ []) :
    ∃ comments indent inner rest, body = comments ++ .statement indent inner :: rest ∧
      ∀ line ∈ comments, line.isComment = true := by
  induction body with
  | nil => exact absurd rfl hcode
  | cons line rest ih =>
    cases line with
    | statement indent inner => exact ⟨[], indent, inner, rest, rfl, List.forall_mem_nil _⟩
    | comment indent note =>
      have hrest : codeLines rest ≠ [] := fun hnil ↦ hcode <| List.rdropWhile_eq_nil_iff.mpr <|
        List.forall_mem_cons.mpr ⟨rfl, List.rdropWhile_eq_nil_iff.mp hnil⟩
      obtain ⟨comments, first, inner, others, rfl, hcomments⟩ := ih hrest
      exact ⟨.comment indent note :: comments, first, inner, others, rfl,
        List.forall_mem_cons.mpr ⟨rfl, hcomments⟩⟩

/-- Assumes: lines that are not all comments. The last statement among them ends the code. -/
theorem exists_last_statement {body : List Line} (hcode : codeLines body ≠ []) :
    ∃ front indent inner comments, codeLines body = front ++ [.statement indent inner] ∧
      body = codeLines body ++ comments ∧ ∀ line ∈ comments, line.isComment = true := by
  have hlast := List.rdropWhile_last_not Line.isComment body hcode
  have hbody : codeLines body ++ body.rtakeWhile Line.isComment = body :=
    List.rdropWhile_append_rtakeWhile
  have hsplit := List.dropLast_append_getLast hcode
  cases hline : (codeLines body).getLast hcode with
  | comment indent note => exact absurd (congrArg Line.isComment hline) hlast
  | statement indent inner =>
    exact ⟨_, indent, inner, _, (hline ▸ hsplit).symm, hbody.symm,
      fun _ ↦ List.mem_rtakeWhile_imp⟩

/-- Assumes: lines that are not all comments. Their statements start in a line and stop where the
code stops. -/
theorem hull_statementSpans {body : List Line} (hcode : codeLines body ≠ []) (start : Nat) :
    ∃ front behind, leadChars body = '\n' :: front ++ behind ∧
      hull (statementSpans start body) =
        some ⟨start + Text.bytes ('\n' :: front),
          start + Text.bytes (leadChars (codeLines body))⟩ := by
  obtain ⟨comments, indent, inner, rest, hfirst, hcomments⟩ := exists_first_statement hcode
  obtain ⟨lines, gap, last, trailing, hlines, hlast, htrailing⟩ := exists_last_statement hcode
  have hlead : leadChars comments ++ '\n' :: indent.chars =
      '\n' :: (comments.flatMap Line.chars ++ indent.chars) := leadChars_append_newline _ _
  refine ⟨comments.flatMap Line.chars ++ indent.chars, inner.chars ++ leadChars rest, ?_,
    hull_eq_some ?_ ?_⟩
  · rw [← hlead, hfirst, leadChars_append, leadChars_cons, Line.text]
    simp
  · rw [← hlead, hfirst, statementSpans_append, statementSpans_comments hcomments,
      Text.bytes_append, ← Nat.add_assoc]
    rfl
  · have hspans : statementSpans start body = statementSpans start (codeLines body) := by
      refine (congrArg (statementSpans start) hlast).trans ?_
      rw [statementSpans_append, statementSpans_comments htrailing, List.append_nil]
    rw [hspans, hlines, statementSpans_append, List.getLast?_append, leadChars_append]
    simp [statementSpans, leadChars, Line.text, Text.bytes_append, Text.bytes_cons, Nat.add_assoc]

theorem exists_code {lines : List Line} (hlines : lines ≠ []) :
    ∃ code, leadChars lines = '\n' :: code ∧ lines.flatMap Line.chars = code ++ ['\n'] := by
  obtain ⟨line, rest, rfl⟩ := List.exists_cons_of_ne_nil hlines
  have hlead := leadChars_append_newline (line :: rest) []
  rw [List.append_nil] at hlead
  exact ⟨line.text ++ leadChars rest, rfl, (List.cons.inj hlead).2.symm⟩

/-- Assumes: a source in which a body stands between its braces. Laid out, the code of the body is
its lines up to the last statement. -/
theorem laidOut_body (body : List Line) (place : Place) {source before behind : List Char}
    (hsource : source = before ++ '\x7b' :: ((bodyRow body).chars ++ '\x7d' :: behind))
    (hplace : place.byte = Text.bytes before + 1) :
    Expression.laidOut source
        ⟨Text.bytes before, place.byte + Text.bytes (bodyRow body).chars + 1⟩
        ((bodyRow body).forest place).statements? =
      (codeLines body).flatMap Line.chars := by
  rw [Forest.statements?_eq_hull, hull_code_bodyRow body place rfl rfl]
  by_cases hcode : codeLines body = []
  case pos =>
    rw [statementSpans_comments (List.rdropWhile_eq_nil_iff.mp hcode), hcode]
    rfl
  case neg =>
    obtain ⟨front, rest, hfront, hhull⟩ := hull_statementSpans hcode place.byte
    obtain ⟨-, -, -, trailing, -, hbody, -⟩ := exists_last_statement hcode
    obtain ⟨code, hlead, hchars⟩ := exists_code hcode
    have hfull : (bodyRow body).chars = '\n' :: (front ++ (rest ++ '\n' :: "\t\t".toList)) := by
      rw [chars_bodyRow, ← leadChars_append_newline, hfront]
      simp
    have hlines : (bodyRow body).chars =
        '\n' :: (code ++ '\n' :: (trailing.flatMap Line.chars ++ "\t\t".toList)) := by
      rw [chars_bodyRow, hbody, List.flatMap_append, hchars]
      simp
    rw [hhull, hlead, hchars, hplace, hlines]
    have hstart : source = before ++ '\x7b' :: '\n' ::
        (front ++ (rest ++ '\n' :: "\t\t".toList ++ '\x7d' :: behind)) := by
      rw [hsource, hfull]
      simp
    have hstop : source = before ++ '\x7b' :: '\n' ::
        (code ++ '\n' :: (trailing.flatMap Line.chars ++ "\t\t".toList ++ '\x7d' :: behind)) := by
      rw [hsource, hlines]
      simp
    exact Expression.laidOut_lines hstart hstop

end Rendering
end Conform
