import Conform.Extraction
import Conform.Proofs.Extraction.Replacement
import Conform.Proofs.Source.Crlf
import Conform.Proofs.Text.Trim

/-!
Extraction from sources with a carriage return before every line feed. The tokens of such a source
are read as those without the carriage returns (`Source.recast_crlf`), blocks are laid out and
trimmed as before, and the documentation tells the same. So the records are those of the source
without the carriage returns, which are put into the code and into the names of namespaces and
imports (`Extraction.records_crlf`).
-/

set_option autoImplicit false

namespace Conform

namespace Summary

open Text

/-- Assumes: a comment, and one that is a line if it starts like one. Its lines are the same with the
carriage returns. -/
theorem commentLines_crlf {comment : List Char} (hreturn : '\r' ∉ comment)
    (hhead : comment.head? = some '/')
    (hline : after? "///".toList comment ≠ none → '\n' ∉ comment) :
    commentLines (crlf comment) = commentLines comment := by
  cases hafter : after? "///".toList comment with
  | some line => rw [crlf_eq_self (hline (Option.ne_none_iff_exists'.mpr ⟨line, hafter⟩))]
  | none =>
    have hstart : ∀ text : List Char, text.head? = some '/' → trimStart text = text := by
      intro text htext
      refine trimStart_eq_self ?_
      rw [htext]
      rintro _ ⟨⟩
      decide
    have hlines := @after?_crlf "///".toList (by decide) (by decide) comment
    have hnote := @after?_crlf "/**".toList (by decide) (by decide) comment
    rw [commentLines, commentLines, hstart comment hhead,
      hstart _ ((head?_crlf (by decide) (by decide) _).mpr hhead), hlines, hnote, hafter]
    cases hinner : after? "/**".toList comment with
    | none =>
      dsimp only [Option.map_none]
      rw [lines_crlf hreturn]
    | some rest =>
      have hrest : '\r' ∉ rest := fun hmem ↦ hreturn (mem_of_mem_after? hinner hmem)
      have hclose := @before?_crlf "*/".toList (by decide) (by decide) rest
      have hwithin : '\r' ∉ (before? "*/".toList rest).getD rest := by
        cases hbefore : before? "*/".toList rest with
        | none => exact hrest
        | some inner => exact fun hmem ↦ hrest (mem_of_mem_before? hbefore hmem)
      dsimp only [Option.map_none, Option.map_some]
      rw [hclose, Option.getD_map, lines_crlf hwithin]

end Summary

/-! ### Code -/

namespace Expression

open Text

theorem trimmed_crlf (block : List Char) : trimmed (crlf block) = crlf (trimmed block) := by
  unfold trimmed
  rw [cutFirst_crlf (by decide) (by decide)]
  cases cutFirst ['\x7b'] block with
  | none => rfl
  | some parts =>
    rw [Option.map_some]
    dsimp only [Prod.map]
    rw [cutLast_crlf (by decide) (by decide)]
    cases cutLast '\x7d' parts.2 with
    | none => rfl
    | some ends => exact trim_crlf ends.1

variable {source : List Char}

theorem lineEnd?_append {line : List Char} (hline : '\n' ∉ line) (start : Nat) (rest : List Char) :
    lineEnd? start (line ++ '\n' :: rest) = some (start + bytes line + 1) := by
  rw [lineEnd?]
  exact congrArg _ (cutFirst_append hline [] rest)

/-- Assumes: a stretch of whole characters. A line ends in it where it ends with the carriage
returns. -/
theorem lineEnd?_crlf {start stop : Nat} (hstart : IsCut source start) (hstop : IsCut source stop)
    (hle : start ≤ stop) :
    lineEnd? (crlfByte source start) (crlf (slice ⟨start, stop⟩ source)) =
      (lineEnd? start (slice ⟨start, stop⟩ source)).map (crlfByte source) := by
  obtain ⟨front, back, hsource, rfl, -⟩ := exists_slice hstart hstop hle
  generalize slice ⟨bytes front, stop⟩ source = middle at hsource
  by_cases hfeed : '\n' ∈ middle
  · obtain ⟨line, rest, rfl, hline⟩ := List.eq_append_cons_of_mem hfeed
    have hbehind : source = (front ++ (line ++ ['\n'])) ++ (rest ++ back) := by simp [hsource]
    have hcrlf : crlf (line ++ '\n' :: rest) = (line ++ ['\r']) ++ '\n' :: crlf rest := by
      rw [crlf_append, crlf_eq_self hline, crlf_feed]
      simp
    have hstart : crlfByte source (bytes front) = bytes (crlf front) := by
      rw [hsource, crlfByte_bytes]
    have hwidths : bytes ['\n'] = 1 ∧ bytes ['\r'] = 1 ∧ bytes (crlf ['\n']) = 2 := by decide
    have hstop : crlfByte source (bytes front + bytes line + 1) =
        bytes (crlf front) + bytes line + 2 := by
      have hbytes := crlfByte_bytes (front ++ (line ++ ['\n'])) (rest ++ back)
      rw [← hbehind, crlf_append, crlf_append, crlf_eq_self hline] at hbytes
      simp only [bytes_append, hwidths, ← Nat.add_assoc] at hbytes
      exact hbytes
    rw [hcrlf, lineEnd?_append (by simp [hline]), lineEnd?_append hline, Option.map_some, hstart,
      hstop, bytes_append, hwidths.2.1]
    rfl
  · rw [crlf_eq_self hfeed, lineEnd?, lineEnd?, cutFirst_eq_none hfeed]
    rfl

variable {block statements : Span}

/-- Assumes: a block between braces, and statements in it. -/
theorem layout_crlf (hopens : IsCut source (block.start + 1))
    (hcloses : IsCut source (block.stop - 1)) (hstart : IsCut source statements.start)
    (hstop : IsCut source statements.stop) (hbefore : block.start + 1 ≤ statements.start)
    (hbehind : statements.stop ≤ block.stop - 1)
    (hfirst : crlfByte source (block.start + 1) = crlfByte source block.start + 1)
    (hlast : crlfByte source (block.stop - 1) = crlfByte source block.stop - 1) :
    layout (crlf source) (block.map (crlfByte source)) (statements.map (crlfByte source)) =
      (layout source block statements).map (crlfByte source) := by
  simp only [layout, Span.map]
  rw [← hfirst, ← hlast, slice_crlf hopens hstart hbefore, slice_crlf hstop hcloses hbehind,
    lineEnd?_crlf hopens hstart hbefore, lineEnd?_crlf hstop hcloses hbehind, Option.getD_map,
    Option.getD_map]

theorem laidOut_crlf (hopens : IsCut source (block.start + 1))
    (hcloses : IsCut source (block.stop - 1)) {statements : Option Span}
    (hstatements : ∀ inner ∈ statements, IsCut source inner.start ∧ IsCut source inner.stop ∧
      block.start + 1 ≤ inner.start ∧ inner.start ≤ inner.stop ∧ inner.stop ≤ block.stop - 1)
    (hfirst : crlfByte source (block.start + 1) = crlfByte source block.start + 1)
    (hlast : crlfByte source (block.stop - 1) = crlfByte source block.stop - 1) :
    laidOut (crlf source) (block.map (crlfByte source))
        (statements.map (Span.map (crlfByte source))) =
      crlf (laidOut source block statements) := by
  cases statements with
  | none => rfl
  | some statements =>
    obtain ⟨hstart, hstop, hbefore, hle, hbehind⟩ := hstatements statements rfl
    rw [Option.map_some, laidOut, laidOut,
      layout_crlf hopens hcloses hstart hstop hbefore hbehind hfirst hlast]
    refine slice_crlf ?_ ?_ ?_
    · exact @isCut_getD_lineEnd? source ⟨block.start + 1, statements.start⟩ _ hstart
    · exact @isCut_getD_lineEnd? source ⟨statements.stop, block.stop - 1⟩ _ hstop
    · exact (start_layout_le source block statements).trans
        (hle.trans (le_stop_layout source block statements))

end Expression

/-! ### Behaviours -/

def Behaviour.crlf (behaviour : Behaviour) : Behaviour :=
  { behaviour with expression := Text.crlfString behaviour.expression }

def Entity.crlf (entity : Entity) : Entity where
  spaceName := Text.crlfString entity.spaceName
  behaviours := entity.behaviours.map Behaviour.crlf
  imports := entity.imports.map Text.crlfString

def Application.crlf (application : Application) : Application :=
  { application with
    spaceName := Text.crlfString application.spaceName
    expression := Text.crlfString application.expression
    imports := application.imports.map Text.crlfString }

namespace Extraction

open Source

theorem isCustom_crlf (target : String) : isCustom (Text.crlfString target) = isCustom target := by
  have hdefaults : ∀ name ∈ defaultImports, '\n' ∉ name.toList := by decide
  have hcontains : defaultImports.contains (Text.crlfString target) =
      defaultImports.contains target := by
    rw [Bool.eq_iff_iff, List.contains_iff_mem, List.contains_iff_mem]
    by_cases hfeed : '\n' ∈ target.toList
    · refine iff_of_false (fun hmem ↦ hdefaults _ hmem ?_) fun hmem ↦ hdefaults _ hmem hfeed
      rw [Text.toList_crlfString]
      exact (Text.mem_crlf (by decide)).mpr hfeed
    · rw [Text.crlfString_eq_self hfeed]
  have hprefix := @Text.isPrefixOf_crlf generatedPrefix.toList (by decide) (by decide) target.toList
  rw [isCustom, hcontains, Text.toList_crlfString, hprefix, isCustom]

variable {source : List Char} {method : Method}

/-- The braces of a block are characters of a single byte, with the carriage returns as without. -/
theorem braces_crlf (hpaired : (Forest.ofSource source).isPaired = true)
    (hmethod : method ∈ (Structure.ofSource source).methods) {span : Span}
    {statements : Option Span} (hbody : method.body = .block span statements) :
    (Text.IsCut source span.start ∧ Text.IsCut source span.stop) ∧
      Text.crlfByte source (span.start + 1) = Text.crlfByte source span.start + 1 ∧
      Text.crlfByte source (span.stop - 1) = Text.crlfByte source span.stop - 1 := by
  obtain ⟨context, content, -, -, hlexemes, hblock⟩ :=
    Structure.exists_block hpaired hmethod hbody
  obtain ⟨rfl, -⟩ := Body.block.inj hblock
  have hsource := Structure.eq_braced hlexemes
  rw [byte_opens, past_opens, byte_pastBraces]
  generalize context.lead.flatMap Lexeme.chars = before at hsource ⊢
  generalize context.tail.flatMap Lexeme.chars = behind at hsource
  generalize content.chars = inner at hsource ⊢
  have hwidths : '\x7b'.utf8Size = 1 ∧ '\x7d'.utf8Size = 1 := by decide
  have hend : Text.bytes (before ++ '\x7b' :: inner) =
      Text.bytes before + Text.bytes inner + 1 := by
    rw [Text.bytes_append, Text.bytes_cons, hwidths.1]
    omega
  have hsplit : source = (before ++ '\x7b' :: inner) ++ '\x7d' :: behind := by
    rw [hsource, braced, List.append_assoc, List.cons_append]
  have hfirst := @Text.crlfByte_succ '\x7b' (by decide) hwidths.1 before
    (inner ++ '\x7d' :: behind)
  have hlast := @Text.crlfByte_succ '\x7d' (by decide) hwidths.2 (before ++ '\x7b' :: inner) behind
  rw [← braced, ← hsource] at hfirst
  rw [← hsplit, hend] at hlast
  refine ⟨⟨⟨before, hsource ▸ List.prefix_append _ _, rfl⟩, ?_⟩, hfirst, ?_⟩
  · refine ⟨(before ++ '\x7b' :: inner) ++ ['\x7d'], ⟨behind, by rw [hsplit]; simp⟩, ?_⟩
    rw [Text.bytes_append, hend, Text.bytes_cons, hwidths.2]
    rfl
  · exact (Nat.sub_eq_of_eq_add hlast).symm

theorem expression_crlf (hpaired : (Forest.ofSource source).isPaired = true)
    (hmethod : method ∈ (Structure.ofSource source).methods) (dialect : Dialect) :
    expression dialect (Text.crlf source) (method.crlf source) =
      (expression dialect source method).map Text.crlfString := by
  cases hbody : method.body with
  | expression =>
    simp only [expression, Method.crlf, hbody, Body.map]
    rfl
  | missing =>
    simp only [expression, Method.crlf, hbody, Body.map]
    rfl
  | block span statements =>
    obtain ⟨⟨hstart, hstop⟩, hfirst, hlast⟩ := braces_crlf hpaired hmethod hbody
    obtain ⟨hopens, hcloses⟩ := Structure.block_boundaries hpaired hmethod hbody
    obtain ⟨hle, hbounds⟩ := Structure.block_bounds hpaired hmethod hbody
    have hinner : ∀ inner ∈ statements, Text.IsCut source inner.start ∧
        Text.IsCut source inner.stop ∧ span.start + 1 ≤ inner.start ∧ inner.start ≤ inner.stop ∧
          inner.stop ≤ span.stop - 1 := by
      intro inner hinner
      obtain ⟨hbefore, hwithin, hbehind⟩ := hbounds inner hinner
      rw [Option.mem_def.mp hinner] at hbody
      obtain ⟨hfrom, hto⟩ := Structure.statements_boundaries hpaired hmethod hbody
      exact ⟨hfrom.isCut, hto.isCut, hbefore, by omega, by omega⟩
    have hslice := Text.slice_crlf hstart hstop (by omega)
    have hlaidOut := Expression.laidOut_crlf hopens.isCut hcloses.isCut hinner hfirst hlast
    simp only [expression, Method.crlf, hbody, Body.map, hlaidOut]
    rw [Span.map, hslice, Expression.trimmed_crlf, ← Text.crlfString_ofList,
      ← Text.crlfString_ofList]
    split <;> rfl

theorem describe_crlf (hreturn : '\r' ∉ source)
    (hmethod : method ∈ (Structure.ofSource source).methods) (dialect : Dialect) :
    describe dialect (method.crlf source) = describe dialect method := by
  have hlines : ∀ comment ∈ method.docs, Summary.commentLines (Text.crlf comment.toList) =
      Summary.commentLines comment.toList := by
    intro comment hcomment
    obtain ⟨token, htoken, hdoc, rfl⟩ := Structure.exists_doc hmethod hcomment
    refine Summary.commentLines_crlf (fun hmem ↦ hreturn ?_) (Token.head?_of_isDoc hdoc)
      (Token.notMem_of_line htoken)
    exact Token.mem_of_mem_text htoken hmem
  have hdocs : Summary.ofComments (method.crlf source).docs = Summary.ofComments method.docs := by
    rw [Method.crlf, Summary.ofComments, Summary.ofComments, List.flatMap_map]
    simp only [Text.toList_crlfString]
    rw [List.flatMap_congr hlines]
  rw [describe, describe, hdocs, Method.crlf]

theorem behaviour?_crlf (hpaired : (Forest.ofSource source).isPaired = true)
    (hreturn : '\r' ∉ source) (hmethod : method ∈ (Structure.ofSource source).methods)
    (dialect : Dialect) :
    behaviour? dialect (Text.crlf source) (method.crlf source) =
      (behaviour? dialect source method).map (Option.map Behaviour.crlf) := by
  have hname : (method.crlf source).identifier = method.identifier := rfl
  unfold behaviour?
  rw [hname, expression_crlf hpaired hmethod, describe_crlf hreturn hmethod]
  cases dialect.classify? method.identifier with
  | none => cases dialect.isStrict <;> rfl
  | some found =>
    cases expression dialect source method with
    | error failure => rfl
    | ok code =>
      change (if (Text.crlfString code).isEmpty then _ else _) =
        Except.map _ (if code.isEmpty then _ else _)
      rw [Text.isEmpty_crlfString]
      split <;> rfl

/-- Assumes: a source whose brackets are paired, without carriage returns. -/
theorem behavioursOf_crlf (hpaired : (Forest.ofSource source).isPaired = true)
    (hreturn : '\r' ∉ source) (dialect : Dialect) {methods : List Method}
    (hmethods : ∀ method ∈ methods, method ∈ (Structure.ofSource source).methods) :
    behavioursOf dialect (Text.crlf source) (methods.map (Method.crlf source)) =
      (behavioursOf dialect source methods).map (List.map Behaviour.crlf) := by
  induction methods with
  | nil => rfl
  | cons method rest ih =>
    rw [List.forall_mem_cons] at hmethods
    rw [List.map_cons, behavioursOf, behavioursOf, ih hmethods.2,
      behaviour?_crlf hpaired hreturn hmethods.1]
    cases behaviour? dialect source method with
    | error failure => rfl
    | ok found =>
      cases behavioursOf dialect source rest with
      | error failure => rfl
      | ok others => cases found <;> rfl

theorem spaceName_crlf (names : List String) :
    spaceName (names.map Text.crlfString) = (spaceName names).map Text.crlfString := by
  rcases names with _ | ⟨first, _ | ⟨second, rest⟩⟩
  · rfl
  · rfl
  · simp [spaceName, Except.map]

theorem customImports_crlf {found image : Structure}
    (himports : image.imports = found.imports.map Text.crlfString) :
    customImports image = (customImports found).map Text.crlfString := by
  rw [customImports, himports, List.filter_map, customImports]
  exact congrArg _ (List.filter_congr fun target _ ↦ isCustom_crlf target)

/-- Assumes: a source whose brackets are paired, without carriage returns, whose directives end with
their lines: in none of them a slash stands before a line feed with more of the directive behind it,
as in `#region a/` where the text goes on in the next line. With a carriage return before every line
feed the same record is extracted, or none for the same reason; the carriage returns are put into the
code and into the names of the namespace and the imports, and nothing else of the record changes. -/
theorem records_crlf (source : String)
    (hpaired : (Forest.ofSource source.toList).isPaired = true) (hreturn : '\r' ∉ source.toList)
    (hends : ∀ lexeme ∈ Lexeme.ofChars source.toList, lexeme.kind = .directive →
      Directive.EndsLine lexeme.chars) :
    (∀ dialect, entity dialect (Text.crlfString source) =
      (entity dialect source).map Entity.crlf) ∧
    application (Text.crlfString source) = (application source).map Application.crlf := by
  have himports := customImports_crlf (Structure.imports_crlf hreturn hends)
  have hnames := Structure.spaceNames_crlf hreturn hends
  have hmethods := Structure.methods_crlf hreturn hends
  refine ⟨fun dialect ↦ ?_, ?_⟩
  · unfold entity
    dsimp only
    rw [Text.toList_crlfString, hnames, hmethods, spaceName_crlf, himports,
      behavioursOf_crlf hpaired hreturn dialect fun _ hmethod ↦ hmethod]
    cases spaceName (Structure.ofSource source.toList).spaceNames with
    | error failure => rfl
    | ok name =>
      cases behavioursOf dialect source.toList (Structure.ofSource source.toList).methods <;> rfl
  · unfold application
    dsimp only
    rw [Text.toList_crlfString, hnames, hmethods, spaceName_crlf, himports]
    cases spaceName (Structure.ofSource source.toList).spaceNames with
    | error failure => rfl
    | ok name =>
      cases hfound : (Structure.ofSource source.toList).methods with
      | nil => rfl
      | cons method rest =>
        have hmethod : method ∈ (Structure.ofSource source.toList).methods := by simp [hfound]
        rw [List.map_cons]
        dsimp only [bind, Except.map, Except.bind]
        rw [describe_crlf hreturn hmethod, expression_crlf hpaired hmethod]
        cases expression .application source.toList method <;> rfl

/-- A file with a region, a documented method and code on two lines, read as either kind of record. -/
theorem records_crlf_region :
    let source := "#region a\nusing A.B;\nnamespace N \x7b\n class C \x7b\n  /// <summary>\n  /// d\n" ++
      "  void ExecuteBeforeSave() \x7b\n   x();\n   y();\n  \x7d\n \x7d\n\x7d\n"
    entity .entity (Text.crlfString source) =
        .ok ⟨"N", [⟨"d", "", "   x();\r\n   y();\r\n", .beforeSave, none⟩], ["A.B"]⟩ ∧
      entity .dataAccess (Text.crlfString source) = .error (.unsupported "ExecuteBeforeSave") ∧
      application (Text.crlfString source) = .ok ⟨"N", "d", "", "x();\r\n   y();", ["A.B"]⟩ := by
  intro source
  have hdirective : ∀ lexeme ∈ Lexeme.ofChars source.toList, lexeme.kind = .directive →
      '/' ∉ lexeme.chars := by decide +kernel
  have hends : ∀ lexeme ∈ Lexeme.ofChars source.toList, lexeme.kind = .directive →
      Directive.EndsLine lexeme.chars := fun lexeme hmem hkind ↦
    Directive.endsLine_of_notMem (hdirective lexeme hmem hkind)
  obtain ⟨hentity, happlication⟩ :=
    records_crlf source (by decide +kernel) (by decide +kernel) hends
  have hbehaviours : entity .entity source =
      .ok ⟨"N", [⟨"d", "", "   x();\n   y();\n", .beforeSave, none⟩], ["A.B"]⟩ := by
    decide +kernel
  have hfailure : entity .dataAccess source = .error (.unsupported "ExecuteBeforeSave") := by
    decide +kernel
  have hfound : application source = .ok ⟨"N", "d", "", "x();\n   y();", ["A.B"]⟩ := by
    decide +kernel
  rw [hentity, hentity, happlication, hbehaviours, hfailure, hfound]
  decide +kernel

end Extraction

end Conform
