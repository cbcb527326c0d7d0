import Conform.Proofs.Extraction.Replacement
import Conform.Proofs.Source.Enclosure
import Conform.Proofs.Source.Sequence

/-!
Documentation comments in the body of a type. The comments that document a member are the longest
run of documentation comments immediately above it (`Item.IsRunAbove`, which is what `Item.docs`
collects), and of the items above a member nothing but this run matters (`Item.methods_congr`). With
a sequence of items as the body of a type a source tells what the items do, between methods that do
not depend on them (`Structure.exists_report`). From this alone follow the laws of a report
(`Item.TellsRuns`): runs are told whole and as they are written, gaps change nothing, another item
cuts a run off, and no comment is told at a second member (`Structure.documentation_above`).
-/

set_option autoImplicit false

namespace Conform.Source

namespace Item

/-! ### Runs of comments -/

/-- The comments that document what follows some items: the longest sequence of documentation
comments that stands immediately above it, blanks left out. -/
structure IsRunAbove (above : List Item) (texts : List String) : Prop where
  directly : texts.map comment <:+ above.filter (!·.isBlank)
  documented : ∀ text ∈ texts, documents text = true
  longest : ∀ others : List String, others.map comment <:+ above.filter (!·.isBlank) →
    (∀ text ∈ others, documents text = true) → others.length ≤ texts.length

variable {above : List Item}

theorem map_docs (above : List Item) :
    (docs above).map comment = (above.filter (!·.isBlank)).rtakeWhile isDoc := by
  have hall : ∀ items : List Item, (∀ item ∈ items, item.isDoc = true) →
      (items.filterMap comment?).map comment = items := by
    intro items hitems
    induction items with
    | nil => rfl
    | cons item rest ih =>
      obtain ⟨hitem, hrest⟩ := List.forall_mem_cons.mp hitems
      cases item with
      | comment text => exact congrArg (comment text :: ·) (ih hrest)
      | _ => contradiction
  exact hall _ fun _ ↦ List.mem_rtakeWhile_imp

theorem suffix_docs {texts : List String}
    (hdirectly : texts.map comment <:+ above.filter (!·.isBlank))
    (hdocuments : ∀ text ∈ texts, documents text = true) : texts <:+ docs above := by
  obtain ⟨front, hfront⟩ := hdirectly
  have hall : ∀ item ∈ (texts.map comment).reverse, item.isDoc = true := by
    simpa [isDoc] using hdocuments
  have hcomments : (texts.map comment).filterMap comment? = texts := by
    rw [List.filterMap_map]
    exact List.filterMap_some
  have hrun : (front ++ texts.map comment).rtakeWhile isDoc =
      front.rtakeWhile isDoc ++ texts.map comment := by
    rw [List.rtakeWhile, List.reverse_append, List.takeWhile_append_of_pos hall,
      List.reverse_append, List.reverse_reverse, List.rtakeWhile]
  refine ⟨(front.rtakeWhile isDoc).filterMap comment?, ?_⟩
  rw [docs, ← hfront, hrun, List.filterMap_append, hcomments]

theorem isRunAbove_docs (above : List Item) : IsRunAbove above (docs above) where
  directly := by
    rw [map_docs]
    exact List.rtakeWhile_suffix _ _
  documented text htext := by
    have hmem : comment text ∈ (above.filter (!·.isBlank)).rtakeWhile isDoc := by
      rw [← map_docs]
      exact List.mem_map_of_mem htext
    have hdoc : (comment text).isDoc = true := List.mem_rtakeWhile_imp hmem
    exact hdoc
  longest _ hdirectly hdocuments := (suffix_docs hdirectly hdocuments).length_le

/-- There is one such sequence only. -/
theorem IsRunAbove.eq_docs {texts : List String} (hrun : IsRunAbove above texts) :
    texts = docs above := by
  have hdocs := isRunAbove_docs above
  exact (suffix_docs hrun.directly hrun.documented).eq_of_length_le
    (hrun.longest _ hdocs.directly hdocs.documented)

/-! ### What a sequence tells -/

theorem docs_concat_congr {other : List Item} (hdocs : docs other = docs above) (item : Item) :
    docs (other ++ [item]) = docs (above ++ [item]) := by
  cases hblank : item.isBlank with
  | true =>
    cases item with
    | blank text => rw [docs_concat_blank, docs_concat_blank, hdocs]
    | _ => contradiction
  | false => rw [docs_concat item hblank, docs_concat item hblank, hdocs]

theorem docs_congr {other : List Item} (hdocs : docs other = docs above) (items : List Item) :
    docs (other ++ items) = docs (above ++ items) := by
  induction items generalizing above other with
  | nil => rwa [List.append_nil, List.append_nil]
  | cons item below ih =>
    rw [List.append_cons, List.append_cons above]
    exact ih (docs_concat_congr hdocs item)

/-- A run goes on with the documentation comments behind it. -/
theorem docs_append_run (above : List Item) {run : List Item}
    (hrun : ∀ item ∈ run, item.isBlank = true ∨ item.isDoc = true) :
    docs (above ++ run) = docs above ++ run.filterMap comment? := by
  induction run generalizing above with
  | nil => rw [List.append_nil, List.filterMap_nil, List.append_nil]
  | cons item rest ih =>
    obtain ⟨hitem, hrest⟩ := List.forall_mem_cons.mp hrun
    rw [List.append_cons, ih _ hrest]
    cases item with
    | blank text => rw [docs_concat_blank]; rfl
    | comment text =>
      have hdoc : (comment text).isDoc = true := hitem.resolve_left Bool.false_ne_true
      rw [docs_concat _ rfl, if_pos hdoc, List.append_assoc]
      rfl
    | _ => simp [isBlank, isDoc] at hitem

/-- Of the items above a sequence no more than the run of comments at their end matters. -/
theorem methods_congr {other : List Item} (hdocs : docs other = docs above) (items : List Item) :
    methods other items = methods above items := by
  induction items generalizing above other with
  | nil => rfl
  | cons item below ih =>
    have hnext := docs_concat_congr hdocs item
    cases item with
    | member own => rw [methods, methods, hdocs, ih hnext]
    | _ => exact ih hnext

theorem methods_of_forall_isMember (above : List Item) {items : List Item}
    (hitems : ∀ item ∈ items, item.isMember = false) : methods above items = [] := by
  induction items generalizing above with
  | nil => rfl
  | cons item rest ih =>
    obtain ⟨hitem, hrest⟩ := List.forall_mem_cons.mp hitems
    cases item with
    | member own => contradiction
    | _ => exact ih _ hrest

theorem methods_append (above upper lower : List Item) :
    methods above (upper ++ lower) = methods above upper ++ methods (above ++ upper) lower := by
  induction upper generalizing above with
  | nil => rw [List.nil_append, methods, List.nil_append, List.append_nil]
  | cons item rest ih =>
    have hrest := ih (above ++ [item])
    rw [List.append_assoc, List.singleton_append] at hrest
    cases item with
    | member own => rw [List.cons_append, methods, methods, hrest, List.append_assoc]
    | _ => exact hrest

/-- Above a member nothing is told of what is below it, and below it nothing of what is above. -/
theorem methods_member (above : List Item) (own : Member) (below : List Item) :
    methods [] (above ++ member own :: below) =
      methods [] above ++ (own.methods (docs above) ++ methods [] below) := by
  have hdocs : docs (above ++ [member own]) = docs [] := docs_concat (member own) rfl
  have hbelow : methods (above ++ [member own]) below = methods [] below :=
    methods_congr hdocs below
  rw [methods_append, List.nil_append, methods, hbelow]

/-- Blanks between the items have no part in what is told. -/
theorem methods_filter (above items : List Item) :
    methods above (items.filter (!·.isBlank)) = methods above items := by
  induction items generalizing above with
  | nil => rfl
  | cons item below ih =>
    cases item with
    | blank text =>
      have hdocs : docs (above ++ [blank text]) = docs above := docs_concat_blank text
      exact (ih above).trans (methods_congr hdocs.symm below)
    | member own => exact congrArg (own.methods (docs above) ++ ·) (ih _)
    | _ => exact ih _

/-! ### Bodies of types -/

/-- The text that items are written as. -/
def text (items : List Item) : List Char :=
  (rowOf items).chars

/-- The items make up a body: in braces their text is read as these items. -/
def Stand (items : List Item) : Prop :=
  (Forest.ofSource ('\x7b' :: (text items ++ ['\x7d']))).row? =
    some (.group .brace (rowOf items) .empty)

instance (items : List Item) : Decidable (Stand items) :=
  inferInstanceAs (Decidable (_ = _))

theorem mem_lexemes {items : List Item} {note : String} (hnote : comment note ∈ items) :
    ⟨.comment, note⟩ ∈ (rowOf items).lexemes := by
  induction items with
  | nil => contradiction
  | cons item rest ih =>
    rw [rowOf, List.foldr_cons, Row.lexemes_append]
    rcases List.mem_cons.mp hnote with rfl | hrest
    · exact List.mem_append_left _ (List.mem_singleton_self _)
    · exact List.mem_append_right _ (ih hrest)

/-- The comments of a body go up to the line end, which is no part of them, or up to their mark. -/
theorem Stand.comment_forms {items : List Item} (hstand : Stand items) {note : String}
    (hnote : comment note ∈ items) :
    (∀ c ∈ note.toList, Lexeme.isLineEnd c = false) ∨
      ∃ inner, note.toList = '/' :: '*' :: (inner ++ ['/']) := by
  obtain ⟨-, hlexemes, -⟩ := Forest.ofSource_row? hstand
  obtain ⟨front, back, hsplit⟩ := List.append_of_mem (mem_lexemes hnote)
  have hback : back ++ [Bracket.brace.closing] ≠ [] := by simp
  have hsource : Lexeme.ofChars ('\x7b' :: (text items ++ ['\x7d'])) =
      (Bracket.brace.opening :: front) ++
        ⟨.comment, note⟩ :: (back ++ [Bracket.brace.closing]) := by
    rw [hlexemes, Row.lexemes, hsplit]
    simp [Row.lexemes]
  exact Lexeme.comment_forms hsource hback rfl

/-! ### The laws of a report -/

/-- How a report on the body of a type goes with the items that the body is written as. What is told
around the body are the methods in `front` and `later`. -/
structure TellsRuns (report : List Char → List Method) (front later : List Method) : Prop where
  /-- Nothing but the members tells methods, each below the comments immediately above it. -/
  whole : ∀ body, Stand body → report (text body) = front ++ (methods [] body ++ later)
  /-- The documentation of a method is the longest sequence of documentation comments that stands
  immediately above it, the first one first. -/
  longest : ∀ above own below method, own.method? = some method →
    Stand (above ++ member own :: below) → ∃ docs, IsRunAbove above docs ∧
      report (text (above ++ member own :: below)) =
        front ++ (methods [] above ++ ({ method with docs } :: methods [] below) ++ later)
  /-- Blanks between the items change nothing. -/
  gaps : ∀ body other, Stand body → Stand other →
    other.filter (!·.isBlank) = body.filter (!·.isBlank) → report (text other) = report (text body)
  /-- Another comment, a directive or a member within the run cuts off what is above it. -/
  cut : ∀ above item run own below method, item.isBlank = false → item.isDoc = false →
    (∀ other ∈ run, other.isBlank = true ∨ other.isDoc = true) → own.method? = some method →
    Stand (above ++ (run ++ member own :: below)) →
    Stand (above ++ (item :: run ++ member own :: below)) → ∃ docs, IsRunAbove above docs ∧
      report (text (above ++ (run ++ member own :: below))) =
        front ++ (methods [] above ++
          ({ method with docs := docs ++ run.filterMap comment? } :: methods [] below) ++ later) ∧
      report (text (above ++ (item :: run ++ member own :: below))) =
        front ++ (methods [] above ++ methods above [item] ++
          ({ method with docs := run.filterMap comment? } :: methods [] below) ++ later)
  /-- What stands between two members has a part in what the second one tells, if that is a method,
  and in nothing else. -/
  apart : ∀ above gap own below, (∀ last ∈ above.getLast?, last.isMember = true) →
    (∀ item ∈ gap, item.isMember = false) → Stand (above ++ (gap ++ member own :: below)) →
    ∃ docs, IsRunAbove gap docs ∧ (own.method? = none → own.methods docs = own.methods []) ∧
      report (text (above ++ (gap ++ member own :: below))) =
        front ++ (methods [] above ++ (own.methods docs ++ methods [] below) ++ later)
  /-- A comment is told as it is written, without a line end behind it. -/
  verbatim : ∀ body note, Stand body → comment note ∈ body →
    (∀ c ∈ note.toList.getLast?, Lexeme.isLineEnd c = false) ∧
      ("//".toList <+: note.toList → ∀ c ∈ note.toList, Lexeme.isLineEnd c = false)

section Laws

variable {report : List Char → List Method} {front later : List Method}
  (hwhole : ∀ body, Stand body → report (text body) = front ++ (methods [] body ++ later))
include hwhole

/-- Assumes: items without a member above one. They have a part in what that member tells alone. -/
theorem report_gap {above gap below : List Item} (hgap : ∀ item ∈ gap, item.isMember = false)
    {own : Member} (hstand : Stand (above ++ (gap ++ member own :: below))) :
    report (text (above ++ (gap ++ member own :: below))) = front ++
      (methods [] above ++ (own.methods (docs (above ++ gap)) ++ methods [] below) ++ later) := by
  rw [hwhole _ hstand, ← List.append_assoc above, methods_member, methods_append,
    methods_of_forall_isMember _ hgap, List.append_nil]

theorem report_run {above run below : List Item}
    (hrun : ∀ item ∈ run, item.isBlank = true ∨ item.isDoc = true) {own : Member}
    {method : Method} (hmethod : own.method? = some method)
    (hstand : Stand (above ++ (run ++ member own :: below))) :
    report (text (above ++ (run ++ member own :: below))) = front ++ (methods [] above ++
      ({ method with docs := docs above ++ run.filterMap comment? } :: methods [] below) ++
        later) := by
  have hgap : ∀ item ∈ run, item.isMember = false := by
    intro item hitem
    cases item with
    | member own => simpa [isBlank, isDoc] using hrun _ hitem
    | _ => rfl
  rw [report_gap hwhole hgap hstand, docs_append_run above hrun, own.methods_of_method? hmethod]
  rfl

end Laws

theorem tellsRuns {report : List Char → List Method} {front later : List Method}
    (hwhole : ∀ body, Stand body → report (text body) = front ++ (methods [] body ++ later)) :
    TellsRuns report front later where
  whole := hwhole
  longest above own below method hmethod hstand := by
    refine ⟨docs above, isRunAbove_docs above, ?_⟩
    have hreport := report_run hwhole (List.forall_mem_nil _) hmethod hstand
    rwa [List.filterMap_nil, List.append_nil] at hreport
  gaps body other hbody hother hsame := by
    rw [hwhole body hbody, hwhole other hother, ← methods_filter [] other, hsame, methods_filter]
  cut above item run own below method hblank hdoc hrun hmethod hbefore hafter := by
    refine ⟨docs above, isRunAbove_docs above, report_run hwhole hrun hmethod hbefore, ?_⟩
    have hcut : docs (above ++ [item]) = [] := by
      rw [docs_concat item hblank, hdoc, if_neg Bool.false_ne_true]
    rw [List.cons_append, List.append_cons] at hafter ⊢
    rw [report_run hwhole hrun hmethod hafter, hcut, methods_append]
    rfl
  apart above gap own below habove hgap hstand := by
    refine ⟨docs gap, isRunAbove_docs gap, fun hmethod ↦ own.methods_of_not_method hmethod _, ?_⟩
    have hnone : docs above = docs [] := by
      rcases List.eq_nil_or_concat above with rfl | ⟨others, last, rfl⟩
      · rfl
      · rw [List.concat_eq_append] at habove ⊢
        have hlast := habove last (by simp)
        cases last with
        | member own => exact docs_concat (member own) rfl
        | _ => contradiction
    rw [report_gap hwhole hgap hstand, docs_congr hnone, List.nil_append]
  verbatim body note hstand hnote := by
    rcases hstand.comment_forms hnote with hline | ⟨inner, hinner⟩
    · exact ⟨fun c hc ↦ hline c (List.mem_of_getLast? hc), fun _ ↦ hline⟩
    · rw [hinner]
      refine ⟨fun c hc ↦ ?_, fun hprefix ↦ ?_⟩
      · rw [← List.cons_append, ← List.cons_append, List.getLast?_concat] at hc
        rw [← Option.some.inj hc]
        decide
      · have hslash := (List.cons_prefix_cons.mp (List.cons_prefix_cons.mp hprefix).2).1
        contradiction

end Item

namespace Structure

/-- The methods that a source tells with a text between braces, but for their places. -/
def report (before behind text : List Char) : List Method :=
  (ofSource (braced before text behind)).methods.map Method.bare

/-- A brace of a source is a hole of the row that the source is, and the texts before it and behind
its partner are those around the hole. -/
theorem chars_of_braced {before old behind : List Char} (hold : isBlockContent old = true)
    {context : Row.Context} {content : Row} (hplain : (context.plug content).IsPlain)
    (hlexemes : Lexeme.ofChars (braced before old behind) = (context.plug content).lexemes)
    (hopens : (({} : Place).after before).byte = (context.opens {}).byte) :
    context.lead.flatMap Lexeme.chars = before ∧ context.tail.flatMap Lexeme.chars = behind := by
  have hsource := eq_braced hlexemes
  have hbefore : before = context.lead.flatMap Lexeme.chars :=
    Text.append_inj_of_bytes hsource
      ((Nat.zero_add _).symm.trans (hopens.trans (byte_opens context)))
  rw [← hbefore] at hsource
  have hinner := List.tail_eq_of_cons_eq (List.append_cancel_left hsource)
  obtain ⟨row, hrow, -, hreads⟩ := Lexeme.exists_row_of_isBlockContent hold
  have hcontent := @Lexeme.ofChars_suffix _ (context.lead ++ [Bracket.brace.opening])
    (content.lexemes ++ Bracket.brace.closing :: context.tail)
    (by rw [hlexemes, context.lexemes_plug, List.append_assoc, List.singleton_append])
  rw [List.flatMap_append, List.flatMap_cons] at hcontent
  have hsame : Lexeme.ofChars (old ++ '\x7d' :: behind) =
      content.lexemes ++ Bracket.brace.closing :: context.tail := by
    rw [hinner]
    exact hcontent
  obtain ⟨-, htail⟩ := Row.lexemes_inj (Row.Context.isPlain_content hplain) hrow
    (hsame.symm.trans (hreads behind))
  exact ⟨hbefore.symm, by rw [htail, Lexeme.flatMap_chars_ofChars]⟩

/-- Assumes: a type in a source whose brackets are paired. With any items as its body the source
tells what these items do, and around that what it tells otherwise. -/
theorem exists_report {before old behind : List Char} (hold : isBlockContent old = true)
    (hpaired : (Forest.ofSource (braced before old behind)).isPaired = true)
    (htype : (Outline.ofSource (braced before old behind)).hasBodyAt
      (Bracket.brace.opening.at (({} : Place).after before)) = true) :
    ∃ front later : List Method, ∀ items, Item.Stand items →
      report before behind (Item.text items) = front ++ (Item.methods [] items ++ later) := by
  obtain ⟨row, hrow⟩ := Option.isSome_iff_exists.mp hpaired
  obtain ⟨hplain, hlexemes, hforest⟩ := Forest.ofSource_row? hrow
  rw [Outline.ofSource, hforest] at htype
  obtain ⟨context, content, rfl, htoken, hsurrounds⟩ :=
    Outline.exists_surrounds row {} _ blockless_new htype
  obtain ⟨front, later, hmethods⟩ := hsurrounds false []
  obtain ⟨rfl, rfl⟩ := chars_of_braced hold hplain hlexemes (congrArg Token.start htoken)
  refine ⟨front.map Method.bare, later.map Method.bare, fun items hstand ↦ ?_⟩
  obtain ⟨hitems, -, hreads⟩ := Lexeme.reads_of_row? hstand
  have hsource := ofSource_braced hplain hlexemes hitems hreads
  have hitem : ((Outline.ofForest ((Item.rowOf items).forest (context.opens {}).inside)).methods
      true []).map Method.bare = Item.methods [] items :=
    @Item.methods_read [] items [] (List.forall_mem_nil _) _
  have htold := congrArg (List.map Method.bare) (hmethods (Item.rowOf items))
  rw [List.map_append, List.map_append, hitem, Method.map_bare_shift] at htold
  rw [← htold, report, ofSource, Item.text, hsource]
  rfl

/-- Assumes: a type in a source whose brackets are paired. Whatever sequence of members, comments
and directives its body is, with blanks between them, each method of the body is told with the
longest run of documentation comments immediately above it, and these comments have a part in nothing
else that the source tells. -/
theorem documentation_above {before old behind : List Char} (hold : isBlockContent old = true)
    (hpaired : (Forest.ofSource (braced before old behind)).isPaired = true)
    (htype : (Outline.ofSource (braced before old behind)).hasBodyAt
      (Bracket.brace.opening.at (({} : Place).after before)) = true) :
    ∃ front later : List Method, Item.TellsRuns (report before behind) front later := by
  obtain ⟨front, later, hwhole⟩ := exists_report hold hpaired htype
  exact ⟨front, later, Item.tellsRuns hwhole⟩

/-- A comment above attributes, one that does not document, and a directive within a run. -/
theorem documentation_above_region :
    let before := "namespace N \x7b class C ".toList
    let old := " int x; ".toList
    let behind := " \x7d".toList
    let space : Row → Row := .single ⟨.blank, " "⟩
    let word (text : String) : Row → Row := .single ⟨.word, text⟩
    let first : Member :=
      ⟨.group .square (word "Obsolete" .empty) (space (word "void" (space (word "F"
        (.group .round .empty (space (.group .brace .empty .empty))))))), by decide +kernel⟩
    let second : Member :=
      ⟨word "void" (space (word "G" (.group .round .empty (.single ⟨.mark, ";"⟩ .empty)))),
        by decide +kernel⟩
    let above : List Item :=
      [.comment "/// Runs.", .blank "\n\n", .comment "/** Twice. */", .blank "\n", .member first,
        .blank " ", .comment "// Not told.", .blank "\n", .comment "/// Cut off.", .blank "\n",
        .directive "#region R\n", .comment "/// Waits.", .blank "\n"]
    isBlockContent old = true ∧ (Forest.ofSource (braced before old behind)).isPaired = true ∧
      (Outline.ofSource (braced before old behind)).hasBodyAt
        (Bracket.brace.opening.at (({} : Place).after before)) = true ∧
      Item.Stand (above ++ [.member second]) ∧
      report before behind (Item.text (above ++ [.member second])) =
        [⟨"F", 0, .block ⟨0, 0⟩ none, ["/// Runs.", "/** Twice. */"]⟩,
          ⟨"G", 0, .missing, ["/// Waits."]⟩] := by
  intro before old behind space word first second above
  have hold : isBlockContent old = true := by decide +kernel
  have hpaired : (Forest.ofSource (braced before old behind)).isPaired = true := by decide +kernel
  have htype : (Outline.ofSource (braced before old behind)).hasBodyAt
      (Bracket.brace.opening.at (({} : Place).after before)) = true := by decide +kernel
  have hstand : Item.Stand (above ++ [.member second]) := by decide +kernel
  have hempty : Item.Stand [] := by decide +kernel
  refine ⟨hold, hpaired, htype, hstand, ?_⟩
  obtain ⟨front, later, hlaws⟩ := documentation_above hold hpaired htype
  have hnothing : report before behind (Item.text []) = [] := by decide +kernel
  have haround : front ++ later = [] := (hlaws.whole [] hempty).symm.trans hnothing
  obtain ⟨rfl, rfl⟩ := List.append_eq_nil_iff.mp haround
  have hmethod : second.method? = some ⟨"G", 0, .missing, []⟩ := by decide +kernel
  obtain ⟨docs, hdocs, hreport⟩ := hlaws.longest above second [] _ hmethod hstand
  obtain rfl : docs = ["/// Waits."] := hdocs.eq_docs.trans (by decide +kernel)
  rw [hreport]
  decide +kernel

end Structure

end Conform.Source
