import Conform.Proofs.Text.Line
import Conform.Summary

/-!
The normal form of mined documentation. Lines that mining keeps are not blank, are trimmed and are
single lines (`isTidy_of_mem`), and in the text it takes them from no tag is left
(`not_sublist_dropTags`). Mining such lines again, a comment for each, reads the text that they make
(`ofComments_slashed`) and gives them back (`ofText_intercalate`). So the summaries in normal form are
those that comments say, and each of them is mined back from its own lines (`isNormal_ofComments`).
-/

set_option autoImplicit false

namespace Conform.Summary

open Text

/-! ### Lines of comments -/

theorem dropGutter_suffix (line : List Char) : dropGutter line <:+ line := by
  have hstart : trimStart line <:+ line := List.dropWhile_suffix _
  unfold dropGutter
  dsimp only
  cases hgutter : after? ['*'] (trimStart line) with
  | none => exact hstart
  | some rest =>
    have hrest : rest <:+ trimStart line := ⟨['*'], (after?_eq_some_iff.mp hgutter).symm⟩
    exact hrest.trans hstart

section Comments

variable {indent : List Char} (hindent : IsBlankText indent)
include hindent

theorem commentLines_slashes (text : List Char) :
    commentLines (indent ++ ("///".toList ++ text)) = [text] := by
  have hstart : trimStart ("///".toList ++ text) = "///".toList ++ text :=
    trimStart_eq_self (by rintro _ ⟨⟩; decide)
  unfold commentLines
  dsimp only
  rw [trimStart_append hindent, hstart, after?_append]

/-- A block, closed or not. -/
theorem commentLines_stars (rest : List Char) :
    commentLines (indent ++ ("/**".toList ++ rest)) =
      (lines ((before? "*/".toList rest).getD rest)).map dropGutter := by
  have hstart : trimStart ("/**".toList ++ rest) = "/**".toList ++ rest :=
    trimStart_eq_self (by rintro _ ⟨⟩; decide)
  have hslashes : after? "///".toList ("/**".toList ++ rest) = none := rfl
  unfold commentLines
  dsimp only
  rw [trimStart_append hindent, hstart, hslashes, after?_append]

theorem commentLines_block (text : List Char) :
    commentLines (indent ++ ("/**".toList ++ (text ++ "*/".toList))) =
      (lines text).map dropGutter := by
  rw [commentLines_stars hindent, before?_eq_some_iff.mpr rfl, Option.getD_some]

/-- A line of a block behind its gutter. -/
theorem dropGutter_starred (text : List Char) :
    dropGutter (indent ++ '*' :: text) = text := by
  have hstart : trimStart ('*' :: text) = '*' :: text :=
    trimStart_eq_self (by rintro _ ⟨⟩; decide)
  unfold dropGutter
  dsimp only
  rw [trimStart_append hindent, hstart, after?_eq_some_iff.mpr (List.singleton_append).symm,
    Option.getD_some]

end Comments

theorem infix_of_mem_commentLines {comment line : List Char}
    (hline : line ∈ commentLines comment) : line <:+: comment := by
  have hstart : trimStart comment <:+ comment := List.dropWhile_suffix _
  have hlines : ∀ inner : List Char, inner <:+: trimStart comment →
      line ∈ (lines inner).map dropGutter → line <:+: comment := by
    intro inner hinner hmem
    obtain ⟨whole, hwhole, rfl⟩ := List.mem_map.mp hmem
    exact ((dropGutter_suffix whole).isInfix.trans (infix_of_mem_lines hwhole)).trans
      (hinner.trans hstart.isInfix)
  unfold commentLines at hline
  dsimp only at hline
  split at hline
  · rename_i rest hslashes
    rw [List.mem_singleton.mp hline]
    exact List.IsInfix.trans ⟨"///".toList, [], by
      rw [List.append_nil, after?_eq_some_iff.mp hslashes]⟩ hstart.isInfix
  · refine hlines _ ?_ hline
    split
    · rename_i rest hblock
      have hrest : rest <:+: trimStart comment :=
        ⟨"/**".toList, [], by rw [List.append_nil, after?_eq_some_iff.mp hblock]⟩
      cases hclose : before? "*/".toList rest with
      | none => exact hrest
      | some inner =>
        refine List.IsInfix.trans ?_ hrest
        exact ⟨[], "*/".toList, (before?_eq_some_iff.mp hclose).symm⟩
    · exact List.infix_rfl

/-! ### Tidy lines -/

/-- A line that is not empty, without blanks at its ends. -/
structure IsTidy (line : List Char) : Prop where
  filled : line ≠ []
  trimmed : IsTrimmed line
  single : '\n' ∉ line

theorem isTidy_iff (line : List Char) : IsTidy line ↔ line ≠ [] ∧
    line.head?.all (!isBlank ·) = true ∧ line.getLast?.all (!isBlank ·) = true ∧ '\n' ∉ line := by
  simp only [Option.all_eq_true, Bool.not_eq_true']
  exact ⟨fun ⟨filled, ⟨start, stop⟩, single⟩ ↦ ⟨filled, start, stop, single⟩,
    fun ⟨filled, start, stop, single⟩ ↦ ⟨filled, ⟨start, stop⟩, single⟩⟩

instance : DecidablePred IsTidy := fun line ↦
  decidable_of_iff' _ (isTidy_iff line)

theorem tidy_closeLines (pieces : List (List Char)) :
    ((closeLines pieces).map trim).filter (!·.isEmpty) =
      (pieces.map trim).filter (!·.isEmpty) := by
  fun_induction closeLines pieces with
  | case1 => rfl
  | case2 last hempty =>
    rw [List.isEmpty_iff.mp hempty]
    rfl
  | case3 last hfilled => rfl
  | case4 line next rest ih =>
    rw [List.map_cons, List.map_cons, trim_dropReturn, List.filter_cons, List.filter_cons, ih]

/-- Of its lines a text only tells the stretches between its line feeds. -/
theorem tidyLines_eq (body : List Char) :
    tidyLines body = ((splitAt '\n' body).map trim).filter (!·.isEmpty) :=
  tidy_closeLines (splitAt '\n' body)

theorem isTidy_of_mem {body line : List Char} (hline : line ∈ tidyLines body) : IsTidy line := by
  rw [tidyLines_eq, List.mem_filter, List.mem_map] at hline
  obtain ⟨⟨piece, hpiece, rfl⟩, hfilled⟩ := hline
  exact ⟨by simpa using hfilled, isTrimmed_trim piece,
    fun hfeed ↦ notMem_of_mem_splitAt hpiece ((trim_sublist piece).subset hfeed)⟩

theorem filter_trim_eq_self {lines : List (List Char)} (hlines : ∀ line ∈ lines, IsTidy line) :
    (lines.map trim).filter (!·.isEmpty) = lines := by
  have hmap : lines.map trim = lines :=
    (List.map_congr_left fun line hline ↦ trim_eq_self (hlines line hline).trimmed).trans
      (List.map_id lines)
  rw [hmap, List.filter_eq_self]
  intro line hline
  simpa using (hlines line hline).filled

/-- Assumes: lines without line feeds, which are then the lines of the text they make. -/
theorem tidyLines_join {lines : List (List Char)} (hlines : ∀ line ∈ lines, '\n' ∉ line) :
    tidyLines (['\n'].intercalate lines) = (lines.map trim).filter (!·.isEmpty) := by
  by_cases hnil : lines = []
  · rw [hnil]
    rfl
  · rw [tidyLines_eq, splitAt_eq_splitOn, List.splitOn_intercalate '\n' hlines hnil]

theorem tidyLines_intercalate {lines : List (List Char)} (hlines : ∀ line ∈ lines, IsTidy line) :
    tidyLines (['\n'].intercalate lines) = lines := by
  rw [tidyLines_join fun line hline ↦ (hlines line hline).single, filter_trim_eq_self hlines]

/-- What is kept of the lines of a text stands in it in the same order. -/
theorem intercalate_tidyLines_sublist (body : List Char) :
    (['\n'].intercalate (tidyLines body)).Sublist body := by
  have hparts : List.SublistForall₂ List.Sublist (tidyLines body) (splitAt '\n' body) := by
    rw [tidyLines_eq, List.filter_map]
    exact List.sublistForall₂_iff.mpr ⟨_, List.forall₂_map_left_iff.mpr
      (List.forall₂_same.mpr fun piece _ ↦ trim_sublist piece), List.filter_sublist⟩
  have hsublist := intercalate_sublist hparts
  rw [splitAt_eq_splitOn, List.intercalate_splitOn] at hsublist
  exact hsublist

/-! ### Tags -/

theorem dropTags_cons {c : Char} (hc : c ≠ '<') (rest : List Char) :
    dropTags (c :: rest) = c :: dropTags rest := by
  rw [dropTags, if_neg hc]

theorem dropTags_tag {inner : List Char} (hinner : '>' ∉ inner) (rest : List Char) :
    dropTags ('<' :: (inner ++ '>' :: rest)) = dropTags rest := by
  have hskip : dropTags.skipTag (inner ++ '>' :: rest) = dropTags rest := by
    induction inner with
    | nil => rw [List.nil_append, dropTags.skipTag, if_pos rfl]
    | cons c others ih =>
      rw [List.mem_cons, not_or] at hinner
      rw [List.cons_append, dropTags.skipTag, if_neg (Ne.symm hinner.1), ih hinner.2]
  have hclose := cutFirst_append hinner [] rest
  rw [List.singleton_append] at hclose
  rw [dropTags, if_pos rfl, hclose]
  exact hskip

theorem dropTags_unclosed {rest : List Char} (hrest : '>' ∉ rest) :
    dropTags ('<' :: rest) = '<' :: rest := by
  rw [dropTags, if_pos rfl, cutFirst_eq_none hrest]

/-- Every text is passed character by character and tag by tag, up to a tag that is not closed. -/
theorem tags_induction {motive : List Char → Prop} (empty : motive [])
    (plain : ∀ c rest, c ≠ '<' → motive rest → motive (c :: rest))
    (tag : ∀ inner rest, '>' ∉ inner → motive rest → motive ('<' :: (inner ++ '>' :: rest)))
    (unclosed : ∀ rest, '>' ∉ rest → motive ('<' :: rest)) : ∀ body, motive body
  | [] => empty
  | c :: rest => by
    by_cases hc : c = '<'
    · subst hc
      by_cases hclose : '>' ∈ rest
      · obtain ⟨inner, behind, hrest, hinner⟩ := List.eq_append_cons_of_mem hclose
        rw [hrest]
        exact tag inner behind hinner (tags_induction empty plain tag unclosed behind)
      · exact unclosed rest hclose
    · exact plain c rest hc (tags_induction empty plain tag unclosed rest)
termination_by body => body.length
decreasing_by
  · rw [hrest, List.length_cons, List.length_append, List.length_cons]
    omega
  · exact Nat.lt_succ_self _

theorem dropTags_sublist (body : List Char) : (dropTags body).Sublist body := by
  induction body using tags_induction with
  | empty => exact List.Sublist.refl _
  | plain c rest hc ih =>
    rw [dropTags_cons hc]
    exact ih.cons_cons c
  | tag inner rest hinner ih =>
    rw [dropTags_tag hinner]
    exact ((ih.cons '>').trans (List.sublist_append_right inner _)).cons '<'
  | unclosed rest hrest => rw [dropTags_unclosed hrest]

/-- No tag is left and none comes into being: behind a `<` that stays there is no `>`. -/
theorem not_sublist_dropTags (body : List Char) : ¬['<', '>'].Sublist (dropTags body) := by
  induction body using tags_induction with
  | empty => exact nofun
  | plain c rest hc ih =>
    rw [dropTags_cons hc]
    exact fun htag ↦ ih (htag.of_cons_of_ne (Ne.symm hc))
  | tag inner rest hinner ih =>
    rw [dropTags_tag hinner]
    exact ih
  | unclosed rest hrest =>
    rw [dropTags_unclosed hrest, List.cons_sublist_cons, List.singleton_sublist]
    exact hrest

theorem dropTags_eq_self {body : List Char} (hbody : ¬['<', '>'].Sublist body) :
    dropTags body = body := by
  induction body using tags_induction with
  | empty => rfl
  | plain c rest hc ih => rw [dropTags_cons hc, ih fun htag ↦ hbody (htag.cons c)]
  | tag inner rest hinner ih =>
    refine absurd ?_ hbody
    rw [List.cons_sublist_cons, List.singleton_sublist]
    simp
  | unclosed rest hrest => exact dropTags_unclosed hrest

theorem not_sublist_of_notMem {body : List Char} (hbody : '<' ∉ body) :
    ¬['<', '>'].Sublist body :=
  fun htag ↦ hbody (htag.subset List.mem_cons_self)

/-! ### Elements -/

theorem element_sublist (body : List Char) : (element body).Sublist body := by
  unfold element
  split
  · exact List.Sublist.refl _
  · rename_i front rest hopening
    have hrest : rest.Sublist body := by
      rw [eq_append_of_cutFirst hopening]
      exact (List.sublist_append_right _ _).trans (List.sublist_append_right _ _)
    split
    · exact hrest
    · rename_i inner behind hclosing
      refine List.Sublist.trans ?_ hrest
      rw [eq_append_of_cutFirst hclosing]
      exact List.sublist_append_left _ _

theorem element_eq_self {body : List Char} (hbody : ¬['<', '>'].Sublist body) :
    element body = body := by
  unfold element
  split
  · rfl
  · rename_i front rest hopening
    have htag : ['<', '>'].Sublist "<summary>".toList := by decide
    refine absurd ?_ hbody
    rw [eq_append_of_cutFirst hopening]
    exact (htag.trans (List.sublist_append_left _ _)).trans (List.sublist_append_right _ _)

/-! ### Summaries -/

/-- What the text of comments says, their markers left out. -/
def ofText (body : List Char) : Summary :=
  ofLines (tidyLines (dropTags (element body)))

theorem ofComments_eq (comments : List String) : ofComments comments =
    ofText (['\n'].intercalate (comments.flatMap fun comment ↦ commentLines comment.toList)) :=
  rfl

/-- The lines of a description. -/
def descriptionLines (summary : Summary) : List (List Char) :=
  if summary.description = "" then [] else splitAt '\n' summary.description.toList

/-- The name and the lines of the description, in this order. -/
def rows (summary : Summary) : List (List Char) :=
  summary.name.toList.map String.toList ++ summary.descriptionLines

/-- The comments that say a summary line by line. -/
def lineComments (summary : Summary) : List String :=
  summary.rows.map fun row ↦ String.ofList ("///".toList ++ row)

/-- A summary without blank lines, blanks at the ends of lines and tags. -/
structure IsNormal (summary : Summary) : Prop where
  name : ∀ name ∈ summary.name, IsTidy name.toList
  description : ∀ line ∈ summary.descriptionLines, IsTidy line
  tagless : ¬['<', '>'].Sublist ((summary.name.getD "").toList ++ summary.description.toList)
  named : summary.name = none → summary.description = ""

theorem toList_join (lines : List (List Char)) :
    ("\n".intercalate (lines.map String.ofList)).toList = ['\n'].intercalate lines := by
  have hmap : (lines.map String.ofList).map String.toList = lines := by
    simp [Function.comp_def]
  rw [String.toList_intercalate, hmap]
  rfl

/-- The text of comments that hold a line each. -/
theorem ofComments_slashed (lines : List (List Char)) :
    ofComments (lines.map fun line ↦ String.ofList ("///".toList ++ line)) =
      ofText (['\n'].intercalate lines) := by
  have hlines : ∀ line : List Char,
      commentLines (String.ofList ("///".toList ++ line)).toList = [line] := by
    intro line
    rw [String.toList_ofList]
    exact @commentLines_slashes [] nofun line
  rw [ofComments_eq, List.flatMap_map]
  simp only [hlines, List.flatMap_singleton']

section Lines

variable {lines : List (List Char)} (hlines : ∀ line ∈ lines, IsTidy line)
include hlines

theorem descriptionLines_join (name : Option String) :
    descriptionLines ⟨name, "\n".intercalate (lines.map String.ofList)⟩ = lines := by
  by_cases hnil : lines = []
  · rw [hnil]
    rfl
  · have hpieces : splitAt '\n' (['\n'].intercalate lines) = lines := by
      rw [splitAt_eq_splitOn]
      exact List.splitOn_intercalate '\n' (fun line hline ↦ (hlines line hline).single) hnil
    have hfilled : "\n".intercalate (lines.map String.ofList) ≠ "" := by
      intro hempty
      rw [← toList_join, hempty] at hpieces
      exact (hlines [] (hpieces ▸ List.mem_singleton_self [])).filled rfl
    rw [descriptionLines, if_neg hfilled, toList_join, hpieces]

theorem rows_ofLines : (ofLines lines).rows = lines := by
  cases lines with
  | nil => rfl
  | cons first rest =>
    rw [List.forall_mem_cons] at hlines
    rw [rows, ofLines, descriptionLines_join hlines.2]
    simp

/-- Assumes: tidy lines in which, read one after the other, no tag stands. -/
theorem isNormal_ofLines (htag : ¬['<', '>'].Sublist (['\n'].intercalate lines)) :
    (ofLines lines).IsNormal := by
  cases lines with
  | nil => exact ⟨nofun, nofun, by simp [ofLines], fun _ ↦ rfl⟩
  | cons first rest =>
    rw [List.forall_mem_cons] at hlines
    refine ⟨?_, ?_, fun hsublist ↦ htag (hsublist.trans ?_), nofun⟩
    · rintro _ ⟨⟩
      rw [String.toList_ofList]
      exact hlines.1
    · rw [ofLines, descriptionLines_join hlines.2]
      exact hlines.2
    · rw [ofLines, toList_join, Option.getD_some, String.toList_ofList]
      cases rest with
      | nil => simp
      | cons second others =>
        rw [List.intercalate_cons_cons, List.append_assoc]
        exact (List.Sublist.refl _).append (List.sublist_append_right _ _)

theorem ofText_intercalate (htag : ¬['<', '>'].Sublist (['\n'].intercalate lines)) :
    ofText (['\n'].intercalate lines) = ofLines lines := by
  rw [ofText, element_eq_self htag, dropTags_eq_self htag, tidyLines_intercalate hlines]

end Lines

theorem join_descriptionLines (summary : Summary) :
    "\n".intercalate (summary.descriptionLines.map String.ofList) = summary.description := by
  rw [← String.toList_inj, toList_join, descriptionLines]
  split
  · rename_i hempty
    rw [hempty]
    rfl
  · rw [splitAt_eq_splitOn, List.intercalate_splitOn]

theorem ofLines_rows {summary : Summary} (hnamed : summary.name = none → summary.description = "") :
    ofLines summary.rows = summary := by
  obtain ⟨name, description⟩ := summary
  cases name with
  | none =>
    obtain rfl : description = "" := hnamed rfl
    rfl
  | some name =>
    have hdescription := join_descriptionLines ⟨some name, description⟩
    rw [rows, Option.toList_some, List.map_singleton, List.singleton_append, ofLines, hdescription,
      String.ofList_toList]

theorem not_sublist_rows {summary : Summary} (hnormal : summary.IsNormal) :
    ¬['<', '>'].Sublist (['\n'].intercalate summary.rows) := by
  obtain ⟨name, description⟩ := summary
  cases name with
  | none =>
    obtain rfl : description = "" := hnormal.named rfl
    decide
  | some name =>
    have hjoin := congrArg String.toList (join_descriptionLines ⟨some name, description⟩)
    rw [toList_join] at hjoin
    have htagless : ¬['<', '>'].Sublist (name.toList ++ description.toList) := hnormal.tagless
    refine fun htag ↦ htagless ?_
    rw [rows, Option.toList_some, List.map_singleton, List.singleton_append] at htag
    cases hlines : descriptionLines ⟨some name, description⟩ with
    | nil =>
      rw [hlines, List.intercalate_singleton] at htag
      exact htag.trans (List.sublist_append_left _ _)
    | cons first rest =>
      -- The line feed between the two is no part of a tag.
      rw [hlines] at htag hjoin
      rw [List.intercalate_cons_cons, hjoin, List.append_assoc, List.sublist_append_iff] at htag
      obtain ⟨opening, closing, htag, hopening, hclosing⟩ := htag
      rw [htag]
      refine hopening.append ((List.sublist_cons_iff.mp hclosing).resolve_right ?_)
      rintro ⟨others, rfl, -⟩
      have hfeed : '\n' ∈ ['<', '>'] := htag ▸ by simp
      exact absurd hfeed (by decide)

/-- Summaries in normal form are mined back from comments that say them line by line. -/
theorem ofComments_lineComments {summary : Summary} (hnormal : summary.IsNormal) :
    ofComments summary.lineComments = summary := by
  have hrows : ∀ row ∈ summary.rows, IsTidy row := by
    rw [rows, List.forall_mem_append, List.forall_mem_map]
    exact ⟨fun name hname ↦ hnormal.name name (Option.mem_toList.mp hname), hnormal.description⟩
  rw [lineComments, ofComments_slashed, ofText_intercalate hrows (not_sublist_rows hnormal),
    ofLines_rows hnormal.named]

theorem isNormal_ofText (body : List Char) : (ofText body).IsNormal :=
  isNormal_ofLines (fun _ hline ↦ isTidy_of_mem hline) fun htag ↦
    not_sublist_dropTags _ (htag.trans (intercalate_tidyLines_sublist _))

/-- What comments say is in normal form, and said again line by line it stays the same. The summaries
in normal form are exactly those that comments say. -/
theorem isNormal_ofComments (comments : List String) :
    (ofComments comments).IsNormal ∧
      ofComments (ofComments comments).lineComments = ofComments comments ∧
      ∀ summary : Summary, summary.IsNormal ↔ ∃ others, ofComments others = summary := by
  have hnormal : ∀ others, (ofComments others).IsNormal := fun others ↦ isNormal_ofText _
  refine ⟨hnormal comments, ofComments_lineComments (hnormal comments), fun summary ↦
    ⟨fun hsummary ↦ ⟨_, ofComments_lineComments hsummary⟩, ?_⟩⟩
  rintro ⟨others, rfl⟩
  exact hnormal others

end Conform.Summary
