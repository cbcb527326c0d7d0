import Conform.Proofs.Summary.Normal

/-!
Documentation written in either style of comments: a summary element on lines of its own, each of
them a comment behind slashes, or all of them in one block behind gutter stars. Mining reads the lines
between the tags back from both (`ofComments_styled`). In front of the element there may be anything
that opens no summary itself, and behind it anything at all.
-/

set_option autoImplicit false

namespace Conform.Summary

open Text

/-! ### Text around an element -/

/-- Assumes: a front part without the opening tag, and no tag in the element. -/
theorem element_eq {front inner : List Char} (hfront : ¬"<summary>".toList <:+: front)
    (hinner : '<' ∉ inner) (behind : List Char) :
    element (front ++ ("<summary>".toList ++ (inner ++ ("</summary>".toList ++ behind)))) =
      inner := by
  have hopening : cutFirst "<summary>".toList
      (front ++ ("<summary>".toList ++ (inner ++ ("</summary>".toList ++ behind)))) =
        some (front, inner ++ ("</summary>".toList ++ behind)) :=
    cutFirst_append_of_not_infix (by decide) hfront _
  have hclosing : cutFirst "</summary>".toList (inner ++ ("</summary>".toList ++ behind)) =
      some (inner, behind) :=
    cutFirst_append hinner "/summary>".toList behind
  unfold element
  rw [hopening]
  dsimp only
  rw [hclosing]

/-- The text between the tags of an element whose lines stand behind a blank each. -/
def interior (docs : List (List Char)) : List Char :=
  ended ([] :: docs.map (' ' :: ·)) ++ [' ']

theorem tidyLines_interior {docs : List (List Char)} (hdocs : ∀ doc ∈ docs, IsTidy doc) :
    tidyLines (interior docs) = docs := by
  have hsingle : ∀ text ∈ [] :: docs.map (' ' :: ·), '\n' ∉ text := by
    rw [List.forall_mem_cons, List.forall_mem_map]
    exact ⟨List.not_mem_nil, fun doc hdoc ↦
      List.not_mem_cons_of_ne_of_not_mem (by decide) (hdocs doc hdoc).single⟩
  have htrim : (docs.map (' ' :: ·)).map trim = docs.map trim := by
    rw [List.map_map]
    refine List.map_congr_left fun doc hdoc ↦ ?_
    have hblank : IsBlankText [' '] := List.forall_mem_singleton.mpr (by decide)
    have hbetween : trim ([' '] ++ (doc ++ [])) = doc :=
      trim_between hblank (hdocs doc hdoc).trimmed nofun
    rw [List.append_nil, List.singleton_append] at hbetween
    exact hbetween.trans (trim_eq_self (hdocs doc hdoc).trimmed).symm
  have hends : splitAt '\n' [' '] = [[' ']] ∧ trim [] = [] ∧ trim [' '] = [] := ⟨rfl, rfl, rfl⟩
  rw [tidyLines_eq, interior, splitAt_ended_of_single hsingle, hends.1, List.map_append,
    List.map_cons, htrim, List.map_singleton, hends.2.1, hends.2.2, List.cons_append,
    List.filter_cons_of_neg (by decide), List.filter_append, filter_trim_eq_self hdocs,
    List.filter_cons_of_neg (by decide), List.filter_nil, List.append_nil]

/-- Assumes: lines in front that do not open a summary, and tidy lines that open no tag. -/
theorem ofText_element {front docs : List (List Char)}
    (hfront : ∀ line ∈ front, ¬"<summary>".toList <:+: line)
    (hdocs : ∀ doc ∈ docs, IsTidy doc ∧ '<' ∉ doc) (back : List (List Char)) :
    ofText (['\n'].intercalate (front ++ " <summary>".toList ::
      (docs.map (' ' :: ·) ++ " </summary>".toList :: back))) = ofLines docs := by
  obtain ⟨behind, hbehind⟩ : ∃ behind, ['\n'].intercalate (" </summary>".toList :: back) =
      ' ' :: ("</summary>".toList ++ behind) := by
    cases back with
    | nil => exact ⟨[], rfl⟩
    | cons next others =>
      exact ⟨'\n' :: ['\n'].intercalate (next :: others), by rw [List.intercalate_cons_cons]; rfl⟩
  have hbody : ['\n'].intercalate (front ++ " <summary>".toList ::
      (docs.map (' ' :: ·) ++ " </summary>".toList :: back)) =
        (ended front ++ [' ']) ++ ("<summary>".toList ++
          (interior docs ++ ("</summary>".toList ++ behind))) := by
    have hrest := intercalate_append_cons (" <summary>".toList :: docs.map (' ' :: ·))
      " </summary>".toList back
    rw [List.cons_append] at hrest
    rw [intercalate_append_cons, hrest, hbehind, interior]
    simp [ended]
  have hlead : ¬"<summary>".toList <:+: ended front ++ [' '] := by
    intro hinside
    rcases infix_ended (by decide) hinside with ⟨line, hline, hwithin⟩ | hwithin
    · exact hfront line hline hwithin
    · exact absurd hwithin (by decide)
  have hplain : '<' ∉ interior docs := by
    rw [interior, List.mem_append, not_or]
    refine ⟨notMem_ended (by decide) ?_, by decide⟩
    rw [List.forall_mem_cons, List.forall_mem_map]
    exact ⟨List.not_mem_nil, fun doc hdoc ↦
      List.not_mem_cons_of_ne_of_not_mem (by decide) (hdocs doc hdoc).2⟩
  rw [hbody, ofText, element_eq hlead hplain, dropTags_eq_self (not_sublist_of_notMem hplain),
    tidyLines_interior fun doc hdoc ↦ (hdocs doc hdoc).1]

/-! ### Comments in a style -/

/-- The blanks in front of a line. -/
structure Indent where
  chars : List Char
  isBlank : IsBlankText chars
  isInline : '\n' ∉ chars

def Indent.spaces (n : Nat) : Indent where
  chars := List.replicate n ' '
  isBlank := fun _ hc ↦ List.eq_of_mem_replicate hc ▸ rfl
  isInline := fun hfeed ↦ absurd (List.eq_of_mem_replicate hfeed) (by decide)

/-- What stands in a line behind the marker, and the blanks in front of the marker. -/
structure Line where
  indent : Indent
  text : List Char

inductive Style where
  /-- A comment for each line. -/
  | slashes
  /-- One comment, with the blanks in front of its first and its last line. -/
  | block (opening closing : Indent)

def Line.slashed (line : Line) : List Char :=
  line.indent.chars ++ ("/// ".toList ++ line.text)

def Line.starred (line : Line) : List Char :=
  line.indent.chars ++ ("* ".toList ++ line.text)

def Style.comments : Style → List Line → List (List Char)
  | slashes, lines => lines.map Line.slashed
  | block opening closing, lines =>
    [opening.chars ++ ("/**".toList ++
      (ended ([] :: lines.map Line.starred) ++ closing.chars ++ "*/".toList))]

/-- The lines of a summary element, with those of its tags. -/
def elementLines (opening closing : Indent) (docs : List Line) : List Line :=
  ⟨opening, "<summary>".toList⟩ :: (docs ++ [⟨closing, "</summary>".toList⟩])

/-- The lines that a line gives behind its marker, several if there are line feeds in it. -/
def Style.mined : Style → Line → List (List Char)
  | slashes, line => [' ' :: line.text]
  | block .., line => ((splitAt '\n' line.starred).map dropReturn).map dropGutter

section Style

variable (style : Style)

theorem Style.mined_of_single {line : Line} (hsingle : '\n' ∉ line.text)
    (hlast : line.text.getLast? ≠ some '\r') : style.mined line = [' ' :: line.text] := by
  cases style with
  | slashes => rfl
  | block opening closing =>
    have hpieces : splitAt '\n' line.starred = [line.starred] := by
      refine splitAt_of_notMem ?_
      rw [Line.starred, List.mem_append, List.mem_append, not_or, not_or]
      exact ⟨line.indent.isInline, by decide, hsingle⟩
    have hreturn : dropReturn line.starred = line.starred := by
      refine dropReturn_eq_self ?_
      rw [Line.starred, List.getLast?_append, List.getLast?_append]
      cases hend : line.text.getLast? with
      | none => simp
      | some c => simpa [hend] using hlast
    rw [mined, hpieces, List.map_singleton, List.map_singleton, hreturn, Line.starred]
    exact congrArg (fun text ↦ [text]) (dropGutter_starred line.indent.isBlank _)

theorem Style.not_infix_of_mem_mined {line : Line} (hline : ¬"<summary>".toList <:+: line.text) :
    ∀ text ∈ style.mined line, ¬"<summary>".toList <:+: text := by
  have hmarked : ¬"<summary>".toList <:+: ' ' :: line.text := by
    intro hinside
    rcases @infix_of_infix_append_cons ' ' _ [] _ (by decide) hinside with hnil | htext
    · exact absurd hnil (by decide)
    · exact hline htext
  cases style with
  | slashes => exact List.forall_mem_singleton.mpr hmarked
  | block opening closing =>
    intro text htext hinside
    obtain ⟨_, hline, rfl⟩ := List.mem_map.mp htext
    obtain ⟨piece, hpiece, rfl⟩ := List.mem_map.mp hline
    have hstarred : "<summary>".toList <:+: line.starred :=
      hinside.trans (((dropGutter_suffix _).isInfix.trans (prefix_dropReturn piece).isInfix).trans
        (infix_of_mem_splitAt hpiece))
    rcases infix_of_infix_append_cons (by decide) hstarred with hindent | htext
    · have hblank := line.indent.isBlank '<' (hindent.subset (by decide))
      exact absurd hblank (by decide)
    · exact hmarked htext

/-- What comments in a style give is what their lines give, with nothing but empty lines in front. -/
theorem Style.flatMap_commentLines (lines : List Line) : ∃ front back,
    (∀ line ∈ front, line = []) ∧
      ((style.comments lines).map String.ofList).flatMap
        (fun comment ↦ commentLines comment.toList) = front ++ (lines.flatMap style.mined ++ back) := by
  cases style with
  | slashes =>
    refine ⟨[], [], nofun, ?_⟩
    rw [comments, List.flatMap_map, List.flatMap_map, List.nil_append, List.append_nil]
    refine List.flatMap_congr fun line _ ↦ ?_
    rw [String.toList_ofList]
    exact commentLines_slashes line.indent.isBlank _
  | block opening closing =>
    refine ⟨[[]], (Text.lines closing.chars).map dropGutter, List.forall_mem_singleton.mpr rfl, ?_⟩
    rw [comments, List.map_singleton, List.flatMap_singleton, String.toList_ofList,
      commentLines_block opening.isBlank, lines_ended, List.map_append, List.flatMap_cons,
      List.flatMap_map, List.map_append, List.map_flatMap, List.append_assoc]
    rfl

/-- The lines that a summary element gives, one for each of its lines. -/
theorem Style.flatMap_mined_elementLines (opening closing : Indent) {docs : List Line}
    (hdocs : ∀ line ∈ docs, IsTidy line.text) :
    (elementLines opening closing docs).flatMap style.mined =
      " <summary>".toList :: ((docs.map Line.text).map (' ' :: ·) ++ [" </summary>".toList]) := by
  have hmined : docs.flatMap style.mined = (docs.map Line.text).map (' ' :: ·) := by
    rw [List.map_map, List.map_eq_flatMap]
    refine List.flatMap_congr fun line hline ↦ ?_
    refine style.mined_of_single (hdocs line hline).single fun hlast ↦ ?_
    have hblank := (hdocs line hline).trimmed.stop '\r' hlast
    exact absurd hblank (by decide)
  have hopening : style.mined ⟨opening, "<summary>".toList⟩ = [" <summary>".toList] := by
    refine style.mined_of_single ?_ ?_ <;> (dsimp only; decide)
  have hclosing : style.mined ⟨closing, "</summary>".toList⟩ = [" </summary>".toList] := by
    refine style.mined_of_single ?_ ?_ <;> (dsimp only; decide)
  rw [elementLines, List.flatMap_cons, List.flatMap_append, hmined, List.flatMap_singleton,
    hopening, hclosing, List.singleton_append]

/-- A summary element is mined back from either style of comments, whatever the indentation is. In
front of it no text matters that does not open a summary, and behind it no text at all.

Assumes: comments above and lines before without the opening tag, and a first and further lines that
are tidy and open no tag. -/
theorem ofComments_styled {above : List String} {before : List Line}
    (habove : ∀ comment ∈ above, ¬"<summary>".toList <:+: comment.toList)
    (hbefore : ∀ line ∈ before, ¬"<summary>".toList <:+: line.text)
    (opening closing : Indent) {first : Line} {rest : List Line}
    (hdocs : ∀ line ∈ first :: rest, IsTidy line.text ∧ '<' ∉ line.text)
    (behind : List Line) (below : List String) :
    ofComments (above ++ ((style.comments (before ++
        (elementLines opening closing (first :: rest) ++ behind))).map String.ofList ++ below)) =
      ⟨some (String.ofList first.text),
        "\n".intercalate (rest.map fun line ↦ String.ofList line.text)⟩ := by
  obtain ⟨front, back, hfront, hmined⟩ := style.flatMap_commentLines
    (before ++ (elementLines opening closing (first :: rest) ++ behind))
  rw [ofComments_eq, List.flatMap_append, List.flatMap_append, hmined, List.flatMap_append,
    List.flatMap_append, style.flatMap_mined_elementLines opening closing fun line hline ↦
      (hdocs line hline).1]
  have hlead : ∀ text ∈ above.flatMap (fun comment ↦ commentLines comment.toList) ++
      (front ++ before.flatMap style.mined), ¬"<summary>".toList <:+: text := by
    simp only [List.forall_mem_append, List.forall_mem_flatMap]
    refine ⟨fun comment hcomment text htext hinside ↦ ?_, fun text htext hinside ↦ ?_,
      fun line hline ↦ style.not_infix_of_mem_mined (hbefore line hline)⟩
    · exact habove comment hcomment (hinside.trans (infix_of_mem_commentLines htext))
    · rw [hfront text htext] at hinside
      exact absurd hinside (by decide)
  have htidy : ∀ doc ∈ (first :: rest).map Line.text, IsTidy doc ∧ '<' ∉ doc :=
    List.forall_mem_map.mpr hdocs
  have hread := ofText_element hlead htidy
    (behind.flatMap style.mined ++ (back ++ below.flatMap fun comment ↦ commentLines comment.toList))
  simp only [List.append_assoc, List.cons_append, List.nil_append] at hread ⊢
  rw [hread, List.map_cons, ofLines, List.map_map]
  rfl

/-- A block with lines that look like gutters and markers, another summary within it and below. -/
theorem ofComments_styled_stars :
    ofComments ["// <sum",
        "  /**\n * Remarks\n    * <summary>\n* * a/\n  * b\rc *\n * </summary>\n * <summary>z\n */",
        "/// <summary>y</summary>"] = ⟨some "* a/", "b\rc *"⟩ :=
  @ofComments_styled (.block (.spaces 2) (.spaces 1)) ["// <sum"]
    [⟨.spaces 1, "Remarks".toList⟩] (List.forall_mem_singleton.mpr (by decide))
    (List.forall_mem_singleton.mpr (by decide)) (.spaces 4) (.spaces 1)
    ⟨.spaces 0, "* a/".toList⟩ [⟨.spaces 2, "b\rc *".toList⟩]
    (List.forall_mem_cons.mpr ⟨by decide, List.forall_mem_singleton.mpr (by decide)⟩)
    [⟨.spaces 1, "<summary>z".toList⟩] ["/// <summary>y</summary>"]

end Style

end Conform.Summary
