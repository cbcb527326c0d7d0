import Conform.Extraction
import Conform.Proofs.Source.Crlf
import Conform.Proofs.Summary.Normal
import Mathlib.Data.Set.List

/-!
The markers of documentation comments. Every comment that documents a method is written with markers
of its own around a text (`Token.exists_note`), and mining takes them off (`commentLines_written`),
but for the shortest block: its two markers share their star, and the slash of the closing one is read
as text. Nothing else of the markers can be in a name or a description (`rows_notes_sublist`), and
comments with blanks alone between their markers name nothing exactly if there is no such block among
them (`markers_read`).
-/

set_option autoImplicit false

namespace Conform.Summary

open Source Text

/-! ### Notes -/

/-- A documentation comment, by what stands between its markers. -/
inductive Note where
  /-- A comment up to the line end. -/
  | line (text : List Char) (hline : ∀ c ∈ text, Lexeme.isLineEnd c = false)
  | block (text : List Char) (hclose : ¬"*/".toList <:+: '*' :: text)
  /-- A block that the source ends in. -/
  | torn (text : List Char) (hclose : ¬"*/".toList <:+: '*' :: text)
  /-- The block whose opening and closing marker share their star. -/
  | shortest
  deriving DecidableEq

namespace Note

def text : Note → List Char
  | line text _ | block text _ | torn text _ => text
  | shortest => []

def written : Note → List Char
  | line text _ => "///".toList ++ text
  | block text _ => "/**".toList ++ (text ++ "*/".toList)
  | torn text _ => "/**".toList ++ text
  | shortest => "/**/".toList

def comment (note : Note) : String :=
  String.ofList note.written

/-- The lines that mining reads a comment as. -/
def rows : Note → List (List Char)
  | line text _ => [text]
  | block text _ | torn text _ => (lines text).map dropGutter
  | shortest => [['/']]

/-- The text that mining reads in a comment. -/
def read (note : Note) : List Char :=
  if note = shortest then ['/'] else note.text

theorem notMem_of_mem_rows {note : Note} : ∀ row ∈ note.rows, '\n' ∉ row := by
  have hblock : ∀ text row : List Char, row ∈ (lines text).map dropGutter → '\n' ∉ row := by
    intro text row hrow hfeed
    obtain ⟨whole, hwhole, rfl⟩ := List.mem_map.mp hrow
    exact notMem_of_mem_lines hwhole ((dropGutter_suffix whole).subset hfeed)
  intro row hrow
  cases note with
  | line text hline =>
    obtain rfl := List.mem_singleton.mp hrow
    exact fun hfeed ↦ absurd (hline _ hfeed) (by decide)
  | block text hclose => exact hblock text row hrow
  | torn text hclose => exact hblock text row hrow
  | shortest =>
    obtain rfl := List.mem_singleton.mp hrow
    decide

/-- What is read of a comment stands between its markers, but for the slash of the shortest one. -/
theorem intercalate_rows_sublist (note : Note) :
    (['\n'].intercalate note.rows).Sublist note.read := by
  have hblock : ∀ text : List Char,
      (['\n'].intercalate ((lines text).map dropGutter)).Sublist text := by
    intro text
    have hparts : List.SublistForall₂ List.Sublist ((lines text).map dropGutter) (lines text) :=
      List.sublistForall₂_iff.mpr ⟨lines text, List.forall₂_map_left_iff.mpr
        (List.forall₂_same.mpr fun line _ ↦ (dropGutter_suffix line).sublist), List.Sublist.refl _⟩
    exact (intercalate_sublist hparts).trans (intercalate_lines_sublist text)
  cases note with
  | line text hline =>
    rw [rows, List.intercalate_singleton]
    exact List.Sublist.refl text
  | block text hclose => exact hblock text
  | torn text hclose => exact hblock text
  | shortest => exact List.Sublist.refl ['/']

theorem commentLines_written (note : Note) : commentLines note.written = note.rows := by
  cases note with
  | line text hline => exact @commentLines_slashes [] nofun text
  | block text hclose => exact @commentLines_block [] nofun text
  | torn text hclose =>
    have hopen : before? "*/".toList text = none := by
      by_contra hsome
      obtain ⟨inner, hinner⟩ := Option.ne_none_iff_exists'.mp hsome
      exact hclose ⟨'*' :: inner, [], by rw [before?_eq_some_iff.mp hinner, List.append_nil]; rfl⟩
    have hread := @commentLines_stars [] nofun text
    rw [hopen, Option.getD_none] at hread
    exact hread
  | shortest => rfl

/-- A comment with blanks alone between its markers says nothing, unless it is the shortest one. -/
theorem filter_rows {note : Note} (hblank : IsBlankText note.text) :
    (note.rows.map trim).filter (!·.isEmpty) = if note = shortest then [['/']] else [] := by
  have hrows : ∀ rows : List (List Char), (∀ row ∈ rows, IsBlankText row) →
      (rows.map trim).filter (!·.isEmpty) = [] := by
    intro rows hrows
    rw [List.filter_eq_nil_iff, List.forall_mem_map]
    exact fun row hrow ↦ by rw [trim_eq_nil (hrows row hrow)]; decide
  have hblock : ∀ text : List Char, IsBlankText text →
      ∀ row ∈ (lines text).map dropGutter, IsBlankText row := by
    intro text htext row hrow c hc
    obtain ⟨whole, hwhole, rfl⟩ := List.mem_map.mp hrow
    exact htext c ((infix_of_mem_lines hwhole).subset ((dropGutter_suffix whole).subset hc))
  cases note with
  | line text hline => exact hrows _ (List.forall_mem_singleton.mpr hblank)
  | block text hclose => exact hrows _ (hblock text hblank)
  | torn text hclose => exact hrows _ (hblock text hblank)
  | shortest => rfl

end Note

/-! ### Mined notes -/

section Notes

variable (notes : List Note)

theorem ofComments_notes : ofComments (notes.map Note.comment) =
    ofText (['\n'].intercalate (notes.flatMap Note.rows)) := by
  rw [ofComments_eq, List.flatMap_map]
  refine congrArg (fun rows ↦ ofText (['\n'].intercalate rows)) ?_
  refine List.flatMap_congr fun note _ ↦ ?_
  rw [Note.comment, String.toList_ofList, Note.commentLines_written]

/-- Of the markers nothing is in a summary but slashes of the shortest blocks. -/
theorem rows_notes_sublist : (['\n'].intercalate (ofComments (notes.map Note.comment)).rows).Sublist
    (['\n'].intercalate (notes.map Note.read)) := by
  rw [ofComments_notes, ofText, rows_ofLines fun line hline ↦ isTidy_of_mem hline]
  exact (((intercalate_tidyLines_sublist _).trans (dropTags_sublist _)).trans
    (element_sublist _)).trans (intercalate_flatMap_sublist Note.intercalate_rows_sublist notes)

/-- A line for each shortest block. -/
theorem flatMap_shortest :
    (notes.flatMap fun note ↦ if note = .shortest then [['/']] else []) =
      List.replicate (notes.count .shortest) ['/'] := by
  induction notes with
  | nil => rfl
  | cons note rest ih =>
    rw [List.flatMap_cons, List.count_cons, ih]
    by_cases hshort : note = .shortest
    · rw [if_pos hshort, if_pos (beq_iff_eq.mpr hshort)]
      rfl
    · rw [if_neg hshort, if_neg (mt beq_iff_eq.mp hshort)]
      rfl

variable {notes}

/-- Comments with blanks alone between their markers are read as a line for each shortest block. -/
theorem ofComments_blank (hblank : ∀ note ∈ notes, IsBlankText note.text) :
    ofComments (notes.map Note.comment) =
      ofLines (List.replicate (notes.count .shortest) ['/']) := by
  have hplain : '<' ∉ ['\n'].intercalate (notes.flatMap Note.rows) := by
    intro htag
    have hread := (intercalate_flatMap_sublist Note.intercalate_rows_sublist notes).subset htag
    refine notMem_ended (by decide) ?_ ((intercalate_prefix_ended _).subset hread)
    rw [List.forall_mem_map]
    intro note hnote
    rw [Note.read]
    split
    · decide
    · exact fun htag ↦ absurd (hblank note hnote '<' htag) (by decide)
  have htidy : tidyLines (['\n'].intercalate (notes.flatMap Note.rows)) =
      notes.flatMap fun note ↦ if note = .shortest then [['/']] else [] := by
    have hsingle : ∀ row ∈ notes.flatMap Note.rows, '\n' ∉ row :=
      List.forall_mem_flatMap.mpr fun note _ ↦ note.notMem_of_mem_rows
    rw [tidyLines_join hsingle, List.map_flatMap, List.filter_flatMap]
    exact List.flatMap_congr fun note hnote ↦ Note.filter_rows (hblank note hnote)
  rw [ofComments_notes, ofText, element_eq_self (not_sublist_of_notMem hplain),
    dropTags_eq_self (not_sublist_of_notMem hplain), htidy,
    flatMap_shortest]

end Notes

end Conform.Summary

namespace Conform.Source

open Summary

/-- A block comment reaches to the first closing marker, or to the end. -/
theorem Lexeme.exists_take_noteLength (inner : List Char) : ∃ text, ¬"*/".toList <:+: text ∧
    (inner.take (noteLength inner) = text ++ "*/".toList ∨
      inner.take (noteLength inner) = text) := by
  induction inner with
  | nil => exact ⟨[], by decide, .inr rfl⟩
  | cons c rest ih =>
    rw [noteLength_cons]
    split
    · rename_i hclose
      obtain ⟨rfl, hhead⟩ := hclose
      obtain ⟨behind, rfl⟩ := List.head?_eq_some_iff.mp hhead
      exact ⟨[], by decide, .inl rfl⟩
    · rename_i hopen
      obtain ⟨text, htext, htake⟩ := ih
      refine ⟨c :: text, fun hinside ↦ ?_, ?_⟩
      · rcases List.infix_cons_iff.mp hinside with hstart | hlater
        · obtain ⟨rfl, others, hothers⟩ := List.cons_prefix_cons.mp hstart
          refine hopen ⟨rfl, ?_⟩
          have hprefix : text <+: rest := by
            refine List.IsPrefix.trans ?_ (List.take_prefix (noteLength rest) rest)
            rcases htake with htake | htake <;> rw [htake]
            exact List.prefix_append _ _
          obtain ⟨behind, rfl⟩ := hprefix
          rw [← hothers]
          rfl
        · exact htext hlater
      · rw [Nat.add_comm, List.take_succ_cons, List.cons_append]
        exact htake.imp (congrArg (c :: ·)) (congrArg (c :: ·))

/-- A documentation comment of a source is written with markers. -/
theorem Token.exists_note {source : List Char} {token : Token}
    (htoken : token ∈ Token.ofSource source) (hdoc : token.isDoc = true) :
    ∃ note : Note, token.text = note.comment := by
  obtain ⟨front, lexeme, back, hsource, rfl⟩ := Token.mem_ofSource htoken
  obtain ⟨c, rest, -, hchars⟩ :=
    Lexeme.exists_measure (by simp [hsource] : lexeme ∈ Lexeme.ofChars source)
  suffices hwritten : ∃ note : Note, lexeme.chars = note.written by
    obtain ⟨note, hnote⟩ := hwritten
    refine ⟨note, String.toList_inj.mp ?_⟩
    rw [Note.comment, String.toList_ofList, ← hnote]
    rfl
  rw [isDoc, Bool.or_eq_true, List.isPrefixOf_iff_prefix, List.isPrefixOf_iff_prefix] at hdoc
  change ['/', '/', '/'] <+: lexeme.chars ∨ ['/', '*', '*'] <+: lexeme.chars at hdoc
  rw [hchars] at hdoc ⊢
  rcases hdoc with hslashes | hstars
  · obtain ⟨rfl, text, htext⟩ := List.cons_prefix_cons.mp hslashes
    have hhead : rest.head? = some '/' := by
      obtain ⟨behind, hbehind⟩ := List.take_prefix (Lexeme.measure '/' rest).2 rest
      rw [← hbehind, ← htext]
      rfl
    rw [Lexeme.take_line hhead] at htext ⊢
    refine ⟨.line text fun c hc ↦ ?_, by rw [← htext]; rfl⟩
    have hmem : c ∈ rest.takeWhile (!Lexeme.isLineEnd ·) := by
      rw [← htext]
      exact List.mem_append_right _ hc
    simpa using List.mem_takeWhile_imp hmem
  · obtain ⟨rfl, text, htext⟩ := List.cons_prefix_cons.mp hstars
    obtain ⟨inner, rfl⟩ : ∃ inner, rest = '*' :: inner := by
      obtain ⟨behind, hbehind⟩ := List.take_prefix (Lexeme.measure '/' rest).2 rest
      exact ⟨_, by rw [← hbehind, ← htext]; rfl⟩
    rw [Lexeme.take_block] at htext ⊢
    obtain ⟨stretch, hopen, hclosed | htorn⟩ := Lexeme.exists_take_noteLength inner
    · rw [hclosed] at htext ⊢
      cases stretch with
      | nil => exact ⟨.shortest, rfl⟩
      | cons d others =>
        obtain ⟨rfl, -⟩ := List.cons.inj (List.cons.inj htext).2
        exact ⟨.block others hopen, rfl⟩
    · rw [htorn] at htext ⊢
      obtain rfl := (List.cons.inj htext).2
      exact ⟨.torn text hopen, rfl⟩

/-- The documentation of a method is a row of documentation comments. -/
theorem Structure.exists_notes {source : List Char} {method : Method}
    (hmethod : method ∈ (ofSource source).methods) :
    ∃ notes : List Note, method.docs = notes.map Note.comment := by
  have hrange : method.docs ∈ Set.range (List.map Note.comment) := by
    rw [Set.range_list_map]
    intro comment hcomment
    obtain ⟨token, htoken, hdoc, rfl⟩ := exists_doc hmethod hcomment
    obtain ⟨note, hnote⟩ := Token.exists_note htoken hdoc
    exact ⟨note, hnote.symm⟩
  obtain ⟨notes, hnotes⟩ := hrange
  exact ⟨notes, hnotes.symm⟩

end Conform.Source

namespace Conform.Extraction

open Source Text Summary

/-- What the documentation of a method says is read between the markers of its comments, but for the
slash of the shortest block. If there are only blanks between them, it names nothing exactly if that
block is not among them, and the method is then called by its identifier. -/
theorem markers_read {source : List Char} {method : Method}
    (hmethod : method ∈ (Structure.ofSource source).methods) :
    (∃ notes : List Note, method.docs = notes.map Note.comment) ∧
    ∀ notes : List Note, method.docs = notes.map Note.comment →
      (['\n'].intercalate (ofComments method.docs).rows).Sublist
        (['\n'].intercalate (notes.map Note.read)) ∧
      ((∀ note ∈ notes, IsBlankText note.text) →
        ((ofComments method.docs).name = none ↔ Note.shortest ∉ notes) ∧
        (Note.shortest ∉ notes → ∀ dialect : Dialect,
          describe dialect method = (dialect.methodName method.identifier, ""))) := by
  refine ⟨Structure.exists_notes hmethod, fun notes hdocs ↦ ?_⟩
  have hmined : ofComments method.docs = ofComments (notes.map Note.comment) := by rw [hdocs]
  refine ⟨hmined ▸ rows_notes_sublist notes, fun hblank ↦ ?_⟩
  rw [ofComments_blank hblank] at hmined
  refine ⟨?_, fun hshort dialect ↦ ?_⟩
  · rw [hmined, ← List.count_eq_zero]
    cases notes.count Note.shortest <;> simp [ofLines, List.replicate_succ]
  · rw [List.count_eq_zero.mpr hshort] at hmined
    unfold describe
    rw [hmined]
    rfl

/-- Blank comments of every kind but the shortest. -/
theorem markers_read_blank :
    describe .entity ⟨"GetTotal", 2, .expression, ["/// ", "/** */", "/***/"]⟩ =
      ("GetTotal", "") := by
  have hread := (@markers_read
    "class C \x7b /// \n /** */ /***/ int GetTotal() => 1; \x7d".toList
    ⟨"GetTotal", 2, .expression, ["/// ", "/** */", "/***/"]⟩ (by decide +kernel)).2
    [.line [' '] (by decide), .block [' '] (by decide), .block [] (by decide)] rfl
  have hblank : ∀ c ∈ [' '], isBlank c = true := by decide
  refine (hread.2 ?_).2 (by decide) .entity
  simp only [List.forall_mem_cons]
  exact ⟨hblank, hblank, List.forall_mem_nil _, List.forall_mem_nil _⟩

/-- The slash of the shortest block becomes a name. -/
theorem not_forall_name_eq_none : ¬∀ (source : List Char) (method : Method) (notes : List Note),
    method ∈ (Structure.ofSource source).methods → method.docs = notes.map Note.comment →
      (∀ note ∈ notes, IsBlankText note.text) → (ofComments method.docs).name = none := by
  intro hall
  have hname := hall "class C \x7b /**/ void ExecuteInitialize() \x7b x(); \x7d \x7d".toList
    ⟨"ExecuteInitialize", 1, .block ⟨40, 48⟩ (some ⟨42, 46⟩), ["/**/"]⟩ [.shortest]
    (by decide +kernel) rfl (List.forall_mem_singleton.mpr nofun)
  exact absurd hname (by decide)

end Conform.Extraction
