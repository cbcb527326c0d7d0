import Conform.Proofs.Extraction.Selection
import Conform.Proofs.Source.Crlf
import Conform.Proofs.Source.Isolation
import Conform.Proofs.Summary.Normal

/-!
The names of records. A name is the first line that is mined from the documentation of a method, or
else what the dialect leaves of the identifier (`Extraction.names_iff`). Mined lines and identifiers
are not empty and have no blanks at their ends, so a name is only unusable where nothing is left of
an identifier (`Extraction.Names.isTidy_or`). No behaviour comes to that, as its dialect would not
know the method; an application file comes to it if its first method is called `Async` and says
nothing of a name (`Extraction.records_named`).
-/

set_option autoImplicit false

namespace Conform

/-! ### Identifiers -/

namespace Source

/-- Words hold no blank. -/
theorem Lexeme.isGap_of_measure {c : Char} {rest : List Char}
    (hkind : (measure c rest).1 = .word) :
    ∀ d ∈ c :: rest.take (measure c rest).2, isGap d = false := by
  rw [measure_eq] at hkind ⊢
  split_ifs at hkind ⊢ with hgap
  have hc : isGap c = false := Bool.eq_false_iff.mpr hgap
  unfold plain at hkind ⊢
  cases hopening : opening? (c :: rest) with
  | some opened => simp [hopening] at hkind
  | none =>
    rw [hopening] at hkind
    dsimp only at hkind ⊢
    split_ifs at hkind ⊢
    rw [← List.prefix_iff_eq_take.mp (List.takeWhile_prefix _), List.forall_mem_cons]
    exact ⟨hc, fun d hd ↦ isGap_eq_false_of_isWordPart (List.mem_takeWhile_imp hd)⟩

theorem Token.isBlank_of_word {source : List Char} {token : Token}
    (htoken : token ∈ Token.ofSource source) (hword : token.kind = .word) :
    token.text.toList ≠ [] ∧ ∀ c ∈ token.text.toList, Text.isBlank c = false := by
  obtain ⟨front, lexeme, back, hsource, rfl⟩ := Token.mem_ofSource htoken
  have hmem : lexeme ∈ Lexeme.ofChars source := by simp [hsource]
  refine ⟨Lexeme.chars_ne_nil hmem, fun c hc ↦ ?_⟩
  obtain ⟨first, rest, hkind, hchars⟩ := Lexeme.exists_measure hmem
  change c ∈ lexeme.chars at hc
  rw [hchars] at hc
  have hgap := Lexeme.isGap_of_measure (hkind.symm.trans hword) c hc
  exact (Bool.or_eq_false_iff.mp hgap).1

namespace Header

theorem core_sublist (header : Header) : (core header).Sublist header :=
  ((List.dropWhile_sublist _).trans (List.dropWhile_sublist _)).trans List.filter_sublist

theorem unconstrained_sublist (pieces : List Piece) : (unconstrained pieces).Sublist pieces := by
  induction pieces with
  | nil => exact .refl _
  | cons piece rest ih =>
    rw [unconstrained]
    split
    · exact (List.nil_sublist rest).cons_cons piece
    · exact ih.cons_cons piece

theorem drop_sublist (opened : Nat) (pieces : List Piece) :
    (dropTypeParameters.drop opened pieces).Sublist pieces := by
  induction pieces generalizing opened with
  | nil => exact .refl _
  | cons piece rest ih =>
    rw [dropTypeParameters.drop]
    split_ifs
    · exact (ih _).cons piece
    · exact List.sublist_cons_self piece rest
    · exact (ih _).cons piece
    · exact (ih _).cons piece

theorem dropTypeParameters_sublist (reversed : List Piece) :
    (dropTypeParameters reversed).Sublist reversed := by
  unfold dropTypeParameters
  split
  · split
    · exact (drop_sublist 1 _).cons _
    · exact .refl _
  · exact .refl _

/-- The name of a method is a word of its header. -/
theorem exists_word_of_methodName? {header : Header} {name : String}
    (hname : methodName? header = some name) :
    ∃ token, Piece.token token ∈ header ∧ token.kind = .word ∧ token.text = name := by
  have hparts : (unconstrained (core header)).Sublist header :=
    (unconstrained_sublist _).trans (core_sublist header)
  unfold methodName? at hname
  dsimp only at hname
  split at hname
  · contradiction
  · split at hname
    case h_2 => contradiction
    case h_1 first rest last before _ hreversed =>
      split at hname
      · contradiction
      · split at hname
        case h_2 => contradiction
        case h_1 piece second others hpieces =>
          have hbefore : before.Sublist (unconstrained (core header)).reverse :=
            hreversed ▸ List.sublist_cons_self last before
          have hmem : piece ∈ dropTypeParameters before := hpieces ▸ List.mem_cons_self
          have hpiece : piece ∈ header := hparts.subset (List.mem_reverse.mp
            (hbefore.subset ((dropTypeParameters_sublist before).subset hmem)))
          cases piece with
          | group => contradiction
          | token single =>
            rw [Piece.word?] at hname
            split at hname
            · rename_i hkind
              exact ⟨single, hpiece, hkind, Option.some.inj hname⟩
            · contradiction

end Header

/-- The identifier of a method is not empty and holds no blank. -/
theorem Structure.isBlank_identifier {source : List Char} {method : Method}
    (hmethod : method ∈ (ofSource source).methods) :
    method.identifier.toList ≠ [] ∧ ∀ c ∈ method.identifier.toList, Text.isBlank c = false := by
  obtain ⟨site, hfound, hall⟩ := exists_site hmethod
  obtain ⟨hname, -, -⟩ := Method.ofDeclaration?_eq_some hfound
  obtain ⟨token, hpiece, hword, htext⟩ := Header.exists_word_of_methodName? hname
  have htoken := hall.header _ hpiece token (List.mem_singleton_self token)
  rw [← htext]
  exact Token.isBlank_of_word htoken hword

end Source

/-! ### Names -/

theorem Summary.isTidy_of_forall {text : List Char} (hfilled : text ≠ [])
    (hsolid : ∀ c ∈ text, Text.isBlank c = false) : IsTidy text where
  filled := hfilled
  trimmed := ⟨fun c hc ↦ hsolid c (List.mem_of_mem_head? hc),
    fun c hc ↦ hsolid c (List.mem_of_getLast? hc)⟩
  single := fun hfeed ↦ nomatch hsolid '\n' hfeed

namespace Extraction

open Source Summary

/-- Where the name of a method is from: the first line mined from its documentation or else the
identifier, without an `Async` at its end where the dialect is not that of entities. -/
inductive Names (dialect : Dialect) (method : Method) (name : String) : Prop where
  | mined (hmined : (ofComments method.docs).name = some name)
  | whole (hnone : (ofComments method.docs).name = none)
      (hkept : dialect = .entity ∨ ¬"Async".toList <:+ method.identifier.toList)
      (hname : name = method.identifier)
  | stripped (hnone : (ofComments method.docs).name = none) (hdialect : dialect ≠ .entity)
      (hname : method.identifier = name ++ "Async")

/-- A method that leaves nothing for a name: its documentation says none, and its identifier is no
more than what the dialect takes off. -/
structure Nameless (dialect : Dialect) (method : Method) : Prop where
  undocumented : (ofComments method.docs).name = none
  strips : dialect ≠ .entity
  identifier : method.identifier = "Async"

section Names

variable {dialect : Dialect} {method : Method} {name : String}

theorem methodName_eq_iff {identifier : String} : dialect.methodName identifier = name ↔
    ((dialect = .entity ∨ ¬"Async".toList <:+ identifier.toList) ∧ name = identifier) ∨
      dialect ≠ .entity ∧ identifier = name ++ "Async" := by
  have hstrips : dialect.stripsAsync = true ↔ dialect ≠ .entity := by cases dialect <;> decide
  unfold Dialect.methodName
  by_cases hentity : dialect = .entity
  · rw [if_neg (fun hstrip ↦ hstrips.mp hstrip hentity)]
    simp [hentity, eq_comm]
  · rw [if_pos (hstrips.mpr hentity)]
    cases hbefore : Text.before? "Async".toList identifier.toList with
    | none =>
      have hsuffix : ¬"Async".toList <:+ identifier.toList := by
        rintro ⟨rest, hrest⟩
        rw [Text.before?_eq_some_iff.mpr hrest.symm] at hbefore
        contradiction
      constructor
      · rintro rfl
        exact .inl ⟨.inr hsuffix, rfl⟩
      · rintro (⟨-, hname⟩ | ⟨-, rfl⟩)
        · exact hname.symm
        · exact absurd ⟨name.toList, String.toList_append.symm⟩ hsuffix
    | some rest =>
      have hidentifier := Text.before?_eq_some_iff.mp hbefore
      have hsame : String.ofList rest = name ↔ identifier = name ++ "Async" := by
        rw [← String.toList_inj, ← String.toList_inj, String.toList_append, String.toList_ofList,
          hidentifier, List.append_left_inj]
      constructor
      · exact fun hname ↦ .inr ⟨hentity, hsame.mp hname⟩
      · rintro (⟨hkept, -⟩ | ⟨-, hname⟩)
        · exact absurd ⟨rest, hidentifier.symm⟩ (hkept.resolve_left hentity)
        · exact hsame.mpr hname

/-- The law of the names: what a record is named. -/
theorem names_iff : Names dialect method name ↔ (describe dialect method).1 = name := by
  rw [describe]
  cases hmined : (ofComments method.docs).name with
  | some line =>
    simp only [Option.getD_some]
    constructor
    · rintro (hother | ⟨hnone, -, -⟩ | ⟨hnone, -, -⟩)
      · exact Option.some.inj (hmined.symm.trans hother)
      · cases hmined.symm.trans hnone
      · cases hmined.symm.trans hnone
    · rintro rfl
      exact .mined hmined
  | none =>
    simp only [Option.getD_none]
    rw [methodName_eq_iff]
    constructor
    · rintro (hother | ⟨-, hkept, hname⟩ | ⟨-, hdialect, hname⟩)
      · cases hmined.symm.trans hother
      · exact .inl ⟨hkept, hname⟩
      · exact .inr ⟨hdialect, hname⟩
    · rintro (⟨hkept, hname⟩ | ⟨hdialect, hname⟩)
      · exact .whole hmined hkept hname
      · exact .stripped hmined hdialect hname

/-- Assumes: a method of a source. Its name is usable, unless nothing of the identifier is left. -/
theorem Names.isTidy_or {source : List Char}
    (hmethod : method ∈ (Structure.ofSource source).methods) (hnames : Names dialect method name) :
    (IsTidy name.toList ∧ ¬Nameless dialect method) ∨ (name = "" ∧ Nameless dialect method) := by
  obtain ⟨hfilled, hsolid⟩ := Structure.isBlank_identifier hmethod
  cases hnames with
  | mined hmined =>
    refine .inl ⟨?_, fun hnameless ↦ nomatch hmined.symm.trans hnameless.undocumented⟩
    rw [ofComments_eq] at hmined
    exact (isNormal_ofText _).name name hmined
  | whole _ hkept hname =>
    refine .inl ⟨hname ▸ isTidy_of_forall hfilled hsolid, fun hnameless ↦ ?_⟩
    refine hkept.resolve_left hnameless.strips ?_
    rw [hnameless.identifier]
  | stripped hnone hdialect hname =>
    by_cases hempty : name = ""
    · subst hempty
      exact .inr ⟨rfl, hnone, hdialect, hname⟩
    · refine .inl ⟨isTidy_of_forall (fun hnil ↦ hempty (String.toList_eq_nil_iff.mp hnil))
        fun c hc ↦ hsolid c ?_, fun hnameless ↦ hempty ?_⟩
      · rw [hname, String.toList_append]
        exact List.mem_append_left _ hc
      · have hboth := hname.symm.trans hnameless.identifier
        rw [← String.toList_inj, String.toList_append] at hboth
        exact String.toList_eq_nil_iff.mp (List.append_left_eq_self.mp hboth)

end Names

/-- No dialect knows a method without a name. -/
theorem Nameless.classify?_eq_none {dialect : Dialect} {method : Method}
    (hnameless : Nameless dialect method) : dialect.classify? method.identifier = none := by
  rw [hnameless.identifier]
  cases dialect with
  | dataAccess => decide
  | entity => exact absurd rfl hnameless.strips
  | application => rfl

/-- Each behaviour that is returned for a file is named by one of its methods, and the record of an
application file by the first one: by the first line mined from its documentation, or else by its
identifier, at most without an `Async`. The name of a behaviour is not empty, has no blanks at its
ends and is a single line. So is that of an application file, but for one case: a first method with
the identifier `Async` and without a mined line leaves the empty name. -/
theorem records_named (source : String) :
    (∀ dialect behaviour, Returns dialect source behaviour →
      ∃ method ∈ (Structure.ofSource source.toList).methods,
        Holds dialect source.toList method behaviour ∧ Names dialect method behaviour.name ∧
          IsTidy behaviour.name.toList) ∧
    ∀ record, application source = .ok record →
      ∃ method ∈ (Structure.ofSource source.toList).methods.head?,
        Names .application method record.name ∧
          (¬Nameless .application method → IsTidy record.name.toList) ∧
          (Nameless .application method → record.name = "") := by
  constructor
  · intro dialect behaviour hreturns
    obtain ⟨method, hmethod, hholds⟩ := hreturns.exists_holds
    have hnames : Names dialect method behaviour.name :=
      names_iff.mpr (congrArg Prod.fst hholds.described).symm
    refine ⟨method, hmethod, hholds, hnames, ?_⟩
    rcases hnames.isTidy_or hmethod with ⟨htidy, -⟩ | ⟨-, hnameless⟩
    · exact htidy
    · exact nomatch hholds.known.symm.trans hnameless.classify?_eq_none
  · intro record hrecord
    obtain ⟨-, ⟨method, hfirst, hdescribed, -⟩, -⟩ := application_eq_ok_iff.mp hrecord
    have hnames : Names .application method record.name :=
      names_iff.mpr (congrArg Prod.fst hdescribed).symm
    refine ⟨method, hfirst, hnames, ?_⟩
    have hmethod := List.mem_of_mem_head? hfirst
    rcases hnames.isTidy_or hmethod with ⟨htidy, hnamed⟩ | ⟨hempty, hnameless⟩
    · exact ⟨fun _ ↦ htidy, fun hnameless ↦ absurd hnameless hnamed⟩
    · exact ⟨fun hnamed ↦ absurd hnameless hnamed, fun _ ↦ hempty⟩

/-- A behaviour that is named by its identifier, and an application file that is named by the
documentation of a method with the identifier `Async`. -/
theorem records_named_async :
    (∃ method ∈ (Structure.ofSource
        "class C \x7b void CreateAsync() \x7b x(); \x7d \x7d".toList).methods,
      Names .dataAccess method "Create" ∧ IsTidy "Create".toList) ∧
    ∃ method ∈ (Structure.ofSource
        "namespace A \x7b class C \x7b/// Send\nvoid Async() \x7b\x7d \x7d \x7d".toList).methods.head?,
      Names .application method "Send" := by
  constructor
  · have hfound : behaviours .dataAccess "class C \x7b void CreateAsync() \x7b x(); \x7d \x7d" =
        .ok [⟨"Create", "", "x();", .create, none⟩] := by decide +kernel
    obtain ⟨method, hmethod, -, hnames, htidy⟩ := (records_named _).1 .dataAccess _
      (.behaviours hfound (List.mem_singleton_self _))
    exact ⟨method, hmethod, hnames, htidy⟩
  · have hrecord : application
        "namespace A \x7b class C \x7b/// Send\nvoid Async() \x7b\x7d \x7d \x7d" =
          .ok ⟨"A", "Send", "", "", []⟩ := by decide +kernel
    obtain ⟨method, hfirst, hnames, -⟩ := (records_named _).2 _ hrecord
    exact ⟨method, hfirst, hnames⟩

/-- A file without errors that comes to the empty name, as nothing is left of the identifier. -/
theorem not_forall_name_ne_empty :
    ¬∀ source record, (Structure.ofSource source.toList).hasErrors = false →
      application source = .ok record → record.name ≠ "" := by
  intro hfilled
  have hrecord : application
      "namespace A \x7b class C \x7b void Async() \x7b x(); \x7d \x7d \x7d" =
        .ok ⟨"A", "", "", "x();", []⟩ := by decide +kernel
  exact hfilled _ _ (by decide +kernel) hrecord rfl

end Extraction

end Conform
