import Conform.Proofs.Source.Block
import Conform.Proofs.Source.Lookahead
import Mathlib.Data.List.TakeWhile
import Mathlib.Tactic.ByContra

/-!
Where lexemes begin and end. A byte between two lexemes lies in no token
(`Token.apart_of_boundary`); the statements of a row start and stop at such bytes
(`Row.hull_code_boundaries`). A comment that something follows does not end with a line end
(`Lexeme.comment_end`).
-/

set_option autoImplicit false

namespace Conform.Source

/-- A byte before, between or behind the lexemes that are written from a place on. -/
def IsBoundary (lexemes : List Lexeme) (place : Place) (byte : Nat) : Prop :=
  ∃ front back, lexemes = front ++ back ∧ byte = (place.after (front.flatMap Lexeme.chars)).byte

variable {place : Place} {lexemes : List Lexeme}

theorem IsBoundary.append {byte : Nat} {front : List Lexeme}
    (hboundary : IsBoundary lexemes (place.after (front.flatMap Lexeme.chars)) byte)
    (back : List Lexeme) : IsBoundary (front ++ (lexemes ++ back)) place byte := by
  obtain ⟨before, behind, rfl, rfl⟩ := hboundary
  refine ⟨front ++ before, behind ++ back, by simp, ?_⟩
  rw [List.flatMap_append, Place.after_append]

theorem IsBoundary.behind {byte : Nat} (front : List Lexeme)
    (hboundary : IsBoundary lexemes (place.after (front.flatMap Lexeme.chars)) byte) :
    IsBoundary (front ++ lexemes) place byte := by
  simpa using hboundary.append []

theorem Token.mem_place {token : Token}
    (htoken : token ∈ Token.place place.byte place.row lexemes) :
    ∃ front lexeme back, lexemes = front ++ lexeme :: back ∧
      token = lexeme.at (place.after (front.flatMap Lexeme.chars)) := by
  induction lexemes generalizing place with
  | nil => contradiction
  | cons lexeme rest ih =>
    rcases List.mem_cons.mp htoken with rfl | hrest
    · exact ⟨[], lexeme, rest, rfl, rfl⟩
    · obtain ⟨front, inner, back, rfl, rfl⟩ := @ih (place.after lexeme.chars) hrest
      exact ⟨lexeme :: front, inner, back, rfl, by rw [List.flatMap_cons, Place.after_append]⟩

theorem Token.mem_ofSource {source : List Char} {token : Token}
    (htoken : token ∈ Token.ofSource source) :
    ∃ front lexeme back, Lexeme.ofChars source = front ++ lexeme :: back ∧
      token = lexeme.at (({} : Place).after (front.flatMap Lexeme.chars)) :=
  @Token.mem_place {} _ _ htoken

theorem Lexeme.stop_at (lexeme : Lexeme) (place : Place) :
    (lexeme.at place).stop = (place.after lexeme.chars).byte := rfl

theorem Token.place_bounds {token : Token}
    (htoken : token ∈ Token.place place.byte place.row lexemes) :
    place.byte ≤ token.start ∧ token.start ≤ token.stop ∧
      token.stop ≤ (place.after (lexemes.flatMap Lexeme.chars)).byte := by
  obtain ⟨front, lexeme, back, rfl, rfl⟩ := Token.mem_place htoken
  refine ⟨Place.byte_le_after _ _, Nat.le_add_right _ _, ?_⟩
  rw [Lexeme.stop_at, List.flatMap_append, List.flatMap_cons, Place.after_append,
    Place.after_append]
  exact Place.byte_le_after _ _

theorem Token.apart_of_boundary {token : Token}
    (htoken : token ∈ Token.place place.byte place.row lexemes) {byte : Nat}
    (hboundary : IsBoundary lexemes place byte) : token.stop ≤ byte ∨ byte ≤ token.start := by
  obtain ⟨before, lexeme, behind, rfl, rfl⟩ := Token.mem_place htoken
  obtain ⟨front, back, hsplit, rfl⟩ := hboundary
  rcases List.append_eq_append_iff.mp hsplit with ⟨more, rfl, hmore⟩ | ⟨more, rfl, -⟩
  · cases more with
    | nil =>
      rw [List.append_nil]
      exact .inr (Nat.le_refl _)
    | cons first more =>
      obtain ⟨rfl, -⟩ := List.cons.inj hmore
      refine .inl ?_
      rw [Lexeme.stop_at, List.flatMap_append, List.flatMap_cons, ← List.append_assoc,
        Place.after_append, Place.after_append]
      exact Place.byte_le_after _ _
  · refine .inr ?_
    rw [List.flatMap_append, Place.after_append]
    exact Place.byte_le_after _ _

theorem IsBoundary.isCut {source : List Char} {byte : Nat}
    (hboundary : IsBoundary (Lexeme.ofChars source) {} byte) : Text.IsCut source byte := by
  obtain ⟨front, back, hsource, rfl⟩ := hboundary
  refine ⟨front.flatMap Lexeme.chars, ⟨back.flatMap Lexeme.chars, ?_⟩, (Nat.zero_add _).symm⟩
  rw [← List.flatMap_append, ← hsource, Lexeme.flatMap_chars_ofChars]

theorem Token.isCut_start {source : List Char} {token : Token}
    (htoken : token ∈ Token.ofSource source) : Text.IsCut source token.start := by
  obtain ⟨front, lexeme, back, hsource, rfl⟩ := Token.mem_ofSource htoken
  exact IsBoundary.isCut ⟨front, lexeme :: back, hsource, rfl⟩

/-! ### Statements -/

namespace Row

theorem code_boundaries (row : Row) (place : Place) (course : Course) {span : Span}
    (hspan : span ∈ (row.forest place).code course) :
    IsBoundary row.lexemes place span.start ∧ IsBoundary row.lexemes place span.stop := by
  induction row generalizing place course with
  | empty => contradiction
  | single lexeme rest ih =>
    have hplace : place.after ([lexeme].flatMap Lexeme.chars) = place.after lexeme.chars := by simp
    have hrest : ∀ course, span ∈ (rest.forest (place.after lexeme.chars)).code course →
        IsBoundary (lexeme :: rest.lexemes) place span.start ∧
          IsBoundary (lexeme :: rest.lexemes) place span.stop := by
      intro course hspan
      obtain ⟨hstart, hstop⟩ := ih _ course hspan
      rw [← hplace] at hstart hstop
      exact ⟨hstart.behind [lexeme], hstop.behind [lexeme]⟩
    rw [forest, Forest.code] at hspan
    split at hspan
    · rcases List.mem_cons.mp hspan with rfl | hspan
      · exact ⟨⟨[], _, rfl, rfl⟩, ⟨[lexeme], rest.lexemes, rfl, by simp [Lexeme.stop_at]⟩⟩
      · exact hrest _ hspan
    · exact hrest _ hspan
  | group bracket inner rest _ ih =>
    have hplace : place.after
        ((bracket.opening :: (inner.lexemes ++ [bracket.closing])).flatMap Lexeme.chars) =
        ((place.after bracket.opening.chars).after inner.chars).after bracket.closing.chars := by
      simp [Place.after_append, chars]
    have hlexemes : (group bracket inner rest).lexemes =
        (bracket.opening :: (inner.lexemes ++ [bracket.closing])) ++ rest.lexemes := by
      simp [lexemes]
    have hrest : ∀ course, span ∈ (rest.forest (((place.after bracket.opening.chars).after
          inner.chars).after bracket.closing.chars)).code course →
        IsBoundary (group bracket inner rest).lexemes place span.start ∧
          IsBoundary (group bracket inner rest).lexemes place span.stop := by
      intro course hspan
      obtain ⟨hstart, hstop⟩ := ih _ course hspan
      rw [← hplace] at hstart hstop
      rw [hlexemes]
      exact ⟨hstart.behind _, hstop.behind _⟩
    rw [forest, Forest.code] at hspan
    split at hspan
    · exact hrest _ hspan
    · rcases List.mem_cons.mp hspan with rfl | hspan
      · refine ⟨⟨[], _, rfl, rfl⟩, ⟨_, rest.lexemes, hlexemes, ?_⟩⟩
        rw [hplace]
        rfl
      · exact hrest _ hspan

theorem hull_code_boundaries (row : Row) (place : Place) (course : Course) {span : Span}
    (hspan : hull ((row.forest place).code course) = some span) :
    IsBoundary row.lexemes place span.start ∧ IsBoundary row.lexemes place span.stop := by
  obtain ⟨first, hfirst, hrest⟩ := Option.bind_eq_some_iff.mp hspan
  obtain ⟨last, hlast, hhull⟩ := Option.bind_eq_some_iff.mp hrest
  cases hhull
  exact ⟨(row.code_boundaries place course (List.mem_of_mem_head? hfirst)).1,
    (row.code_boundaries place course (List.mem_of_getLast? hlast)).2⟩

end Row

/-! ### Comments -/

namespace Lexeme

theorem noteLength_end {inner : List Char} (hlength : noteLength inner < inner.length) :
    ∃ text, inner.take (noteLength inner) = text ++ ['/'] := by
  induction inner with
  | nil => contradiction
  | cons c rest ih =>
    rw [noteLength_cons] at hlength ⊢
    split
    · rename_i hclose
      cases rest with
      | nil => cases hclose.2
      | cons d rest => exact ⟨[c], by simp [Option.some.inj hclose.2]⟩
    · rename_i hclose
      rw [if_neg hclose, List.length_cons] at hlength
      obtain ⟨text, htext⟩ := ih (by omega)
      rw [Nat.add_comm, List.take_succ_cons, htext]
      exact ⟨c :: text, rfl⟩

/-- No lexeme of a source is empty. -/
theorem chars_ne_nil {source : List Char} {lexeme : Lexeme} (hlexeme : lexeme ∈ ofChars source) :
    lexeme.chars ≠ [] := by
  obtain ⟨front, back, hsource⟩ := List.append_of_mem hlexeme
  have hsuffix := ofChars_suffix hsource
  cases hwhole : (lexeme :: back).flatMap Lexeme.chars with
  | nil =>
    rw [hwhole, ofChars] at hsuffix
    contradiction
  | cons first rest =>
    rw [hwhole, ofChars_cons] at hsuffix
    obtain ⟨rfl, -⟩ := List.cons.inj hsuffix
    rw [Lexeme.chars, String.toList_ofList]
    exact List.cons_ne_nil _ _

theorem comment_of_measure {c : Char} {rest : List Char} (hkind : (measure c rest).1 = .comment) :
    c = '/' ∧ ((measure c rest).2 = (rest.takeWhile (!isLineEnd ·)).length ∨
      ∃ inner, rest = '*' :: inner ∧ (measure c rest).2 = 1 + noteLength inner) := by
  rw [measure_eq] at hkind ⊢
  split_ifs at hkind ⊢ with _ _ _ hline hnote
  · exact ⟨hline.1, .inl rfl⟩
  · cases rest with
    | nil => cases hnote.2
    | cons d inner => exact ⟨hnote.1, .inr ⟨inner, by rw [Option.some.inj hnote.2], rfl⟩⟩
  · unfold plain at hkind
    split at hkind
    · contradiction
    · split_ifs at hkind

/-- A comment that something follows goes up to the line end, which is no part of it, or up to its
closing mark. -/
theorem comment_forms {source : List Char} {front back : List Lexeme} {lexeme : Lexeme}
    (hsource : ofChars source = front ++ lexeme :: back) (hback : back ≠ [])
    (hkind : lexeme.kind = .comment) :
    (∀ c ∈ lexeme.chars, isLineEnd c = false) ∨
      ∃ text, lexeme.chars = '/' :: '*' :: (text ++ ['/']) := by
  have hsuffix := ofChars_suffix hsource
  cases hwhole : (lexeme :: back).flatMap Lexeme.chars with
  | nil =>
    rw [hwhole, ofChars] at hsuffix
    contradiction
  | cons first rest =>
    rw [hwhole, ofChars_cons] at hsuffix
    obtain ⟨rfl, hrest⟩ := List.cons.inj hsuffix
    have hlength : (measure first rest).2 < rest.length := by
      by_contra hlong
      rw [List.drop_eq_nil_of_le (by omega), ofChars] at hrest
      exact hback hrest.symm
    rw [Lexeme.chars, String.toList_ofList]
    obtain ⟨rfl, hline | ⟨inner, rfl, hnote⟩⟩ := comment_of_measure hkind
    · refine .inl fun c hc ↦ ?_
      rw [hline, ← List.prefix_iff_eq_take.mp (List.takeWhile_prefix _)] at hc
      rcases List.mem_cons.mp hc with rfl | hmem
      · decide
      · simpa using List.mem_takeWhile_imp hmem
    · rw [hnote, List.length_cons] at hlength
      have hshort : noteLength inner < inner.length := by omega
      obtain ⟨note, hend⟩ := noteLength_end hshort
      exact .inr ⟨note, by rw [hnote, Nat.add_comm, List.take_succ_cons, hend]⟩

/-- A comment that something follows does not end with a line end. -/
theorem comment_end {source : List Char} {front back : List Lexeme} {lexeme : Lexeme}
    (hsource : ofChars source = front ++ lexeme :: back) (hback : back ≠ [])
    (hkind : lexeme.kind = .comment) {text : List Char} {c : Char}
    (htext : lexeme.chars = text ++ [c]) : isLineEnd c = false := by
  rcases comment_forms hsource hback hkind with hline | ⟨note, hnote⟩
  · exact hline c (by simp [htext])
  · have hlast := congrArg List.getLast? (htext.symm.trans hnote)
    rw [← List.cons_append, ← List.cons_append, List.getLast?_concat, List.getLast?_concat] at hlast
    rw [Option.some.inj hlast]
    decide

end Lexeme

theorem Token.start_lt_stop {source : List Char} {token : Token}
    (htoken : token ∈ Token.ofSource source) : token.start < token.stop := by
  obtain ⟨front, lexeme, back, hsource, rfl⟩ := Token.mem_ofSource htoken
  have hlexeme : lexeme ∈ Lexeme.ofChars source := by simp [hsource]
  exact Place.byte_lt_after _ (Lexeme.chars_ne_nil hlexeme)

end Conform.Source
