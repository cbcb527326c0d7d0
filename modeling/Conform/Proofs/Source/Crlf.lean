import Conform.Proofs.Source.Boundary
import Conform.Proofs.Source.LineEnding
import Conform.Proofs.Source.Origin

/-!
Tokens and methods of sources with a carriage return before every line feed. The tokens of such a
source are read as those without the carriage returns (`Source.recast_crlf`), so it has the same
namespaces, using directives and methods, with the carriage returns in their texts and with the spans
moved (`Structure.methods_crlf`).
-/

set_option autoImplicit false

namespace Conform

namespace Source

open Text (crlf_cons crlf_eq_self)

/-! ### Tokens -/

/-- A token at its place in the text with the carriage returns. -/
def Token.crlf (token : Token) : Token :=
  { token with
    text := Text.crlfString token.text
    start := token.start + token.row }

namespace Token

theorem place_crlf (start row : Nat) (lexemes : List Lexeme) :
    place (start + row) row (lexemes.map Lexeme.crlf) = (place start row lexemes).map crlf := by
  induction lexemes generalizing start row with
  | nil => rfl
  | cons lexeme rest ih =>
    have hplace : start + row + Text.bytes (Text.crlf lexeme.chars) =
        start + Text.bytes lexeme.chars + (row + lexeme.chars.count '\n') := by
      rw [Text.bytes_crlf]
      omega
    rw [List.map_cons, place, place, List.map_cons, ← ih, Lexeme.crlf, String.toList_ofList,
      Text.count_crlf, hplace]
    rfl

/-- Assumes: a source without carriage returns, whose directives end with their lines. -/
theorem ofSource_crlf {source : List Char} (hreturn : '\r' ∉ source)
    (hends : ∀ lexeme ∈ Lexeme.ofChars source, lexeme.kind = .directive →
      Directive.EndsLine lexeme.chars) :
    ofSource (Text.crlf source) = (ofSource source).map crlf := by
  rw [ofSource, Lexeme.ofChars_crlf hreturn hends]
  exact place_crlf 0 0 _

end Token

/-! ### What is read of the tokens -/

namespace Lexeme

theorem exists_measure {source : List Char} {lexeme : Lexeme} (hlexeme : lexeme ∈ ofChars source) :
    ∃ c rest, lexeme.kind = (measure c rest).1 ∧
      lexeme.chars = c :: rest.take (measure c rest).2 := by
  obtain ⟨front, back, hsource⟩ := List.append_of_mem hlexeme
  have hsuffix := ofChars_suffix hsource
  cases hwhole : (lexeme :: back).flatMap Lexeme.chars with
  | nil =>
    rw [hwhole, ofChars] at hsuffix
    contradiction
  | cons first rest =>
    rw [hwhole, ofChars_cons] at hsuffix
    obtain ⟨rfl, -⟩ := List.cons.inj hsuffix
    exact ⟨first, rest, rfl, String.toList_ofList⟩

/-- Words and marks hold no line feed. -/
theorem notMem_of_measure {c : Char} {rest : List Char}
    (hkind : (measure c rest).1 = .word ∨ (measure c rest).1 = .mark) :
    '\n' ∉ c :: rest.take (measure c rest).2 := by
  rw [measure_eq] at hkind ⊢
  split_ifs at hkind ⊢ with hgap
  · simp at hkind
  · simp at hkind
  · simp at hkind
  · simp at hkind
  · simp at hkind
  have hc : c ≠ '\n' := by
    rintro rfl
    exact hgap (by decide)
  rw [List.mem_cons, not_or]
  refine ⟨hc.symm, ?_⟩
  unfold plain at hkind ⊢
  cases hopening : opening? (c :: rest) with
  | some opened => simp [hopening] at hkind
  | none =>
    dsimp only
    split
    · rw [← List.prefix_iff_eq_take.mp (List.takeWhile_prefix _)]
      exact fun hmem ↦ absurd (List.mem_takeWhile_imp hmem) (by decide)
    · split
      · rename_i hpair
        cases rest with
        | nil => exact List.not_mem_nil
        | cons d inner =>
          intro hmem
          obtain rfl := List.mem_singleton.mp hmem
          exact absurd hpair (by simp [isPair_lineEnd])
      · exact List.not_mem_nil

theorem opensLiteral_of_measure {c : Char} {rest : List Char}
    (hkind : (measure c rest).1 = .literal) : opensLiteral c = true := by
  rw [measure_eq] at hkind
  split_ifs at hkind with _ _ hcharacter
  · rw [hcharacter]
    rfl
  · unfold plain at hkind
    cases hopening : opening? (c :: rest) with
    | some opened => rcases head_of_opening? hopening with rfl | rfl | rfl <;> rfl
    | none =>
      simp only [hopening] at hkind
      split_ifs at hkind

end Lexeme

/-- A token of a source is read as it is with the carriage returns. -/
theorem Token.alike_crlf {source : List Char} {token : Token} (htoken : token ∈ ofSource source) :
    token.Alike token.crlf := by
  obtain ⟨front, lexeme, back, hsource, rfl⟩ := Token.mem_ofSource htoken
  obtain ⟨c, rest, hkind, hchars⟩ :=
    Lexeme.exists_measure (by simp [hsource] : lexeme ∈ Lexeme.ofChars source)
  have htext : (lexeme.at (({} : Place).after (front.flatMap Lexeme.chars))).text.toList =
    c :: rest.take (Lexeme.measure c rest).2 := hchars
  generalize hplace : lexeme.at (({} : Place).after (front.flatMap Lexeme.chars)) = token at htext
  have hkind : token.kind = (Lexeme.measure c rest).1 := by rw [← hplace]; exact hkind
  have himage : token.crlf.text.toList = Text.crlf token.text.toList := Text.toList_crlfString _
  refine ⟨rfl, fun hword ↦ ?_, fun hliteral ↦ ?_, fun hdirective ↦ ?_, ?_⟩
  · rw [hkind] at hword
    have hfeed := Lexeme.notMem_of_measure hword
    rw [← htext] at hfeed
    exact Text.crlfString_eq_self hfeed
  · have hopens := Lexeme.opensLiteral_of_measure (hkind.symm.trans hliteral)
    have hc : c ≠ '\n' := by
      rintro rfl
      contradiction
    rw [htext, crlf_cons hc] at himage
    rw [glance_of_opensLiteral htext hopens, glance_of_opensLiteral himage hopens]
  · have hc : c ≠ '\n' := by
      rintro rfl
      rw [hkind, Lexeme.measure_of_isGap (by decide)] at hdirective
      contradiction
    rw [role, himage, htext, crlf_cons hc, List.drop_one, List.tail_cons, Directive.name_crlf, role,
      htext, List.drop_one, List.tail_cons]
  · have hline := @Text.isPrefixOf_crlf "///".toList (by decide) (by decide) token.text.toList
    have hnote := @Text.isPrefixOf_crlf "/**".toList (by decide) (by decide) token.text.toList
    rw [isDoc, himage, hline, hnote, isDoc]

theorem Token.moves_crlf (source : List Char) :
    Forest.Moves crlf (Text.crlfByte source) (ofSource source) := by
  intro token htoken
  obtain ⟨front, lexeme, back, hsource, rfl⟩ := Token.mem_ofSource htoken
  have hchars : source =
      front.flatMap Lexeme.chars ++ (lexeme.chars ++ back.flatMap Lexeme.chars) := by
    rw [← Lexeme.flatMap_chars_ofChars source, hsource]
    simp
  generalize front.flatMap Lexeme.chars = before at hchars
  have hstart := Text.crlfByte_bytes before (lexeme.chars ++ back.flatMap Lexeme.chars)
  have hstop := Text.crlfByte_bytes (before ++ lexeme.chars) (back.flatMap Lexeme.chars)
  rw [← hchars, Text.bytes_crlf] at hstart
  rw [List.append_assoc, ← hchars, Text.crlf_append, Text.bytes_append, Text.bytes_append,
    Text.bytes_crlf, Text.bytes_crlf] at hstop
  have hat : ∀ place : Place, (lexeme.at place).crlf.stop =
      place.byte + place.row + (Text.bytes lexeme.chars + lexeme.chars.count '\n') := by
    intro place
    rw [stop, crlf, Text.toList_crlfString]
    exact congrArg _ (Text.bytes_crlf lexeme.chars)
  constructor
  · rw [Token.crlf]
    simp only [Lexeme.at, Place.after, Nat.zero_add, hstart]
  · rw [hat, Lexeme.stop_at]
    simp only [Place.after, Nat.zero_add, hstop]

/-- Assumes: a source without carriage returns, whose directives end with their lines. -/
theorem recast_crlf {source : List Char} (hreturn : '\r' ∉ source)
    (hends : ∀ lexeme ∈ Lexeme.ofChars source, lexeme.kind = .directive →
      Directive.EndsLine lexeme.chars) :
    Recast source (Text.crlf source) Token.crlf (Text.crlfByte source) :=
  ⟨Token.ofSource_crlf hreturn hends, fun _ ↦ Token.alike_crlf, Token.moves_crlf source⟩

/-! ### Methods -/

def Method.crlf (source : List Char) (method : Method) : Method :=
  { method with
    body := method.body.map (Text.crlfByte source)
    docs := method.docs.map Text.crlfString }

theorem Token.joined_crlf (tokens : List Token) :
    joined (tokens.map crlf) = Text.crlfString (joined tokens) := by
  have hcons : ∀ (token : Token) (rest : List Token),
      joined (token :: rest) = token.text ++ joined rest := fun _ _ ↦ String.join_cons
  induction tokens with
  | nil => rfl
  | cons token rest ih => rw [List.map_cons, hcons, hcons, Text.crlfString_append, ih, crlf]

theorem Header.row_crlf (header : Header) :
    row (header.map (Piece.map Token.crlf)) = row header := by
  cases header with
  | nil => rfl
  | cons piece rest => cases piece <;> rfl

namespace Structure

section Structure

variable {source : List Char} (hreturn : '\r' ∉ source)
  (hends : ∀ lexeme ∈ Lexeme.ofChars source, lexeme.kind = .directive →
    Directive.EndsLine lexeme.chars)
include hreturn hends

theorem spaceNames_crlf : (ofSource (Text.crlf source)).spaceNames =
    (ofSource source).spaceNames.map Text.crlfString := by
  have hnames : (ofSource source).spaceNames =
    (Outline.ofSource source).spaceTokens.map Token.joined := Outline.spaceNames_eq _
  rw [(recast_crlf hreturn hends).spaceNames_eq, hnames, List.map_map]
  exact List.map_congr_left fun tokens _ ↦ Token.joined_crlf tokens

theorem imports_crlf : (ofSource (Text.crlf source)).imports =
    (ofSource source).imports.map Text.crlfString := by
  have hnames : (ofSource source).imports =
    (Outline.ofSource source).importTokens.map Token.joined := Outline.imports_eq _
  rw [(recast_crlf hreturn hends).imports_eq, hnames, List.map_map]
  exact List.map_congr_left fun tokens _ ↦ Token.joined_crlf tokens

theorem methods_crlf : (ofSource (Text.crlf source)).methods =
    (ofSource source).methods.map (Method.crlf source) := by
  rw [(recast_crlf hreturn hends).methods_eq, methods_eq_sites, List.map_filterMap]
  refine List.filterMap_congr fun site _ ↦ ?_
  cases hmethod : site.method? with
  | none => rfl
  | some method =>
    obtain ⟨hline, hdocs⟩ := Site.method?_eq_some hmethod
    rw [Option.map_some, Option.map_some, Header.row_crlf, ← hline, Method.crlf, hdocs,
      List.map_map]
    rfl

end Structure

end Structure

/-! ### Documentation -/

theorem eq_cons_of_after? {p : Char} {pattern cs : List Char}
    (hafter : Text.after? (p :: pattern) cs ≠ none) :
    ∃ rest, cs = p :: rest ∧ Text.after? pattern rest ≠ none := by
  cases cs with
  | nil => exact absurd rfl hafter
  | cons c rest =>
    rw [Text.after?] at hafter
    split at hafter
    · rename_i hc
      exact ⟨rest, by rw [hc], hafter⟩
    · exact absurd rfl hafter

theorem Lexeme.take_line {rest : List Char} (hhead : rest.head? = some '/') :
    rest.take (measure '/' rest).2 = rest.takeWhile (!isLineEnd ·) := by
  rw [measure_eq, if_neg (by decide), if_neg (by decide), if_neg (by decide), if_pos ⟨rfl, hhead⟩]
  exact (List.prefix_iff_eq_take.mp (List.takeWhile_prefix _)).symm

theorem Lexeme.take_block (inner : List Char) :
    ('*' :: inner).take (measure '/' ('*' :: inner)).2 = '*' :: inner.take (noteLength inner) := by
  rw [measure_eq, if_neg (by decide), if_neg (by decide), if_neg (by decide),
    if_neg (fun hline ↦ absurd hline.2 (by simp)), if_pos ⟨rfl, rfl⟩, Nat.add_comm,
    List.take_succ_cons]
  rfl

/-- A token that starts like a comment up to the line end holds no line feed. -/
theorem Token.notMem_of_line {source : List Char} {token : Token}
    (htoken : token ∈ Token.ofSource source)
    (hline : Text.after? "///".toList token.text.toList ≠ none) : '\n' ∉ token.text.toList := by
  obtain ⟨front, lexeme, back, hsource, rfl⟩ := Token.mem_ofSource htoken
  obtain ⟨c, rest, -, hchars⟩ :=
    Lexeme.exists_measure (by simp [hsource] : lexeme ∈ Lexeme.ofChars source)
  change '\n' ∉ lexeme.chars
  change Text.after? ['/', '/', '/'] lexeme.chars ≠ none at hline
  rw [hchars] at hline ⊢
  obtain ⟨_, hcons, hbehind⟩ := eq_cons_of_after? hline
  obtain ⟨rfl, rfl⟩ := List.cons.inj hcons
  obtain ⟨inner, hinner, -⟩ := eq_cons_of_after? hbehind
  have hhead : rest.head? = some '/' := by
    cases rest with
    | nil => simp at hinner
    | cons d others =>
      have htake := congrArg List.head? hinner
      rw [List.head?_take] at htake
      split at htake
      · contradiction
      · exact htake
  rw [Lexeme.take_line hhead, List.mem_cons, not_or]
  exact ⟨by decide, fun hmem ↦ absurd (List.mem_takeWhile_imp hmem) (by decide)⟩

theorem Token.head?_of_isDoc {token : Token} (hdoc : token.isDoc = true) :
    token.text.toList.head? = some '/' := by
  rw [isDoc, Bool.or_eq_true, List.isPrefixOf_iff_prefix, List.isPrefixOf_iff_prefix] at hdoc
  obtain ⟨rest, hrest⟩ | ⟨rest, hrest⟩ := hdoc <;> rw [← hrest] <;> rfl

theorem Token.mem_of_mem_text {source : List Char} {token : Token}
    (htoken : token ∈ Token.ofSource source) {c : Char} (hc : c ∈ token.text.toList) : c ∈ source := by
  obtain ⟨front, lexeme, back, hsource, rfl⟩ := Token.mem_ofSource htoken
  rw [← Lexeme.flatMap_chars_ofChars source, hsource]
  exact List.mem_flatMap.mpr ⟨lexeme, by simp, hc⟩

/-- The documentation of a method is that of documentation comments in the source. -/
theorem Structure.exists_doc {source : List Char} {method : Method}
    (hmethod : method ∈ (ofSource source).methods) {comment : String}
    (hcomment : comment ∈ method.docs) :
    ∃ token ∈ Token.ofSource source, token.isDoc = true ∧ comment = token.text := by
  obtain ⟨site, hfound, hall⟩ := exists_site hmethod
  rw [(Site.method?_eq_some hfound).2] at hcomment
  obtain ⟨token, htoken, rfl⟩ := List.mem_map.mp hcomment
  obtain ⟨hmem, hdoc⟩ := hall.docs token htoken
  exact ⟨token, hmem, hdoc, rfl⟩

end Source

end Conform
