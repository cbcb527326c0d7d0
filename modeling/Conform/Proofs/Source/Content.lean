import Conform.Proofs.Source.Form
import Conform.Proofs.Source.Origin

/-!
Sources with another content in a token. A slot is a token of a source without its content, of one of
the forms whose content is no code. Whatever content is put into it, the tokens of the source are read
alike (`Slot.recast`), so the source tells the same but for places and for the text of the content
(`Structure.ofSource_slot`). That text is told if a directive behind the name of a using directive
has it, which is taken for the name.
-/

set_option autoImplicit false

namespace Conform.Source

/-! ### Tokens of a form -/

namespace Form

variable {form : Form} {content old new behind : List Char}

/-- A content that is admitted documents nothing. -/
theorem isDoc_eq_false (hcontent : form.Admits content behind) (place : Place) :
    ((form.lexeme content).at place).isDoc = false := by
  have htext : ((form.lexeme content).at place).text.toList = form.chars content :=
    String.toList_ofList
  rw [Token.isDoc, htext]
  cases form with
  | raw quotes mark =>
    obtain ⟨more, rfl⟩ : ∃ more, quotes = more + 1 := ⟨quotes - 1, by have := hcontent.1; omega⟩
    rfl
  | lineNote =>
    cases content with
    | nil => rfl
    | cons c rest =>
      have hslash : c ≠ '/' := fun heq ↦ hcontent.1 (heq ▸ rfl)
      simp [chars, lead, List.isPrefixOf, hslash.symm]
  | blockNote =>
    cases content with
    | nil => exact absurd rfl hcontent.1
    | cons c rest =>
      have hstar : c ≠ '*' := fun heq ↦ hcontent.2.1 (heq ▸ rfl)
      simp [chars, lead, List.isPrefixOf, hstar.symm]
  | _ => rfl

theorem glance_lexeme (hcontent : form.Admits content behind) (hkind : form.kind = .literal) :
    glance (form.lexeme content).text = String.ofList (form.lead.take 1) := by
  have htext : (form.lexeme content).text.toList = form.chars content := String.toList_ofList
  cases form with
  | character => exact glance_of_opensLiteral htext rfl
  | string => exact glance_of_opensLiteral htext rfl
  | verbatim => exact glance_of_opensLiteral htext rfl
  | raw quotes mark =>
    obtain ⟨more, rfl⟩ : ∃ more, quotes = more + 1 := ⟨quotes - 1, by have := hcontent.1; omega⟩
    exact glance_of_opensLiteral htext rfl
  | _ => contradiction

/-- Tokens of one form are read alike. -/
theorem alike {other : List Char} (hold : form.Admits old behind) (hnew : form.Admits new other)
    (place : Place) : ((form.lexeme old).at place).Alike ((form.lexeme new).at place) where
  kind_eq := rfl
  text_eq hkind := by
    change form.kind = .word ∨ form.kind = .mark at hkind
    cases form <;> simp [kind] at hkind
  glance_eq hkind := (glance_lexeme hnew hkind).trans (glance_lexeme hold hkind).symm
  role_eq hkind := by
    change form.kind = .directive at hkind
    cases form with
    | directive head =>
      have hname : ∀ content, (((directive head).lexeme content).at place).text.toList.drop 1 =
          head ++ content := fun content ↦ by
        simp [Lexeme.at, lexeme, chars, lead, trail]
      rw [Token.role, Token.role, hname, hname, hold.1, hnew.1]
    | _ => contradiction
  isDoc_eq := (isDoc_eq_false hnew place).trans (isDoc_eq_false hold place).symm

end Form

/-! ### Tokens behind it -/

/-- The token that is as far behind a target as a token is behind an origin. -/
def Token.carry (origin target : Place) (token : Token) : Token :=
  { token with
    start := token.start + target.byte - origin.byte
    row := token.row + target.row - origin.row }

theorem Token.place_carry (origin target : Place) (bytes rows : Nat) (lexemes : List Lexeme) :
    (place (origin.byte + bytes) (origin.row + rows) lexemes).map (carry origin target) =
      place (target.byte + bytes) (target.row + rows) lexemes := by
  induction lexemes generalizing bytes rows with
  | nil => rfl
  | cons lexeme rest ih =>
    have hbyte : origin.byte + bytes + target.byte - origin.byte = target.byte + bytes := by omega
    have hrow : origin.row + rows + target.row - origin.row = target.row + rows := by omega
    rw [place, place, List.map_cons, Nat.add_assoc origin.byte, Nat.add_assoc origin.row, ih,
      ← Nat.add_assoc, ← Nat.add_assoc, carry, hbyte, hrow]

/-! ### Slots -/

/-- A token of a source without its content. -/
structure Slot where
  front : List Lexeme
  form : Form
  back : List Lexeme

namespace Slot

variable (slot : Slot)

/-- The text behind the token. -/
def behind : List Char :=
  slot.back.flatMap Lexeme.chars

def lexemes (content : List Char) : List Lexeme :=
  slot.front ++ slot.form.lexeme content :: slot.back

def source (content : List Char) : List Char :=
  (slot.lexemes content).flatMap Lexeme.chars

def place : Place :=
  ({} : Place).after (slot.front.flatMap Lexeme.chars)

def token (content : List Char) : Token :=
  (slot.form.lexeme content).at slot.place

/-- The place behind the token. -/
def stop (content : List Char) : Place :=
  slot.place.after (slot.form.chars content)

/-- Whether a content makes the token that the slot is for. -/
structure Holds (content : List Char) : Prop where
  reads : Lexeme.ofChars (slot.source content) = slot.lexemes content
  admits : slot.form.Admits content slot.behind

/-- The token of the source with a new content that a token of the source with the old one comes
to. -/
def exchange (old new : List Char) (token : Token) : Token :=
  if token = slot.token old then slot.token new
  else if token.start < slot.place.byte then token
  else token.carry (slot.stop old) (slot.stop new)

/-- The byte of the source with a new content that a byte outside the old one comes to. -/
def move (old new : List Char) (byte : Nat) : Nat :=
  if byte ≤ slot.place.byte then byte else byte + (slot.stop new).byte - (slot.stop old).byte

/-- Whether the token stands in no name of a namespace or of a using directive. -/
structure IsApart (content : List Char) : Prop where
  spaces : ∀ tokens ∈ (Outline.ofSource (slot.source content)).spaceTokens,
    slot.token content ∉ tokens
  imports : ∀ pieces ∈ (Outline.ofSource (slot.source content)).importPieces,
    slot.token content ∉ Header.writtenTokens pieces

instance (content : List Char) : Decidable (slot.Holds content) :=
  decidable_of_iff (Lexeme.ofChars (slot.source content) = slot.lexemes content ∧
    slot.form.Admits content slot.behind) ⟨fun h ↦ ⟨h.1, h.2⟩, fun h ↦ ⟨h.reads, h.admits⟩⟩

instance (content : List Char) : Decidable (slot.IsApart content) :=
  decidable_of_iff ((∀ tokens ∈ (Outline.ofSource (slot.source content)).spaceTokens,
      slot.token content ∉ tokens) ∧
    ∀ pieces ∈ (Outline.ofSource (slot.source content)).importPieces,
      slot.token content ∉ Header.writtenTokens pieces)
    ⟨fun h ↦ ⟨h.1, h.2⟩, fun h ↦ ⟨h.spaces, h.imports⟩⟩

variable {slot} {old new content : List Char}

theorem Holds.replace (hold : slot.Holds old) (hnew : slot.form.Admits new slot.behind) :
    slot.Holds new := by
  refine ⟨?_, hnew⟩
  have hsource : slot.source new =
      slot.front.flatMap Lexeme.chars ++ (slot.form.chars new ++ slot.behind) := by
    simp [source, lexemes, behind, Form.lexeme, Lexeme.chars]
  rw [hsource]
  exact Form.ofChars_replace hold.reads hold.admits hnew

theorem Holds.ofSource_eq (hcontent : slot.Holds content) :
    Token.ofSource (slot.source content) = Token.place 0 0 slot.front ++ slot.token content ::
      Token.place (slot.stop content).byte (slot.stop content).row slot.back := by
  have htext : (slot.form.lexeme content).text.toList = slot.form.chars content :=
    String.toList_ofList
  have hplace := Token.place_append {} slot.front (slot.form.lexeme content :: slot.back)
  rw [Token.place, htext] at hplace
  rw [Token.ofSource, hcontent.reads]
  exact hplace

theorem byte_lt_stop (hcontent : slot.Holds content) :
    slot.place.byte < (slot.stop content).byte := by
  obtain ⟨c, rest, hchars, -⟩ := Form.exists_measure hcontent.admits
  exact Place.byte_lt_after _ (by rw [hchars]; exact List.cons_ne_nil c rest)

/-- The tokens of a source are before the slot, in it or behind it. -/
theorem Holds.cases_token (hold : slot.Holds old) {token : Token}
    (htoken : token ∈ Token.ofSource (slot.source old)) :
    (token.start < slot.place.byte ∧ token.stop ≤ slot.place.byte) ∨ token = slot.token old ∨
      (slot.stop old).byte ≤ token.start ∧ token.start < token.stop := by
  have hlong := Token.start_lt_stop htoken
  rw [hold.ofSource_eq, List.mem_append, List.mem_cons] at htoken
  rcases htoken with hfront | rfl | hback
  · have hbounds := @Token.place_bounds {} _ _ hfront
    exact .inl ⟨hlong.trans_le hbounds.2.2, hbounds.2.2⟩
  · exact .inr (.inl rfl)
  · exact .inr (.inr ⟨(Token.place_bounds hback).1, hlong⟩)

theorem exchange_token : slot.exchange old new (slot.token old) = slot.token new :=
  if_pos rfl

theorem exchange_before {token : Token} (hstart : token.start < slot.place.byte) :
    slot.exchange old new token = token := by
  have hne : token ≠ slot.token old := by
    rintro rfl
    exact Nat.lt_irrefl _ hstart
  rw [exchange, if_neg hne, if_pos hstart]

theorem exchange_behind (hold : slot.Holds old) {token : Token}
    (hstart : (slot.stop old).byte ≤ token.start) :
    slot.exchange old new token = token.carry (slot.stop old) (slot.stop new) := by
  have hstop := (byte_lt_stop hold).trans_le hstart
  have hne : token ≠ slot.token old := by
    rintro rfl
    exact Nat.lt_irrefl _ hstop
  rw [exchange, if_neg hne, if_neg hstop.not_gt]

theorem text_exchange {token : Token} (hne : token ≠ slot.token old) :
    (slot.exchange old new token).text = token.text := by
  rw [exchange, if_neg hne]
  split <;> rfl

theorem map_exchange (hold : slot.Holds old) (hnew : slot.form.Admits new slot.behind) :
    Token.ofSource (slot.source new) =
      (Token.ofSource (slot.source old)).map (slot.exchange old new) := by
  have hfront : (Token.place 0 0 slot.front).map (slot.exchange old new) =
      Token.place 0 0 slot.front := by
    refine (List.map_congr_left fun token htoken ↦ ?_).trans (List.map_id _)
    have hmem : token ∈ Token.ofSource (slot.source old) := by
      rw [hold.ofSource_eq]
      exact List.mem_append_left _ htoken
    have hbounds := @Token.place_bounds {} _ _ htoken
    exact exchange_before ((Token.start_lt_stop hmem).trans_le hbounds.2.2)
  have hback : (Token.place (slot.stop old).byte (slot.stop old).row slot.back).map
      (slot.exchange old new) =
        Token.place (slot.stop new).byte (slot.stop new).row slot.back := by
    have hcarry := Token.place_carry (slot.stop old) (slot.stop new) 0 0 slot.back
    simp only [Nat.add_zero] at hcarry
    rw [← hcarry]
    exact List.map_congr_left fun token htoken ↦
      exchange_behind hold (Token.place_bounds htoken).1
  rw [hold.ofSource_eq, (hold.replace hnew).ofSource_eq, List.map_append, List.map_cons,
    exchange_token, hfront, hback]

theorem alike_exchange (hold : slot.Holds old) (hnew : slot.form.Admits new slot.behind)
    {token : Token} (htoken : token ∈ Token.ofSource (slot.source old)) :
    token.Alike (slot.exchange old new token) := by
  rcases hold.cases_token htoken with ⟨hstart, -⟩ | rfl | ⟨hstart, -⟩
  · rw [exchange_before hstart]
    exact ⟨rfl, fun _ ↦ rfl, fun _ ↦ rfl, fun _ ↦ rfl, rfl⟩
  · rw [exchange_token]
    exact Form.alike hold.admits hnew slot.place
  · rw [exchange_behind hold hstart]
    exact ⟨rfl, fun _ ↦ rfl, fun _ ↦ rfl, fun _ ↦ rfl, rfl⟩

theorem token_bounds (content : List Char) : (slot.token content).start = slot.place.byte ∧
    (slot.token content).stop = (slot.stop content).byte := by
  refine ⟨rfl, ?_⟩
  rw [token, Lexeme.stop_at, Lexeme.chars, Form.lexeme, String.toList_ofList, stop]

theorem moves_exchange (hold : slot.Holds old) :
    Forest.Moves (slot.exchange old new) (slot.move old new) (Token.ofSource (slot.source old)) := by
  intro token htoken
  have hlong := byte_lt_stop hold
  unfold move
  rcases hold.cases_token htoken with ⟨hstart, hstop⟩ | rfl | ⟨hstart, hstop⟩
  · rw [exchange_before hstart, if_pos hstart.le, if_pos hstop]
    exact ⟨rfl, rfl⟩
  · obtain ⟨hstartOld, hstopOld⟩ := @token_bounds slot old
    obtain ⟨hstartNew, hstopNew⟩ := @token_bounds slot new
    rw [exchange_token, hstartOld, hstopOld, hstartNew, hstopNew, if_pos (Nat.le_refl _),
      if_neg (by omega)]
    exact ⟨rfl, by omega⟩
  · rw [exchange_behind hold hstart, if_neg (by omega), if_neg (by omega)]
    refine ⟨rfl, ?_⟩
    unfold Token.stop Token.carry at *
    dsimp only at *
    omega

/-- With another content the tokens of a source are read alike. -/
theorem recast (hold : slot.Holds old) (hnew : slot.form.Admits new slot.behind) :
    Recast (slot.source old) (slot.source new) (slot.exchange old new) (slot.move old new) :=
  ⟨map_exchange hold hnew, fun _ ↦ alike_exchange hold hnew, moves_exchange hold⟩

end Slot

/-! ### What the source tells -/

/-- A body without its places: its kind, and whether a block has statements. -/
def Body.bare (body : Body) : Body :=
  body.map fun _ ↦ 0

/-- A method without its places. -/
def Method.bare (method : Method) : Method :=
  { method with line := 0, body := method.body.bare }

theorem Body.bare_map (move : Nat → Nat) (body : Body) : (body.map move).bare = body.bare := by
  cases body with
  | block span statements => cases statements <;> rfl
  | _ => rfl

namespace Structure

variable {slot : Slot} {old new : List Char}

theorem joined_exchange {tokens : List Token} (htokens : slot.token old ∉ tokens) :
    Token.joined (tokens.map (slot.exchange old new)) = Token.joined tokens := by
  rw [Token.joined, Token.joined, List.map_map]
  refine congrArg String.join (List.map_congr_left fun token htoken ↦ ?_)
  exact Slot.text_exchange (ne_of_mem_of_not_mem htoken htokens)

/-- The token is read as a target only if it is a directive, and then alone. -/
theorem joined_exchange_lastTokens {pieces : List Piece}
    (hname : slot.token old ∉ Header.writtenTokens pieces) :
    Token.joined ((Header.lastTokens pieces).map (slot.exchange old new)) =
      if Header.lastTokens pieces = [slot.token old] then (slot.token new).text
      else Token.joined (Header.lastTokens pieces) := by
  split
  · rename_i hlast
    rw [hlast, List.map_singleton, Slot.exchange_token]
    simp [Token.joined, String.join]
  · rename_i hlast
    refine joined_exchange fun hmem ↦ ?_
    rcases Header.lastTokens_cases pieces with hwritten | ⟨directive, -, -, hdirective⟩
    · exact hname (hwritten ▸ hmem)
    · rw [hdirective, List.mem_singleton] at hmem
      exact hlast (hmem ▸ hdirective)

theorem kind_of_lastTokens {pieces : List Piece}
    (hname : slot.token old ∉ Header.writtenTokens pieces)
    (hlast : Header.lastTokens pieces = [slot.token old]) : slot.form.kind = .directive := by
  rcases Header.lastTokens_cases pieces with hwritten | ⟨directive, -, hkind, hdirective⟩
  · rw [← hwritten, hlast] at hname
    exact absurd (List.mem_singleton_self _) hname
  · obtain rfl := List.singleton_inj.mp (hdirective.symm.trans hlast)
    exact hkind

theorem methods_slot (hold : slot.Holds old) (hnew : slot.form.Admits new slot.behind) :
    (ofSource (slot.source new)).methods.map Method.bare =
      (ofSource (slot.source old)).methods.map Method.bare := by
  have hrecast := Slot.recast hold hnew
  have hall := Recast.all_ofSource _ hrecast.alike_within (slot.source old)
  rw [hrecast.methods_eq, methods_eq_sites, List.map_filterMap, List.map_filterMap]
  refine List.filterMap_congr fun site hsite ↦ ?_
  have hdocs : (site.docs.map fun token ↦ (slot.exchange old new token).text) =
      site.docs.map Token.text := by
    refine List.map_congr_left fun token htoken ↦ Slot.text_exchange ?_
    rintro rfl
    have hdoc := ((hall.sites false (by simp) site hsite).docs _ htoken).2
    exact absurd hdoc (by rw [Slot.token, Form.isDoc_eq_false hold.admits]; decide)
  cases hmethod : site.method? with
  | none => rfl
  | some method =>
    rw [Option.map_some, Option.map_some, Option.map_some, hdocs, Method.bare, Method.bare,
      Body.bare_map, (Site.method?_eq_some hmethod).2]

/-- Assumes: a source with a content of a slot in no name of a namespace or of a using directive, and
another content that the slot admits. Of the texts of a directive those are not admitted that take in
what stands behind them: with a block comment left open, or with a backslash or a slash at the end.
With the other content the source has the same namespaces and, but for their places, the same methods.
It has the same using directives; the target of each is the same, unless it is read from the token
alone, which is then a directive behind the name. -/
theorem ofSource_slot (hold : slot.Holds old) (hnew : slot.form.Admits new slot.behind)
    (hapart : slot.IsApart old) :
    (ofSource (slot.source new)).spaceNames = (ofSource (slot.source old)).spaceNames ∧
    (ofSource (slot.source new)).methods.map Method.bare =
      (ofSource (slot.source old)).methods.map Method.bare ∧
    (ofSource (slot.source new)).imports =
      (Outline.ofSource (slot.source old)).importPieces.map (fun pieces ↦
        if Header.lastTokens pieces = [slot.token old] then (slot.token new).text
        else Token.joined (Header.lastTokens pieces)) ∧
    (slot.form.kind ≠ .directive →
      (ofSource (slot.source new)).imports = (ofSource (slot.source old)).imports) := by
  have hrecast := Slot.recast hold hnew
  have hnames : (ofSource (slot.source old)).spaceNames =
    (Outline.ofSource (slot.source old)).spaceTokens.map Token.joined := Outline.spaceNames_eq _
  have htargets : (ofSource (slot.source old)).imports =
    (Outline.ofSource (slot.source old)).importTokens.map Token.joined := Outline.imports_eq _
  have himports : (ofSource (slot.source new)).imports =
      (Outline.ofSource (slot.source old)).importPieces.map (fun pieces ↦
        if Header.lastTokens pieces = [slot.token old] then (slot.token new).text
        else Token.joined (Header.lastTokens pieces)) := by
    rw [hrecast.imports_eq, Outline.importTokens, List.map_map]
    exact List.map_congr_left fun pieces hpieces ↦
      joined_exchange_lastTokens (hapart.imports pieces hpieces)
  refine ⟨?_, methods_slot hold hnew, himports, fun hkind ↦ ?_⟩
  · rw [hrecast.spaceNames_eq, hnames]
    exact List.map_congr_left fun tokens htokens ↦ joined_exchange (hapart.spaces tokens htokens)
  · rw [himports, htargets, Outline.importTokens, List.map_map]
    refine List.map_congr_left fun pieces hpieces ↦ if_neg fun hlast ↦ hkind ?_
    exact kind_of_lastTokens (hapart.imports pieces hpieces) hlast

/-- A string that looks like code, in a method before another one. -/
theorem ofSource_slot_string :
    let slot : Slot :=
      { front := Lexeme.ofChars "using A; class C \x7b void F() \x7b x(".toList
        form := .string []
        back := Lexeme.ofChars "); \x7d void G(); \x7d".toList }
    let old := "a".toList
    let new := "\x7d // using B; /*".toList
    slot.Holds old ∧ slot.form.Admits new slot.behind ∧ slot.IsApart old ∧
      (Structure.ofSource (slot.source new)).imports = ["A"] ∧
      (Structure.ofSource (slot.source new)).methods.map Method.bare =
        [⟨"F", 0, .block ⟨0, 0⟩ (some ⟨0, 0⟩), []⟩, ⟨"G", 0, .missing, []⟩] := by
  intro slot old new
  have hold : slot.Holds old := by decide +kernel
  have hnew : slot.form.Admits new slot.behind := by decide +kernel
  have hapart : slot.IsApart old := by decide +kernel
  obtain ⟨-, hmethods, -, himports⟩ := ofSource_slot hold hnew hapart
  refine ⟨hold, hnew, hapart, ?_, ?_⟩
  · rw [himports (by decide)]
    decide +kernel
  · rw [hmethods]
    decide +kernel

/-- A directive behind the name of a using directive is taken for the name. -/
theorem imports_pragma :
    let slot : Slot :=
      { front := Lexeme.ofChars "using A.B\n".toList
        form := .directive "pragma".toList
        back := Lexeme.ofChars ";".toList }
    let old := " warning disable 1\n".toList
    let new := " warning disable 2\n".toList
    slot.Holds old ∧ slot.Holds new ∧ slot.IsApart old ∧
      (Structure.ofSource (slot.source old)).imports = ["#pragma warning disable 1\n"] ∧
      (Structure.ofSource (slot.source new)).imports = ["#pragma warning disable 2\n"] := by
  decide +kernel

end Structure

end Conform.Source
