import Conform.Proofs.Source.Glance
import Conform.Source.Method

/-!
Reading tokens that have been changed. A change of tokens keeps them alike if it keeps what reading
goes by: the kind of a token, the text of a word or a mark, how a literal starts, what a directive
does and whether a comment documents something (`Token.Alike`). Then reading commutes with the change
(`Outline.read_map`): the changed tokens are read as the same declarations, each with its changed
tokens. What a source tells is given by the tokens that tell it, in `Outline.spaceTokens`,
`Outline.importTokens` and `Outline.sites`, and these commute with the change too.
-/

set_option autoImplicit false

namespace Conform

/-- A span with its bounds moved. -/
def Span.map (move : Nat → Nat) (span : Span) : Span :=
  ⟨move span.start, move span.stop⟩

namespace Source

/-! ### Tokens -/

/-- A token and one that is read in its place. -/
structure Token.Alike (token image : Token) : Prop where
  kind_eq : image.kind = token.kind
  text_eq : token.kind = .word ∨ token.kind = .mark → image.text = token.text
  glance_eq : token.kind = .literal → glance image.text = glance token.text
  role_eq : token.kind = .directive → image.role = token.role
  isDoc_eq : image.isDoc = token.isDoc

namespace Token.Alike

variable {token image : Token} (halike : token.Alike image)
include halike

theorem isTrivia_eq : image.isTrivia = token.isTrivia := by
  rw [isTrivia, halike.kind_eq, isTrivia]

/-- The text of a token counts if it is a word or a mark. -/
theorem kind_and_eq {kind : Lexeme.Kind} (hkind : kind = .word ∨ kind = .mark)
    (test : String → Bool) :
    (token.kind == kind && test image.text) = (token.kind == kind && test token.text) := by
  by_cases hsame : token.kind = kind
  · rw [halike.text_eq (hsame ▸ hkind)]
  · rw [beq_eq_false_iff_ne.mpr hsame, Bool.false_and, Bool.false_and]

theorem isWord_eq (text : String) : image.isWord text = token.isWord text := by
  rw [isWord, halike.kind_eq]
  exact halike.kind_and_eq (.inl rfl) (· == text)

theorem isMark_eq (text : String) : image.isMark text = token.isMark text := by
  rw [isMark, halike.kind_eq]
  exact halike.kind_and_eq (.inr rfl) (· == text)

theorem isNumber_eq : image.isNumber = token.isNumber := by
  rw [isNumber, halike.kind_eq]
  exact halike.kind_and_eq (.inl rfl) fun text ↦ (text.toList.head?.map Char.isDigit).getD false

theorem isOpening_eq : Forest.isOpening image = Forest.isOpening token := by
  simp only [Forest.isOpening, halike.isMark_eq]

theorem isClosing_eq : Forest.isClosing image = Forest.isClosing token := by
  simp only [Forest.isClosing, halike.isMark_eq]

theorem isTypePart_eq : Forest.isTypePart image = Forest.isTypePart token := by
  have hwords := halike.kind_and_eq (.inl rfl) fun text ↦
    !token.isNumber && !Keyword.values.contains text && !Keyword.leading.contains text
  simp only [Forest.isTypePart, halike.isTrivia_eq, halike.isMark_eq, halike.isNumber_eq,
    halike.kind_eq, List.any_cons, List.any_nil]
  simp only [Bool.and_assoc] at hwords ⊢
  rw [hwords]

/-- Tokens that count look the same from the word before them. -/
theorem glance_text (htrivia : token.isTrivia = false) : glance image.text = glance token.text := by
  cases hkind : token.kind with
  | word => rw [halike.text_eq (.inl hkind)]
  | mark => rw [halike.text_eq (.inr hkind)]
  | literal => exact halike.glance_eq hkind
  | _ => simp [isTrivia, hkind] at htrivia

end Token.Alike

/-- A change of some tokens that leaves all others as they are. -/
def Token.within (tokens : List Token) (f : Token → Token) (token : Token) : Token :=
  if token ∈ tokens then f token else token

namespace Token

variable {tokens : List Token} {f : Token → Token}

theorem within_of_mem {token : Token} (htoken : token ∈ tokens) : within tokens f token = f token :=
  if_pos htoken

theorem map_within : tokens.map (within tokens f) = tokens.map f :=
  List.map_congr_left fun _ htoken ↦ within_of_mem htoken

theorem alike_within (hf : ∀ token ∈ tokens, token.Alike (f token)) (token : Token) :
    token.Alike (within tokens f token) := by
  unfold within
  split
  · exact hf token ‹_›
  · exact ⟨rfl, fun _ ↦ rfl, fun _ ↦ rfl, fun _ ↦ rfl, rfl⟩

end Token

/-! ### Forests -/

namespace Forest

def map (f : Token → Token) : Forest → Forest
  | empty => empty
  | leaf token rest => leaf (f token) (rest.map f)
  | group opening inner closing rest =>
    group (f opening) (inner.map f) (closing.map f) (rest.map f)

/-- Whether a change of tokens keeps the texts that the groups open with. -/
def KeepsOpenings (f : Token → Token) : Forest → Prop
  | empty => True
  | leaf _ rest => rest.KeepsOpenings f
  | group opening inner _ rest =>
    (f opening).text = opening.text ∧ inner.KeepsOpenings f ∧ rest.KeepsOpenings f

variable {f : Token → Token}

theorem keepsOpenings_of_text (htext : ∀ token, (f token).text = token.text) (forest : Forest) :
    forest.KeepsOpenings f := by
  induction forest with
  | empty => trivial
  | leaf token rest ih => exact ih
  | group opening inner closing rest ihInner ihRest => exact ⟨htext opening, ihInner, ihRest⟩

theorem tokens_map (forest : Forest) : (forest.map f).tokens = forest.tokens.map f := by
  induction forest with
  | empty => rfl
  | leaf token rest ih => rw [map, tokens, ih, tokens, List.map_cons]
  | group opening inner closing rest ihInner ihRest =>
    cases closing <;> simp [map, tokens, ihInner, ihRest]

theorem append_map (forest other : Forest) :
    (forest.append other).map f = (forest.map f).append (other.map f) := by
  induction forest with
  | empty => rfl
  | leaf token rest ih => rw [append, map, ih, map, append]
  | group opening inner closing rest _ ih => rw [append, map, ih, map, append]

theorem KeepsOpenings.append {forest other : Forest} (hforest : forest.KeepsOpenings f)
    (hother : other.KeepsOpenings f) : (forest.append other).KeepsOpenings f := by
  induction forest with
  | empty => exact hother
  | leaf token rest ih => exact ih hforest
  | group opening inner closing rest _ ih => exact ⟨hforest.1, hforest.2.1, ih hforest.2.2⟩

/-- The rows that are pending behind closing brackets, changed. -/
def mapPending (f : Token → Token) (pending : List (Token × Forest)) : List (Token × Forest) :=
  pending.map fun (closing, behind) ↦ (f closing, behind.map f)

theorem settle_map (row : Forest) (pending : List (Token × Forest)) :
    (settle row pending).map f = settle (row.map f) (mapPending f pending) := by
  induction pending generalizing row with
  | nil => rfl
  | cons head rest ih =>
    obtain ⟨closing, behind⟩ := head
    rw [settle, ih, append_map]
    rfl

theorem keepsOpenings_settle {row : Forest} {pending : List (Token × Forest)}
    (hrow : row.KeepsOpenings f) (hpending : ∀ entry ∈ pending, entry.2.KeepsOpenings f) :
    (settle row pending).KeepsOpenings f := by
  induction pending generalizing row with
  | nil => exact hrow
  | cons head rest ih =>
    rw [List.forall_mem_cons] at hpending
    exact ih (hrow.append hpending.1) hpending.2

section Alike

variable (hf : ∀ token : Token, token.Alike (f token))
include hf

theorem grow_map (token : Token) (row : Forest) (pending : List (Token × Forest)) :
    grow (f token) (row.map f, mapPending f pending) =
      ((grow token (row, pending)).1.map f, mapPending f (grow token (row, pending)).2) := by
  simp only [grow, (hf token).isClosing_eq, (hf token).isOpening_eq]
  split
  · rfl
  · split
    · cases pending <;> rfl
    · rfl

/-- Changed tokens are nested as the tokens were. -/
theorem ofTokens_map (tokens : List Token) : ofTokens (tokens.map f) = (ofTokens tokens).map f := by
  have hgrowth : (tokens.map f).foldr grow (empty, []) =
      ((tokens.foldr grow (empty, [])).1.map f,
        mapPending f (tokens.foldr grow (empty, [])).2) := by
    induction tokens with
    | nil => rfl
    | cons token rest ih => rw [List.map_cons, List.foldr_cons, ih, grow_map hf, List.foldr_cons]
  simp only [ofTokens, hgrowth, settle_map]

theorem keepsOpenings_grow {token : Token} {row : Forest} {pending : List (Token × Forest)}
    (hrow : row.KeepsOpenings f) (hpending : ∀ entry ∈ pending, entry.2.KeepsOpenings f) :
    (grow token (row, pending)).1.KeepsOpenings f ∧
      ∀ entry ∈ (grow token (row, pending)).2, entry.2.KeepsOpenings f := by
  simp only [grow]
  split
  · exact ⟨trivial, List.forall_mem_cons.mpr ⟨hrow, hpending⟩⟩
  · split
    · rename_i hopening
      have hmark : token.kind = .mark := by
        simp only [isOpening, Token.isMark, Bool.or_eq_true, Bool.and_eq_true, beq_iff_eq]
          at hopening
        exact hopening.elim (·.elim And.left And.left) And.left
      have htext := (hf token).text_eq (.inr hmark)
      cases pending with
      | nil => exact ⟨⟨htext, hrow, trivial⟩, hpending⟩
      | cons head rest =>
        rw [List.forall_mem_cons] at hpending
        exact ⟨⟨htext, hrow, hpending.1⟩, hpending.2⟩
    · exact ⟨hrow, hpending⟩

theorem keepsOpenings_ofTokens (tokens : List Token) : (ofTokens tokens).KeepsOpenings f := by
  have hgrowth : (tokens.foldr grow (empty, [])).1.KeepsOpenings f ∧
      ∀ entry ∈ (tokens.foldr grow (empty, [])).2, entry.2.KeepsOpenings f := by
    induction tokens with
    | nil => exact ⟨trivial, by simp⟩
    | cons token rest ih => exact keepsOpenings_grow hf ih.1 ih.2
  exact keepsOpenings_settle hgrowth.1 hgrowth.2

/-! ### Signs and courses -/

theorem glance_firstText_map {forest : Forest} (hopens : forest.KeepsOpenings f) :
    glance (forest.map f).firstText = glance forest.firstText := by
  induction forest with
  | empty => rfl
  | leaf token rest ih =>
    rw [map, firstText, firstText, (hf token).isTrivia_eq]
    split
    · exact ih hopens
    · rename_i htrivia
      exact (hf token).glance_text (Bool.eq_false_iff.mpr htrivia)
  | group opening inner closing rest => exact congrArg glance hopens.1

theorem isType_map (forest : Forest) (inTuple : Bool) (angles : Nat) :
    (forest.map f).isType inTuple angles = forest.isType inTuple angles := by
  induction forest generalizing inTuple angles with
  | empty => rfl
  | leaf token rest ih =>
    simp only [map, isType, (hf token).isMark_eq, (hf token).isTypePart_eq, ih]
  | group opening inner closing rest ihInner ihRest =>
    simp only [map, isType, (hf opening).isMark_eq, ihInner, ihRest]

end Alike

end Forest

section Signs

variable {f : Token → Token} (hf : ∀ token : Token, token.Alike (f token))
include hf

theorem Sign.glance_ofToken_map (token : Token) {rest : Forest} (hrest : rest.KeepsOpenings f) :
    (ofToken (f token) (rest.map f)).glance = (ofToken token rest).glance := by
  have hnext := Forest.glance_firstText_map hf hrest
  cases hkind : token.kind with
  | word =>
    simp only [ofToken, (hf token).kind_eq, hkind, (hf token).isNumber_eq,
      (hf token).text_eq (.inl hkind)]
    split
    · rfl
    · rw [glance, glance, hnext]
  | mark =>
    simp only [ofToken, (hf token).kind_eq, hkind, (hf token).isClosing_eq,
      (hf token).text_eq (.inr hkind)]
  | directive => simp only [ofToken, (hf token).kind_eq, hkind, (hf token).role_eq hkind]
  | _ => simp only [ofToken, (hf token).kind_eq, hkind]

theorem Sign.ofGroup_map (opening : Token) {inner : Forest} (hinner : inner.KeepsOpenings f) :
    ofGroup (f opening) (inner.map f) = ofGroup opening inner := by
  have hempty : (inner.map f).firstText = "" ↔ inner.firstText = "" := by
    rw [← glance_eq_iff "" (by decide), Forest.glance_firstText_map hf hinner,
      glance_eq_iff "" (by decide)]
  simp only [ofGroup, (hf opening).isMark_eq, Forest.isType_map hf, ne_eq, hempty]

theorem Forest.joinsItem_map {forest : Forest} (hopens : forest.KeepsOpenings f) (course : Course)
    (depth : Nat) : (forest.map f).joinsItem course depth = forest.joinsItem course depth := by
  induction forest generalizing course depth with
  | empty => rfl
  | leaf token rest ih =>
    have hrest : rest.KeepsOpenings f := hopens
    have ihRest := fun course depth ↦ ih hrest course depth
    rcases Sign.eq_or_word_of_glance_eq (Sign.glance_ofToken_map hf token hrest) with
      hsign | ⟨text, next, behind, himage, hsign, hglance⟩
    · simp only [map, joinsItem, hsign, ihRest]
    · have hadvance : course.advance (.word text next) = course.advance (.word text behind) := by
        rw [← course.advance_glance, Sign.glance, hglance, ← Sign.glance, course.advance_glance]
      simp only [map, joinsItem, himage, hsign, hadvance, ihRest]
  | group opening inner closing rest _ ih =>
    simp only [map, joinsItem, Sign.ofGroup_map hf opening hopens.2.1, ih hopens.2.2]

theorem Course.step_rest_map (course : Course) (sign : Sign) {rest : Forest}
    (hrest : rest.KeepsOpenings f) : course.step sign (rest.map f) = course.step sign rest := by
  unfold step
  split
  · simp only [split, Forest.joinsItem_map hf hrest]
  all_goals rfl

theorem Course.step_leaf_map (course : Course) (token : Token) {rest : Forest}
    (hrest : rest.KeepsOpenings f) :
    course.step (Sign.ofToken (f token) (rest.map f)) (rest.map f) =
      course.step (Sign.ofToken token rest) rest := by
  rw [← step_glance, Sign.glance_ofToken_map hf token hrest, step_glance,
    step_rest_map hf course _ hrest]

theorem Course.step_group_map (course : Course) (opening : Token) {inner rest : Forest}
    (hinner : inner.KeepsOpenings f) (hrest : rest.KeepsOpenings f) :
    course.step (Sign.ofGroup (f opening) (inner.map f)) (rest.map f) =
      course.step (Sign.ofGroup opening inner) rest := by
  rw [Sign.ofGroup_map hf opening hinner, step_rest_map hf course _ hrest]

end Signs

/-! ### Blocks -/

namespace Forest

variable {f : Token → Token} {move : Nat → Nat}

/-- Whether a change of tokens moves the ends of tokens as given. -/
def Moves (f : Token → Token) (move : Nat → Nat) (tokens : List Token) : Prop :=
  ∀ token ∈ tokens, (f token).start = move token.start ∧ (f token).stop = move token.stop

theorem groupStop_map {opening : Token} {inner : Forest} {closing : Option Token}
    (hmoves : Moves f move (opening :: inner.tokens ++ closing.toList)) :
    groupStop (f opening) (inner.map f) (closing.map f) =
      move (groupStop opening inner closing) := by
  cases closing with
  | some closing => exact (hmoves closing (by simp)).2
  | none =>
    simp only [groupStop, Option.map_none, tokens_map, List.getLast?_map]
    cases hlast : inner.tokens.getLast? with
    | none => exact (hmoves opening (by simp)).2
    | some last => exact (hmoves last (by simp [List.mem_of_getLast? hlast])).2

section Alike

variable (hf : ∀ token : Token, token.Alike (f token))
include hf

theorem code_map {forest : Forest} (hopens : forest.KeepsOpenings f)
    (hmoves : Moves f move forest.tokens) (course : Course) :
    (forest.map f).code course = (forest.code course).map (Span.map move) := by
  induction forest generalizing course with
  | empty => rfl
  | leaf token rest ih =>
    have hrest : rest.KeepsOpenings f := hopens
    rw [Moves, tokens, List.forall_mem_cons] at hmoves
    simp only [map, code, Course.step_leaf_map hf course token hrest, ih hrest hmoves.2,
      (hf token).kind_eq, hmoves.1, apply_ite (List.map (Span.map move))]
    rfl
  | group opening inner closing rest _ ih =>
    have hgroup := groupStop_map fun token hmem ↦ hmoves token (List.mem_append_left _ hmem)
    simp only [map, code, Course.step_group_map hf course opening hopens.2.1 hopens.2.2,
      ih hopens.2.2 fun token hmem ↦ hmoves token (List.mem_append_right _ hmem), hgroup,
      (hmoves opening (by simp [tokens])).1, apply_ite (List.map (Span.map move))]
    rfl

theorem statements?_map {forest : Forest} (hopens : forest.KeepsOpenings f)
    (hmoves : Moves f move forest.tokens) :
    (forest.map f).statements? = forest.statements?.map (Span.map move) := by
  unfold statements?
  rw [code_map hf hopens hmoves]
  cases forest.code { content := .statements } with
  | nil => rfl
  | cons first rest => cases hlast : rest.getLast? <;> simp [hlast, Span.map]

end Alike

end Forest

/-! ### Headers -/

namespace Piece

def map (f : Token → Token) : Piece → Piece
  | token single => token (f single)
  | group opening inner closing => group (f opening) (inner.map f) (closing.map f)

variable {f : Token → Token}

theorem tokens_map (piece : Piece) : (piece.map f).tokens = piece.tokens.map f := by
  cases piece with
  | token single => rfl
  | group opening inner closing => cases closing <;> simp [map, tokens]

variable (hf : ∀ token : Token, token.Alike (f token))
include hf

theorem isTrivia_map (piece : Piece) : (piece.map f).isTrivia = piece.isTrivia := by
  cases piece with
  | token single => exact (hf single).isTrivia_eq
  | group => rfl

theorem isWord_map (text : String) (piece : Piece) :
    (piece.map f).isWord text = piece.isWord text := by
  cases piece with
  | token single => exact (hf single).isWord_eq text
  | group => rfl

theorem isMark_map (text : String) (piece : Piece) :
    (piece.map f).isMark text = piece.isMark text := by
  cases piece with
  | token single => exact (hf single).isMark_eq text
  | group => rfl

theorem word?_map (piece : Piece) : (piece.map f).word? = piece.word? := by
  cases piece with
  | token single =>
    simp only [map, word?, (hf single).kind_eq]
    split
    · rename_i hkind
      rw [(hf single).text_eq (.inl hkind)]
    · rfl
  | group => rfl

theorem isRound_map (piece : Piece) : (piece.map f).isRound = piece.isRound := by
  cases piece with
  | token => rfl
  | group opening => exact (hf opening).isMark_eq "("

theorem isSquare_map (piece : Piece) : (piece.map f).isSquare = piece.isSquare := by
  cases piece with
  | token => rfl
  | group opening => exact (hf opening).isMark_eq "["

end Piece

/-- The text that tokens are put together. -/
def Token.joined (tokens : List Token) : String :=
  String.join (tokens.map Token.text)

namespace Header

/-- The tokens of a row of pieces without the trivia at its two ends. -/
def writtenTokens (pieces : List Piece) : List Token :=
  ((pieces.dropWhile Piece.isTrivia).reverse.dropWhile Piece.isTrivia).reverse.flatMap Piece.tokens

/-- The tokens that the name of a namespace is read from. -/
def spaceTokens? (header : Header) : Option (List Token) :=
  if startsWith "namespace" (core header) then (afterWord? "namespace" header).map writtenTokens
  else none

theorem spaceName?_eq (header : Header) :
    spaceName? header = (spaceTokens? header).map Token.joined := by
  unfold spaceName? spaceTokens?
  split
  · rw [Option.map_map]
    rfl
  · rfl

def lineDirectiveToken? : Piece → Option Token
  | .token single => if single.kind = .directive ∧ single.role = .line then some single else none
  | .group .. => none

/-- The tokens that the last thing named is read from. -/
def lastTokens (pieces : List Piece) : List Token :=
  (((pieces.reverse.takeWhile Piece.isTrivia).findSome? lineDirectiveToken?).map ([·])).getD
    (writtenTokens pieces)

theorem lineDirective?_eq (piece : Piece) :
    lineDirective? piece = (lineDirectiveToken? piece).map Token.text := by
  cases piece with
  | token single =>
    rw [lineDirective?, lineDirectiveToken?]
    split <;> rfl
  | group => rfl

theorem lastNamed_eq (pieces : List Piece) : lastNamed pieces = Token.joined (lastTokens pieces) := by
  have hfound : ∀ pieces : List Piece, pieces.findSome? lineDirective? =
      (pieces.findSome? lineDirectiveToken?).map Token.text := by
    intro pieces
    rw [List.map_findSome?]
    exact congrArg (List.findSome? · pieces) (funext lineDirective?_eq)
  rw [lastNamed, lastTokens, hfound]
  cases (pieces.reverse.takeWhile Piece.isTrivia).findSome? lineDirectiveToken? with
  | none => rfl
  | some token => simp [Token.joined, String.join]

/-- The pieces that the target of a using directive is named in, behind its modifiers. -/
def importPieces? (header : Header) : Option (List Piece) :=
  if isUsing header then do
    let pieces := ((← afterWord? "using" header).dropWhile isUsingModifier)
    match pieces.dropWhile (!·.isMark "=") with
    | [] => if (pieces.head?.map Piece.isRound).getD true then none else some pieces
    | _ :: target =>
      let synonym := (pieces.takeWhile (!·.isMark "=")).filter (!·.isTrivia)
      if synonym.length = 1 then some target else none
  else none

theorem importTarget?_eq (header : Header) :
    importTarget? header = (importPieces? header).map lastNamed := by
  unfold importTarget? importPieces?
  split
  · cases afterWord? "using" header with
    | none => rfl
    | some pieces =>
      simp only [Option.bind_eq_bind, Option.bind_some]
      generalize pieces.dropWhile isUsingModifier = rest
      cases rest.dropWhile fun piece => !piece.isMark "=" <;>
        simp only [apply_ite (Option.map lastNamed), Option.map_none, Option.map_some]
  · rfl

section Alike

variable {f : Token → Token} (hf : ∀ token : Token, token.Alike (f token))
include hf

theorem isModifier_map (piece : Piece) : isModifier (piece.map f) = isModifier piece := by
  rw [isModifier, Piece.word?_map hf, isModifier]

theorem core_map (header : Header) :
    core (header.map (Piece.map f)) = (core header).map (Piece.map f) := by
  simp only [core, List.filter_map, List.dropWhile_map, Function.comp_def, Piece.isTrivia_map hf,
    Piece.isSquare_map hf, isModifier_map hf]

theorem writtenTokens_map (pieces : List Piece) :
    writtenTokens (pieces.map (Piece.map f)) = (writtenTokens pieces).map f := by
  simp only [writtenTokens, List.dropWhile_map, ← List.map_reverse, Function.comp_def,
    Piece.isTrivia_map hf, List.flatMap_map, List.map_flatMap, Piece.tokens_map]

theorem afterWord?_map (text : String) (header : Header) :
    afterWord? text (header.map (Piece.map f)) =
      (afterWord? text header).map (List.map (Piece.map f)) := by
  simp only [afterWord?, List.dropWhile_map, Function.comp_def, Piece.isWord_map hf]
  cases header.dropWhile fun piece => !piece.isWord text <;> rfl

theorem startsWith_map (text : String) (header : Header) :
    startsWith text (header.map (Piece.map f)) = startsWith text header := by
  cases header with
  | nil => rfl
  | cons piece rest => exact Piece.isWord_map hf text piece

theorem spaceTokens?_map (header : Header) :
    spaceTokens? (header.map (Piece.map f)) = (spaceTokens? header).map (List.map f) := by
  simp only [spaceTokens?, core_map hf, startsWith_map hf, afterWord?_map hf, Option.map_map,
    Function.comp_def, writtenTokens_map hf, apply_ite (Option.map (List.map f)), Option.map_none]

theorem isUsing_map (header : Header) : isUsing (header.map (Piece.map f)) = isUsing header := by
  unfold isUsing
  rw [core_map hf]
  rcases core header with _ | ⟨first, _ | ⟨second, rest⟩⟩ <;>
    simp only [List.map_nil, List.map_cons, Piece.isWord_map hf]

theorem isType_map (header : Header) : isType (header.map (Piece.map f)) = isType header := by
  unfold isType
  rw [core_map hf]
  rcases core header with _ | ⟨first, _ | ⟨second, rest⟩⟩ <;>
    simp [Piece.isWord_map hf, Piece.word?_map hf]

theorem lineDirectiveToken?_map (piece : Piece) :
    lineDirectiveToken? (piece.map f) = (lineDirectiveToken? piece).map f := by
  cases piece with
  | token single =>
    simp only [Piece.map, lineDirectiveToken?, (hf single).kind_eq]
    by_cases hkind : single.kind = .directive
    · simp only [hkind, (hf single).role_eq hkind, true_and, apply_ite (Option.map f),
        Option.map_some, Option.map_none]
    · simp only [hkind, false_and, if_false, Option.map_none]
  | group => rfl

theorem lastTokens_map (pieces : List Piece) :
    lastTokens (pieces.map (Piece.map f)) = (lastTokens pieces).map f := by
  have hfound : ∀ pieces : List Piece,
      pieces.findSome? (fun piece ↦ (lineDirectiveToken? piece).map f) =
        (pieces.findSome? lineDirectiveToken?).map f := by
    intro pieces
    rw [List.map_findSome?]
    rfl
  simp only [lastTokens, ← List.map_reverse, List.takeWhile_map, List.findSome?_map,
    Function.comp_def, Piece.isTrivia_map hf, lineDirectiveToken?_map hf, writtenTokens_map hf,
    hfound]
  cases (pieces.reverse.takeWhile fun piece ↦ piece.isTrivia).findSome? lineDirectiveToken? <;> rfl

theorem isUsingModifier_map (piece : Piece) :
    isUsingModifier (piece.map f) = isUsingModifier piece := by
  simp only [isUsingModifier, Piece.isTrivia_map hf, Piece.isWord_map hf]

theorem importPieces?_map (header : Header) :
    importPieces? (header.map (Piece.map f)) =
      (importPieces? header).map (List.map (Piece.map f)) := by
  unfold importPieces?
  rw [isUsing_map hf, afterWord?_map hf]
  split
  · cases afterWord? "using" header with
    | none => rfl
    | some pieces =>
      simp only [Option.map_some, Option.bind_eq_bind, Option.bind_some, List.dropWhile_map,
        List.takeWhile_map, Function.comp_def, Piece.isMark_map hf, isUsingModifier_map hf]
      generalize pieces.dropWhile (fun piece => isUsingModifier piece) = rest
      cases hrest : rest.dropWhile fun piece => !piece.isMark "=" with
      | nil =>
        simp only [List.map_nil, List.head?_map, Option.map_map, Function.comp_def,
          Piece.isRound_map hf, apply_ite (Option.map (List.map (Piece.map f))), Option.map_none,
          Option.map_some]
      | cons mark target =>
        simp only [List.map_cons, List.filter_map, Function.comp_def, Piece.isTrivia_map hf,
          List.length_map, apply_ite (Option.map (List.map (Piece.map f))), Option.map_none,
          Option.map_some]
  · rfl

theorem drop_map (opened : Nat) (header : Header) :
    dropTypeParameters.drop opened (header.map (Piece.map f)) =
      (dropTypeParameters.drop opened header).map (Piece.map f) := by
  induction header generalizing opened with
  | nil => rfl
  | cons piece rest ih =>
    simp only [List.map_cons, dropTypeParameters.drop, Piece.isMark_map hf, ih,
      apply_ite (List.map (Piece.map f))]

theorem dropTypeParameters_map (header : Header) :
    dropTypeParameters (header.map (Piece.map f)) =
      (dropTypeParameters header).map (Piece.map f) := by
  cases header with
  | nil => rfl
  | cons first rest =>
    simp only [List.map_cons, dropTypeParameters, Piece.isMark_map hf, drop_map hf,
      apply_ite (List.map (Piece.map f))]

theorem startsConstraint_map (header : Header) :
    startsConstraint (header.map (Piece.map f)) = startsConstraint header := by
  rcases header with _ | ⟨first, _ | ⟨second, _ | ⟨third, rest⟩⟩⟩ <;>
    simp only [List.map_nil, List.map_cons, startsConstraint, Piece.isWord_map hf,
      Piece.word?_map hf, Piece.isMark_map hf]

theorem unconstrained_map (header : Header) :
    unconstrained (header.map (Piece.map f)) = (unconstrained header).map (Piece.map f) := by
  induction header with
  | nil => rfl
  | cons piece rest ih =>
    simp only [List.map_cons, unconstrained, Piece.isRound_map hf, startsConstraint_map hf, ih,
      apply_ite (List.map (Piece.map f)), List.map_nil]

theorem isOtherKind_map (first : Piece) (rest : List Piece) :
    isOtherKind (first.map f) (rest.map (Piece.map f)) = isOtherKind first rest := by
  cases rest <;> simp [isOtherKind, Piece.isWord_map hf, Piece.word?_map hf, Piece.isMark_map hf]

theorem methodName?_map (header : Header) :
    methodName? (header.map (Piece.map f)) = methodName? header := by
  unfold methodName?
  rw [core_map hf, unconstrained_map hf]
  generalize unconstrained (core header) = parts
  dsimp only
  rw [List.any_map, ← List.map_reverse]
  simp only [Function.comp_def, Piece.isMark_map hf, Piece.isWord_map hf]
  split
  · rfl
  · cases parts with
    | nil => rfl
    | cons first rest =>
      cases (first :: rest).reverse with
      | nil => rfl
      | cons last before =>
        simp only [List.map_cons, Piece.isRound_map hf, isOtherKind_map hf,
          dropTypeParameters_map hf]
        rcases dropTypeParameters before with _ | ⟨name, _ | ⟨second, others⟩⟩ <;>
          simp [Piece.word?_map hf]

end Alike

end Header

/-! ### Declarations -/

def Ending.map (f : Token → Token) : Ending → Ending
  | semicolon => semicolon
  | value => value
  | arrow => arrow
  | block opening inner closing => block (f opening) (inner.map f) (closing.map f)

def Draft.map (f : Token → Token) (draft : Draft) : Draft where
  reversed := draft.reversed.map (Piece.map f)
  ending := draft.ending.map (Ending.map f)

def Outline.map (f : Token → Token) : Outline → Outline
  | empty => empty
  | comment token rest => comment (f token) (rest.map f)
  | directive token rest => directive (f token) (rest.map f)
  | declaration header ending members rest =>
    declaration (header.map (Piece.map f)) (ending.map f) (members.map f) (rest.map f)

namespace Outline

variable {f : Token → Token}

theorem declare_map (draft : Draft) (ending : Ending) (members rest : Outline) :
    (draft.map f).declare (ending.map f) (members.map f) (rest.map f) =
      (draft.declare ending members rest).map f := by
  obtain ⟨reversed, stored⟩ := draft
  cases stored <;> simp [Draft.declare, Draft.map, map]

theorem close_map (draft : Draft) (rest : Outline) :
    (draft.map f).close (rest.map f) = (draft.close rest).map f := by
  have hempty : (draft.map f).isEmpty = draft.isEmpty := by
    simp [Draft.isEmpty, Draft.map]
  unfold Draft.close
  rw [hempty]
  split
  · rfl
  · exact declare_map draft .semicolon .empty rest

/-- What a missing semicolon leaves to finish. -/
theorem finish_map (draft : Draft) (isCut : Bool) (rest : Outline) :
    (if isCut then (draft.map f).close else id) (rest.map f) =
      ((if isCut then draft.close else id) rest).map f := by
  cases isCut with
  | true => exact close_map draft rest
  | false => rfl

theorem cut_map (draft : Draft) (isCut : Bool) :
    (if isCut then {} else draft.map f) = (if isCut then ({} : Draft) else draft).map f := by
  cases isCut <;> rfl

section Alike

variable (hf : ∀ token : Token, token.Alike (f token))
include hf

theorem isMethod_map (draft : Draft) : (draft.map f).isMethod = draft.isMethod := by
  rw [Draft.isMethod, Draft.map, ← List.map_reverse, Header.methodName?_map hf, Draft.isMethod]

theorem add_map (draft : Draft) (piece : Piece) :
    (draft.map f).add (piece.map f) = (draft.add piece).map f := by
  obtain ⟨reversed, ending⟩ := draft
  cases ending with
  | some ending => rfl
  | none =>
    simp only [Draft.map, Draft.add, Option.map_none, Piece.isMark_map hf, ← List.map_reverse,
      Header.isUsing_map hf]
    split
    · rfl
    · split
      · rfl
      · split <;> rfl

/-- Changed tokens are read as the declarations that the tokens are read as, changed. -/
theorem read_map {forest : Forest} (hopens : forest.KeepsOpenings f) (course : Course)
    (draft : Draft) : read course (draft.map f) (forest.map f) = (read course draft forest).map f := by
  induction forest generalizing course draft with
  | empty => exact close_map draft .empty
  | leaf token rest ih =>
    have hrest : rest.KeepsOpenings f := hopens
    have hadd : ∀ draft : Draft, (draft.map f).add (.token (f token)) =
        (draft.add (.token token)).map f := fun draft ↦ add_map hf draft (.token token)
    have hnext : ∀ course, read course {} (rest.map f) = (read course {} rest).map f :=
      fun course ↦ ih hrest course {}
    simp only [Forest.map, read, Course.step_leaf_map hf course token hrest, cut_map,
      (hf token).kind_eq, hadd, hnext, ih hrest]
    split
    · split
      · rw [← finish_map, ← declare_map]
        rfl
      · exact finish_map draft _ _
    · split <;> rw [← finish_map] <;> rfl
  | group opening inner closing rest ihInner ihRest =>
    obtain ⟨-, hinner, hrest⟩ := hopens
    have hadd : ∀ draft : Draft, (draft.map f).add (.group (f opening) (inner.map f).tokens
        (closing.map f)) = (draft.add (.group opening inner.tokens closing)).map f := by
      intro draft
      rw [Forest.tokens_map]
      exact add_map hf draft (.group opening inner.tokens closing)
    have hnext : ∀ course, read course {} (rest.map f) = (read course {} rest).map f :=
      fun course ↦ ihRest hrest course {}
    have hwithin : ∀ course, read course {} (inner.map f) = (read course {} inner).map f :=
      fun course ↦ ihInner hinner course {}
    have hmembers : ∀ (isOpen : Bool) (outline : Outline),
        (if isOpen then outline.map f else empty) = (if isOpen then outline else empty).map f := by
      intro isOpen outline
      cases isOpen <;> rfl
    simp only [Forest.map, read, Course.step_group_map hf course opening hinner hrest, cut_map,
      isMethod_map hf, hadd, hnext, hwithin, hmembers, ihRest hrest]
    split
    · rw [← finish_map, ← declare_map]
      rfl
    · exact finish_map draft _ _

/-- The outline of changed tokens. -/
theorem ofForest_map (tokens : List Token) :
    ofForest (Forest.ofTokens (tokens.map f)) = (ofForest (Forest.ofTokens tokens)).map f := by
  rw [Forest.ofTokens_map hf]
  exact read_map hf (Forest.keepsOpenings_ofTokens hf tokens) _ {}

end Alike

end Outline

end Source

end Conform
