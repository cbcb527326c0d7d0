import Conform.Proofs.Source.Lookahead

/-!
Sources in which every bracket has a partner of its kind. The forest of such a source is a row
(`Forest.row?`), and whatever stands in a pair of braces can be replaced: the source is read as the
row with the other content, if that reads as a row of its own between braces
(`Lexeme.ofChars_replace`).
-/

set_option autoImplicit false

namespace Conform.Source

def Token.lexeme (token : Token) : Lexeme :=
  ⟨token.kind, token.text⟩

theorem Token.lexeme_place (start row : Nat) (lexemes : List Lexeme) :
    (Token.place start row lexemes).map Token.lexeme = lexemes := by
  induction lexemes generalizing start row with
  | nil => rfl
  | cons lexeme rest ih => rw [Token.place, List.map_cons, ih]; rfl

/-- The kind of the brackets that two tokens are a pair of. -/
def Bracket.ofPair? (opening : Token) (closing : Option Token) : Option Bracket :=
  [Bracket.round, .square, .brace].find? fun bracket =>
    opening.lexeme = bracket.opening && closing.map Token.lexeme = some bracket.closing

theorem Bracket.ofPair?_eq_some {opening : Token} {closing : Option Token} {bracket : Bracket}
    (hpair : ofPair? opening closing = some bracket) :
    opening.lexeme = bracket.opening ∧ closing.map Token.lexeme = some bracket.closing := by
  simpa using List.find?_some hpair

/-- A row of paired brackets goes up to the first closing bracket that has no partner in it. -/
theorem Row.lexemes_inj {row other : Row} (hrow : row.IsPlain) (hother : other.IsPlain)
    {bracket : Bracket} {back behind : List Lexeme}
    (hlexemes : row.lexemes ++ bracket.closing :: back =
      other.lexemes ++ bracket.closing :: behind) :
    row.lexemes = other.lexemes ∧ back = behind := by
  have hclosing (bracket : Bracket) : bracket.closing.isBracket = true := by cases bracket <;> rfl
  have hopening (bracket : Bracket) : bracket.opening.isBracket = true := by cases bracket <;> rfl
  have hne (bracket partner : Bracket) : bracket.opening ≠ partner.closing := by
    cases bracket <;> cases partner <;> decide
  induction row generalizing other bracket back behind with
  | empty =>
    cases other with
    | empty => exact ⟨rfl, List.tail_eq_of_cons_eq hlexemes⟩
    | single lexeme rest =>
      obtain ⟨rfl, -⟩ := List.cons.inj hlexemes
      exact absurd (hclosing bracket) (by rw [hother.1]; exact Bool.false_ne_true)
    | group partner inner rest => exact absurd (List.cons.inj hlexemes).1.symm (hne partner bracket)
  | single lexeme rest ih =>
    have hbracket : ¬lexeme.isBracket = true := by rw [hrow.1]; exact Bool.false_ne_true
    cases other with
    | empty =>
      obtain ⟨rfl, -⟩ := List.cons.inj hlexemes
      exact absurd (hclosing bracket) hbracket
    | single lexeme' others =>
      obtain ⟨rfl, hrest⟩ := List.cons.inj hlexemes
      obtain ⟨heq, hback⟩ := ih hrow.2 hother.2 hrest
      exact ⟨congrArg (lexeme :: ·) heq, hback⟩
    | group partner inner others =>
      obtain ⟨rfl, -⟩ := List.cons.inj hlexemes
      exact absurd (hopening partner) hbracket
  | group own inner rest ihInner ihRest =>
    cases other with
    | empty => exact absurd (List.cons.inj hlexemes).1 (hne own bracket)
    | single lexeme others =>
      obtain ⟨rfl, -⟩ := List.cons.inj hlexemes
      exact absurd (hopening own) (by rw [hother.1]; exact Bool.false_ne_true)
    | group partner inner' others =>
      rw [lexemes, lexemes, List.cons_append, List.cons_append, List.append_assoc,
        List.append_assoc, List.cons_append, List.cons_append] at hlexemes
      obtain ⟨hown, htail⟩ := List.cons.inj hlexemes
      obtain rfl : own = partner := by cases own <;> cases partner <;> first | rfl | contradiction
      obtain ⟨hinner, hbehind⟩ := ihInner hrow.1 hother.1 htail
      obtain ⟨hrest, hback⟩ := ihRest hrow.2 hother.2 hbehind
      exact ⟨by rw [lexemes, lexemes, hinner, hrest], hback⟩

namespace Forest

/-! ### Flattening -/

/-- The tokens of a forest under construction. -/
def pendingTokens (pending : List (Token × Forest)) : List Token :=
  pending.flatMap fun (closing, behind) => closing :: behind.tokens

theorem tokens_append (forest other : Forest) :
    (forest.append other).tokens = forest.tokens ++ other.tokens := by
  induction forest with
  | empty => rfl
  | leaf token rest ih => rw [append, tokens, ih, tokens, List.cons_append]
  | group opening inner closing rest _ ih => simp [append, tokens, ih]

theorem tokens_settle (row : Forest) (pending : List (Token × Forest)) :
    (settle row pending).tokens = row.tokens ++ pendingTokens pending := by
  induction pending generalizing row with
  | nil => exact (List.append_nil _).symm
  | cons head pending ih =>
    obtain ⟨closing, behind⟩ := head
    rw [settle, ih, tokens_append, List.append_assoc]
    rfl

theorem tokens_grow (token : Token) (growth : Growth) :
    (grow token growth).1.tokens ++ pendingTokens (grow token growth).2 =
      token :: (growth.1.tokens ++ pendingTokens growth.2) := by
  obtain ⟨row, pending⟩ := growth
  unfold grow
  dsimp only
  split
  · rfl
  · split
    · cases pending with
      | nil => simp [tokens, pendingTokens]
      | cons head pending => simp [tokens, pendingTokens]
    · rfl

/-- Flattened a forest is the row of tokens it came from. -/
theorem tokens_ofTokens (tokens : List Token) : (ofTokens tokens).tokens = tokens := by
  rw [ofTokens, tokens_settle]
  induction tokens with
  | nil => rfl
  | cons token rest ih => rw [List.foldr_cons, tokens_grow, ih]

/-! ### Paired brackets -/

/-- The row that a forest is; none if a bracket has no partner of its kind. -/
def row? : Forest → Option Row
  | empty => some .empty
  | leaf token rest =>
    if token.lexeme.isBracket then none else rest.row?.map (.single token.lexeme ·)
  | group opening inner closing rest => do
    return .group (← Bracket.ofPair? opening closing) (← inner.row?) (← rest.row?)

/-- Whether every bracket has a partner of its kind. -/
def isPaired (forest : Forest) : Bool :=
  forest.row?.isSome

theorem row?_eq_some {forest : Forest} {row : Row} (hrow : forest.row? = some row) :
    row.IsPlain ∧ row.lexemes = forest.tokens.map Token.lexeme := by
  induction forest generalizing row with
  | empty => cases hrow; exact ⟨trivial, rfl⟩
  | leaf token rest ih =>
    rw [row?] at hrow
    split at hrow
    · contradiction
    · rename_i hbracket
      obtain ⟨others, hothers, rfl⟩ := Option.map_eq_some_iff.mp hrow
      obtain ⟨hplain, hlexemes⟩ := ih hothers
      exact ⟨⟨Bool.eq_false_iff.mpr hbracket, hplain⟩, congrArg (token.lexeme :: ·) hlexemes⟩
  | group opening inner closing rest ihInner ihRest =>
    simp only [row?, Option.pure_def, Option.bind_eq_bind, Option.bind_eq_some_iff,
      Option.some.injEq] at hrow
    obtain ⟨bracket, hbracket, within, hwithin, others, hothers, rfl⟩ := hrow
    obtain ⟨hinner, hinnerLexemes⟩ := ihInner hwithin
    obtain ⟨hrest, hrestLexemes⟩ := ihRest hothers
    obtain ⟨hopening, hclosing⟩ := Bracket.ofPair?_eq_some hbracket
    obtain ⟨token, rfl, htoken⟩ := Option.map_eq_some_iff.mp hclosing
    refine ⟨⟨hinner, hrest⟩, ?_⟩
    simp [Row.lexemes, tokens, hinnerLexemes, hrestLexemes, hopening, htoken]

/-- A row is read back from the forest that it has at a place. -/
theorem row?_forest {row : Row} (hplain : row.IsPlain) (place : Place) :
    (row.forest place).row? = some row := by
  have hpair : ∀ (bracket : Bracket) (opens closes : Place),
      Bracket.ofPair? (bracket.opening.at opens) (some (bracket.closing.at closes)) =
        some bracket := by
    intro bracket opens closes
    cases bracket <;> rfl
  induction row generalizing place with
  | empty => rfl
  | single lexeme rest ih =>
    obtain ⟨hbracket, hrest⟩ := hplain
    have hlexeme : (lexeme.at place).lexeme = lexeme := rfl
    rw [Row.forest, row?, hlexeme, hbracket, ih hrest]
    rfl
  | group bracket inner rest ihInner ihRest =>
    obtain ⟨hinner, hrest⟩ := hplain
    simp only [Row.forest, row?, hpair, ihInner hinner, ihRest hrest]
    rfl

/-- The forest of a source whose brackets are paired is a row of all its lexemes. -/
theorem ofSource_row? {source : List Char} {row : Row}
    (hrow : (ofSource source).row? = some row) :
    row.IsPlain ∧ Lexeme.ofChars source = row.lexemes ∧ ofSource source = row.forest {} := by
  obtain ⟨hplain, hlexemes⟩ := row?_eq_some hrow
  rw [ofSource, tokens_ofTokens, Token.ofSource, Token.lexeme_place] at hlexemes
  exact ⟨hplain, hlexemes.symm, Row.ofSource_eq hplain hlexemes.symm⟩

end Forest

/-! ### Blocks -/

/-- Whether a text in braces is one block: the braces are a pair, and so are all brackets between
them. -/
def isBlockContent (text : List Char) : Bool :=
  match (Forest.ofSource ('\x7b' :: (text ++ ['\x7d']))).row? with
  | some (.group .brace _ .empty) => true
  | _ => false

namespace Lexeme

theorem ofChars_opening (behind : List Char) :
    ofChars ('\x7b' :: behind) = Bracket.brace.opening :: ofChars behind :=
  ofChars_append (Row.stands_opening .brace behind)

theorem ofChars_closing (behind : List Char) :
    ofChars ('\x7d' :: behind) = Bracket.brace.closing :: ofChars behind :=
  ofChars_append (Row.stands_closing .brace behind)

theorem flatMap_chars_braces (lead old tail : List Lexeme) :
    (lead ++ Bracket.brace.opening :: (old ++ Bracket.brace.closing :: tail)).flatMap Lexeme.chars =
      lead.flatMap Lexeme.chars ++ '\x7b' ::
        (old.flatMap Lexeme.chars ++ '\x7d' :: tail.flatMap Lexeme.chars) := by
  simp [Lexeme.chars, Bracket.opening, Bracket.closing]

/-- Assumes: a text that is read as a row in braces. What is read of it does not depend on what
follows the closing one. -/
theorem reads_of_row? {text : List Char} {content : Row}
    (hrow : (Forest.ofSource ('\x7b' :: (text ++ ['\x7d']))).row? =
      some (.group .brace content .empty)) :
    content.IsPlain ∧ content.chars = text ∧ ∀ behind,
      ofChars (text ++ '\x7d' :: behind) =
        content.lexemes ++ Bracket.brace.closing :: ofChars behind := by
  obtain ⟨⟨hplain, -⟩, hlexemes, -⟩ := Forest.ofSource_row? hrow
  have hchars := flatMap_chars_ofChars ('\x7b' :: (text ++ ['\x7d']))
  rw [hlexemes] at hchars
  have htext : content.chars = text := by
    have hcons : '\x7b' :: (content.chars ++ ['\x7d']) = '\x7b' :: (text ++ ['\x7d']) := by
      rw [← hchars]
      exact (Row.chars_group .brace content .empty).symm
    exact List.append_cancel_right (List.tail_eq_of_cons_eq hcons)
  refine ⟨hplain, htext, fun behind ↦ ?_⟩
  rw [ofChars_opening] at hlexemes
  have hreads : ofChars (content.lexemes.flatMap Lexeme.chars ++ '\x7d' :: []) =
      content.lexemes ++ (Bracket.brace.closing :: Row.empty.lexemes) := by
    rw [← Row.chars, htext, List.tail_eq_of_cons_eq hlexemes]
  have hsplits := ofChars_append_stop (.of_brace (.inr rfl) [] behind) hreads
  rw [ofChars_closing] at hsplits
  rw [← htext]
  exact hsplits

theorem exists_row_of_isBlockContent {text : List Char} (hblock : isBlockContent text = true) :
    ∃ content : Row, content.IsPlain ∧ content.chars = text ∧ ∀ behind,
      ofChars (text ++ '\x7d' :: behind) =
        content.lexemes ++ Bracket.brace.closing :: ofChars behind := by
  unfold isBlockContent at hblock
  split at hblock
  · rename_i content hrow
    exact ⟨content, reads_of_row? hrow⟩
  · contradiction

/-- Assumes: a row that is read in front of a closing brace. It is the content of a block. -/
theorem isBlockContent_chars {content : Row} (hcontent : content.IsPlain) {behind : List Char}
    {back : List Lexeme}
    (hreads : ofChars (content.chars ++ '\x7d' :: behind) = content.lexemes ++ back) :
    isBlockContent content.chars = true := by
  have hlexemes : ofChars ('\x7b' :: (content.chars ++ ['\x7d'])) =
      (Row.group .brace content .empty).lexemes := by
    rw [ofChars_opening]
    refine congrArg (Bracket.brace.opening :: ·) ?_
    refine (ofChars_append_stop (.of_brace (.inr rfl) behind []) hreads).trans ?_
    rw [ofChars_closing, ofChars]
    rfl
  have hplain : (Row.group .brace content .empty).IsPlain := ⟨hcontent, trivial⟩
  have hrow := Forest.row?_forest hplain {}
  rw [← Row.ofSource_eq hplain hlexemes] at hrow
  rw [isBlockContent, hrow]

/-- Assumes: a source is read as some lexemes in front of a pair of braces, some between them and
some behind. With another content between the braces it is read as the same lexemes around it. -/
theorem ofChars_replace {source : List Char} {lead old tail : List Lexeme}
    (hsource : ofChars source =
      lead ++ Bracket.brace.opening :: (old ++ Bracket.brace.closing :: tail))
    {text : List Char} {content : Row} (hcontent : ∀ behind,
      ofChars (text ++ '\x7d' :: behind) =
        content.lexemes ++ Bracket.brace.closing :: ofChars behind) :
    ofChars (lead.flatMap Lexeme.chars ++ '\x7b' ::
        (text ++ '\x7d' :: tail.flatMap Lexeme.chars)) =
      lead ++ Bracket.brace.opening :: (content.lexemes ++ Bracket.brace.closing :: tail) := by
  have hchars := flatMap_chars_ofChars source
  rw [hsource, flatMap_chars_braces] at hchars
  -- The lexemes before the opening brace stay as they are.
  have hlead := ofChars_append_stop
    (.of_brace (.inl rfl) _ (text ++ '\x7d' :: tail.flatMap Lexeme.chars)) (hchars ▸ hsource)
  -- Behind the closing brace the same text is read.
  have htail : ofChars (tail.flatMap Lexeme.chars) = tail :=
    @ofChars_suffix source (lead ++ Bracket.brace.opening :: (old ++ [Bracket.brace.closing])) tail
      (by simp [hsource])
  rw [hlead, ofChars_opening, hcontent, htail]

end Lexeme

end Conform.Source
