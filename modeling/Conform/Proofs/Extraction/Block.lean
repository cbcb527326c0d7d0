import Conform.Proofs.Source.Boundary
import Conform.Proofs.Source.Isolation
import Conform.Proofs.Source.Pairing

/-!
The blocks of the methods of a source whose brackets are paired. Such a source is a row, and each
block stands around a hole of it (`Source.Structure.exists_block`); the statements of the block lie
between its braces, and they start and stop between two lexemes.
-/

set_option autoImplicit false

namespace Conform.Source

/-- Assumes: a content whose lexemes are not empty. The statements of its block stand between the
braces and are not empty. -/
theorem Body.blockAt_bounds {opens : Place} {content : Row}
    (hfilled : ∀ lexeme ∈ content.lexemes, lexeme.chars ≠ []) {span : Span}
    {statements : Option Span} (hbody : Body.blockAt opens content = .block span statements) :
    span.start + 2 ≤ span.stop ∧ ∀ inner ∈ statements,
      span.start + 1 ≤ inner.start ∧ inner.start < inner.stop ∧ inner.stop + 1 ≤ span.stop := by
  cases hbody
  have hbraces : Text.bytes Bracket.brace.opening.chars = 1 ∧
      Text.bytes Bracket.brace.closing.chars = 1 := by decide
  have hpast : (opens.past content).byte = opens.byte + 1 + Text.bytes content.chars + 1 := by
    simp only [Place.past, Place.closes, Place.inside, Place.after, hbraces]
  refine ⟨by dsimp only; omega, fun inner hinner ↦ ?_⟩
  have hbounds := Row.hull_code_bounds hfilled opens.inside { content := .statements }
    ((Forest.statements?_eq_hull _).symm.trans hinner)
  have hinside : opens.inside.byte = opens.byte + 1 := by
    simp only [Place.inside, Place.after, hbraces]
  have hafter : (opens.inside.after content.chars).byte =
      opens.inside.byte + Text.bytes content.chars := rfl
  dsimp only
  omega

/-- The tokens of a source behind the first byte of a block and before the last one. -/
def Token.inside (source : List Char) (block : Span) : List Token :=
  (Token.ofSource source).filter fun token ↦ block.start < token.start ∧ token.stop < block.stop

namespace Structure

variable {source : List Char}

/-- A method with a block stands around a hole of the row that its source is. -/
theorem exists_hole (hpaired : (Forest.ofSource source).isPaired = true)
    {front rest : List Method} {method : Method}
    (hmethods : (ofSource source).methods = front ++ method :: rest)
    (hbody : ¬method.body.Blockless) :
    ∃ (context : Row.Context) (content : Row) (later : List Method),
      (context.plug content).IsPlain ∧
        Lexeme.ofChars source = (context.plug content).lexemes ∧
        Outline.Isolates (fun other ↦ Outline.ofForest ((context.plug other).forest {})) false []
          (context.opens {}) content front method later ∧
        rest = later.map (Method.shift ((context.opens {}).past content)) := by
  obtain ⟨row, hrow⟩ := Option.isSome_iff_exists.mp hpaired
  obtain ⟨hplain, hlexemes, hforest⟩ := Forest.ofSource_row? hrow
  have hread : (Outline.read { content := .members } {} (row.forest {})).methods false [] =
      front ++ method :: rest := by
    rw [← hforest]
    exact hmethods
  obtain ⟨context, content, later, rfl, hisolates⟩ :=
    Outline.hasHoles row {} _ blockless_new hread hbody
  exact ⟨context, content, later, hplain, hlexemes, hisolates, hisolates.rest_eq hread⟩

variable {method : Method} {span : Span} {statements : Option Span}

/-- A block of a method stands around a hole of the row that its source is. -/
theorem exists_block (hpaired : (Forest.ofSource source).isPaired = true)
    (hmethod : method ∈ (ofSource source).methods) (hbody : method.body = .block span statements) :
    ∃ (context : Row.Context) (content : Row), content.IsPlain ∧
      (∀ lexeme ∈ content.lexemes, lexeme.chars ≠ []) ∧
      Lexeme.ofChars source = (context.plug content).lexemes ∧
        Body.blockAt (context.opens {}) content = .block span statements := by
  obtain ⟨_, _, hmethods⟩ := List.append_of_mem hmethod
  obtain ⟨context, content, _, hplain, hlexemes, hisolates, -⟩ :=
    exists_hole hpaired hmethods fun hblockless ↦ hblockless span statements hbody
  refine ⟨context, content, Row.Context.isPlain_content hplain, fun lexeme hlexeme ↦ ?_, hlexemes,
    hisolates.body.symm.trans hbody⟩
  refine @Lexeme.chars_ne_nil source _ ?_
  rw [hlexemes, context.lexemes_plug]
  simp [hlexeme]

theorem block_bounds (hpaired : (Forest.ofSource source).isPaired = true)
    (hmethod : method ∈ (ofSource source).methods) (hbody : method.body = .block span statements) :
    span.start + 2 ≤ span.stop ∧ ∀ inner ∈ statements,
      span.start + 1 ≤ inner.start ∧ inner.start < inner.stop ∧ inner.stop + 1 ≤ span.stop := by
  obtain ⟨_, _, -, hfilled, -, hblock⟩ := exists_block hpaired hmethod hbody
  exact Body.blockAt_bounds hfilled hblock

/-- The tokens around a hole and in it. -/
theorem tokens_ofSource {context : Row.Context} {content : Row}
    (hlexemes : Lexeme.ofChars source = (context.plug content).lexemes) :
    Token.ofSource source = Token.place 0 0 context.lead ++
      Bracket.brace.opening.at (context.opens {}) ::
        ((content.forest (context.opens {}).inside).tokens ++
          Bracket.brace.closing.at ((context.opens {}).closes content) ::
            Token.place ((context.opens {}).past content).byte ((context.opens {}).past content).row
              context.tail) := by
  rw [Token.ofSource, hlexemes, context.lexemes_plug, context.opens_eq, Row.tokens_forest]
  refine (Token.place_append {} context.lead _).trans
    (congrArg (Token.place 0 0 context.lead ++ ·) ?_)
  exact congrArg (Bracket.brace.opening.at _ :: ·)
    (Token.place_append (({} : Place).after (context.lead.flatMap Lexeme.chars)).inside
      content.lexemes (Bracket.brace.closing :: context.tail))

/-- The tokens inside a block are those of the row between its braces. -/
theorem mem_inside_iff {context : Row.Context} {content : Row}
    (hlexemes : Lexeme.ofChars source = (context.plug content).lexemes)
    (hblock : Body.blockAt (context.opens {}) content = .block span statements) (token : Token) :
    token ∈ Token.inside source span ↔
      token ∈ (content.forest (context.opens {}).inside).tokens := by
  have hbraces : Text.bytes Bracket.brace.opening.chars = 1 ∧
      Text.bytes Bracket.brace.closing.chars = 1 := by decide
  obtain ⟨rfl, -⟩ := Body.block.inj hblock
  simp only [Token.inside, tokens_ofSource hlexemes, List.mem_filter, List.mem_append,
    List.mem_cons, decide_eq_true_eq]
  have hinside : (context.opens {}).inside.byte = (context.opens {}).byte + 1 := by
    simp only [Place.inside, Place.after, hbraces]
  have hpast : ((context.opens {}).past content).byte =
      ((context.opens {}).closes content).byte + 1 := by
    simp only [Place.past, Place.after, hbraces]
  constructor
  · rintro ⟨hlead | rfl | hinner | rfl | htail, hstart, hstop⟩
    · have hbounds := @Token.place_bounds {} _ _ hlead
      rw [← context.opens_eq] at hbounds
      omega
    · exact absurd hstart (Nat.lt_irrefl _)
    · exact hinner
    · exact absurd hstop (Nat.lt_irrefl _)
    · have hbounds := Token.place_bounds htail
      omega
  · intro hinner
    refine ⟨.inr (.inr (.inl hinner)), ?_⟩
    rw [Row.tokens_forest] at hinner
    have hbounds := Token.place_bounds hinner
    change _ ∧ _ ∧ token.stop ≤ ((context.opens {}).closes content).byte at hbounds
    omega

theorem block_stop_le (hpaired : (Forest.ofSource source).isPaired = true)
    (hmethod : method ∈ (ofSource source).methods) (hbody : method.body = .block span statements) :
    span.stop ≤ Text.bytes source := by
  obtain ⟨context, content, -, -, hlexemes, hblock⟩ := exists_block hpaired hmethod hbody
  have hchars : (context.plug content).chars = source := by
    rw [Row.chars, ← hlexemes, Lexeme.flatMap_chars_ofChars]
  cases hblock
  have hpast := context.past_le {} content
  rw [hchars] at hpast
  exact hpast.trans_eq (Nat.zero_add _)

/-- The braces of a block stand between two lexemes. -/
theorem block_boundaries (hpaired : (Forest.ofSource source).isPaired = true)
    (hmethod : method ∈ (ofSource source).methods) (hbody : method.body = .block span statements) :
    IsBoundary (Lexeme.ofChars source) {} (span.start + 1) ∧
      IsBoundary (Lexeme.ofChars source) {} (span.stop - 1) := by
  obtain ⟨context, content, -, -, hlexemes, hblock⟩ := exists_block hpaired hmethod hbody
  have hbraces : Text.bytes Bracket.brace.opening.chars = 1 ∧
      Text.bytes Bracket.brace.closing.chars = 1 := by decide
  obtain ⟨rfl, -⟩ := Body.block.inj hblock
  rw [hlexemes, context.lexemes_plug]
  refine ⟨⟨context.lead ++ [Bracket.brace.opening],
    content.lexemes ++ Bracket.brace.closing :: context.tail, by simp, ?_⟩,
    ⟨context.lead ++ Bracket.brace.opening :: content.lexemes,
      Bracket.brace.closing :: context.tail, by simp, ?_⟩⟩
  · rw [List.flatMap_append, Place.after_append, ← context.opens_eq]
    simp [Place.after, hbraces]
  · rw [List.flatMap_append, List.flatMap_cons, Place.after_append, Place.after_append,
      ← context.opens_eq]
    simp only [Place.past, Place.closes, Place.inside, Place.after, hbraces, Row.chars]
    omega

/-- The statements of a block start and stop between two lexemes. -/
theorem statements_boundaries (hpaired : (Forest.ofSource source).isPaired = true)
    (hmethod : method ∈ (ofSource source).methods) {inner : Span}
    (hbody : method.body = .block span (some inner)) :
    IsBoundary (Lexeme.ofChars source) {} inner.start ∧
      IsBoundary (Lexeme.ofChars source) {} inner.stop := by
  obtain ⟨context, content, -, -, hlexemes, hblock⟩ := exists_block hpaired hmethod hbody
  obtain ⟨-, hstatements⟩ := Body.block.inj hblock
  obtain ⟨hstart, hstop⟩ := content.hull_code_boundaries (context.opens {}).inside _
    ((Forest.statements?_eq_hull _).symm.trans hstatements)
  have hinside : (context.opens {}).inside = ({} : Place).after
      ((context.lead ++ [Bracket.brace.opening]).flatMap Lexeme.chars) := by
    simp [Place.inside, context.opens_eq, Place.after_append]
  have hsplit : Lexeme.ofChars source = (context.lead ++ [Bracket.brace.opening]) ++
      (content.lexemes ++ Bracket.brace.closing :: context.tail) := by
    rw [hlexemes, context.lexemes_plug]
    simp
  rw [hinside] at hstart hstop
  rw [hsplit]
  exact ⟨hstart.append _, hstop.append _⟩

end Structure

end Conform.Source
