import Conform.Proofs.Extraction.Block
import Conform.Proofs.Extraction.Expression

/-!
Method bodies are isolated from each other. In a source whose brackets are paired the text between
the braces of a method may be replaced by any other text that is a block between these braces: the
source tells the same namespaces and imports and the same methods, with the same texts, and those
behind the replaced text are moved by what it became longer or shorter
(`Source.Structure.ofSource_replace`).
-/

set_option autoImplicit false

namespace Conform.Source

/-- A source with a text between braces. -/
def braced (before content behind : List Char) : List Char :=
  before ++ '\x7b' :: (content ++ '\x7d' :: behind)

/-- The place behind the closing brace. -/
def pastBraces (before content : List Char) : Place :=
  ({} : Place).after (before ++ '\x7b' :: (content ++ ['\x7d']))

theorem braced_eq (before content behind : List Char) :
    braced before content behind = (before ++ '\x7b' :: (content ++ ['\x7d'])) ++ behind := by
  simp [braced]

theorem byte_pastBraces (before content : List Char) :
    (pastBraces before content).byte = Text.bytes before + Text.bytes content + 2 := by
  have hbraces : '\x7b'.utf8Size = 1 ∧ '\x7d'.utf8Size = 1 := by decide
  simp only [pastBraces, Place.after, Text.bytes_append, Text.bytes, hbraces]
  omega

theorem past_opens (context : Row.Context) (content : Row) :
    (context.opens {}).past content =
      pastBraces (context.lead.flatMap Lexeme.chars) content.chars := by
  rw [context.opens_eq, Place.past, Place.closes, Place.inside, ← Place.after_append,
    ← Place.after_append, ← Place.after_append, pastBraces]
  simp [Lexeme.chars, Bracket.opening, Bracket.closing]

theorem byte_opens (context : Row.Context) :
    (context.opens {}).byte = Text.bytes (context.lead.flatMap Lexeme.chars) := by
  rw [context.opens_eq]
  exact Nat.zero_add _

namespace Structure

variable {source : List Char}

/-- Assumes: a method whose block ends before a text between braces. Its texts do not depend on that
text. -/
theorem texts_braced (hpaired : (Forest.ofSource source).isPaired = true) {method : Method}
    (hmethod : method ∈ (ofSource source).methods) {before : List Char}
    (hbefore : ∀ span statements, method.body = .block span statements →
      span.stop ≤ Text.bytes before) (content behind other : List Char) :
    method.texts (braced before other behind) = method.texts (braced before content behind) := by
  have hbody : ∀ span statements, method.body = .block span statements →
      span.stop ≤ Text.bytes before ∧
        ∀ inner ∈ statements, inner.start ≤ span.stop ∧ inner.stop ≤ span.stop := by
    intro span statements hspan
    obtain ⟨-, hstatements⟩ := block_bounds hpaired hmethod hspan
    refine ⟨hbefore span statements hspan, fun inner hinner ↦ ?_⟩
    have hbounds := hstatements inner hinner
    omega
  rw [braced, braced, Method.texts_append_of_le hbody, Method.texts_append_of_le hbody]

/-- A method behind a text between braces has the texts that it has in what stands behind them. -/
theorem texts_pastBraces (hpaired : (Forest.ofSource source).isPaired = true) {method : Method}
    {place : Place} (hmethod : method.shift place ∈ (ofSource source).methods)
    (before content behind : List Char) :
    (method.shift (pastBraces before content)).texts (braced before content behind) =
      method.texts behind := by
  rw [braced_eq]
  refine Method.texts_shift (Nat.zero_add _) (fun span statements hspan ↦ ?_) behind
  have hblock : (method.shift place).body =
      .block (span.shift place) (statements.map (Span.shift place)) := by
    rw [Method.shift, hspan]
    rfl
  have hbounds := block_bounds hpaired hmethod hblock
  simp only [Span.shift] at hbounds
  omega

section Reading

variable {context : Row.Context} {content : Row}

theorem eq_braced (hlexemes : Lexeme.ofChars source = (context.plug content).lexemes) :
    source = braced (context.lead.flatMap Lexeme.chars) content.chars
      (context.tail.flatMap Lexeme.chars) := by
  rw [← Lexeme.flatMap_chars_ofChars source, hlexemes, context.lexemes_plug,
    Lexeme.flatMap_chars_braces]
  rfl

/-- With another block in the hole a source is read as the row with another content there. -/
theorem ofSource_braced (hplain : (context.plug content).IsPlain)
    (hlexemes : Lexeme.ofChars source = (context.plug content).lexemes) {other : Row}
    (hother : other.IsPlain) (hreads : ∀ behind, Lexeme.ofChars (other.chars ++ '\x7d' :: behind) =
      other.lexemes ++ Bracket.brace.closing :: Lexeme.ofChars behind) :
    Forest.ofSource (braced (context.lead.flatMap Lexeme.chars) other.chars
      (context.tail.flatMap Lexeme.chars)) = (context.plug other).forest {} := by
  rw [context.lexemes_plug] at hlexemes
  have himage := Lexeme.ofChars_replace hlexemes hreads
  rw [← context.lexemes_plug] at himage
  exact Row.ofSource_eq (Row.Context.isPlain_plug hplain hother) himage

theorem exists_row_of_braced (hplain : (context.plug content).IsPlain)
    (hlexemes : Lexeme.ofChars source = (context.plug content).lexemes) {new : List Char}
    (hnew : isBlockContent new = true) :
    ∃ other : Row, other.chars = new ∧
      Forest.ofSource (braced (context.lead.flatMap Lexeme.chars) new
        (context.tail.flatMap Lexeme.chars)) = (context.plug other).forest {} := by
  obtain ⟨other, hother, rfl, hreads⟩ := Lexeme.exists_row_of_isBlockContent hnew
  exact ⟨other, rfl, ofSource_braced hplain hlexemes hother hreads⟩

end Reading

/-- Assumes: a source whose brackets are paired and a method with a block in it. The text between
the braces of the method may be replaced by any text that is a block between them. The namespaces
and the imports stay as they are; so do the methods before the block, with their texts. The method
itself keeps all but its body, and nothing is found in its new block. The methods behind the block,
as many as before, differ in their places alone: these are counted from the end of the block on. -/
theorem ofSource_replace (hpaired : (Forest.ofSource source).isPaired = true)
    {front rest : List Method} {method : Method}
    (hmethods : (ofSource source).methods = front ++ method :: rest) {span : Span}
    {statements : Option Span} (hbody : method.body = .block span statements) :
    ∃ (before old behind : List Char) (later : List Method),
      source = braced before old behind ∧
      span = ⟨Text.bytes before, Text.bytes before + Text.bytes old + 2⟩ ∧
      rest = later.map (Method.shift (pastBraces before old)) ∧
      ∀ new, isBlockContent new = true →
        (ofSource (braced before new behind)).spaceNames = (ofSource source).spaceNames ∧
        (ofSource (braced before new behind)).imports = (ofSource source).imports ∧
        (∃ inner, (ofSource (braced before new behind)).methods =
          front ++ { method with
              body := .block ⟨Text.bytes before, Text.bytes before + Text.bytes new + 2⟩ inner } ::
            later.map (Method.shift (pastBraces before new))) ∧
        (∀ earlier ∈ front, earlier.texts (braced before new behind) = earlier.texts source) ∧
        ∀ next ∈ later, (next.shift (pastBraces before new)).texts (braced before new behind) =
          (next.shift (pastBraces before old)).texts source := by
  obtain ⟨context, content, later, hplain, hlexemes, hisolates, hrest⟩ :=
    exists_hole hpaired hmethods fun hblockless ↦ hblockless span statements hbody
  have hsource := eq_braced hlexemes
  refine ⟨context.lead.flatMap Lexeme.chars, content.chars, context.tail.flatMap Lexeme.chars,
    later, hsource, ?_, past_opens context content ▸ hrest, fun new hnew ↦ ?_⟩
  · have hblock := hisolates.body.symm.trans hbody
    cases hblock
    rw [byte_opens, past_opens, byte_pastBraces]
  obtain ⟨other, rfl, hfound⟩ := exists_row_of_braced hplain hlexemes hnew
  have hshown := Row.ofSource_eq hplain hlexemes
  refine ⟨?_, ?_, ?_, fun earlier hearlier ↦ ?_, fun next hnext ↦ ?_⟩
  · rw [ofSource, ofSource]
    dsimp only
    rw [hfound, hshown, hisolates.spaceNames]
  · rw [ofSource, ofSource]
    dsimp only
    rw [hfound, hshown, hisolates.imports]
  · refine ⟨(other.forest (context.opens {}).inside).statements?, ?_⟩
    rw [ofSource]
    dsimp only
    rw [hfound, hisolates.methods, Body.blockAt, byte_opens, past_opens, byte_pastBraces]
  · rw [hsource] at hpaired hmethods ⊢
    refine texts_braced hpaired (hmethods ▸ List.mem_append_left _ hearlier) ?_ _ _ _
    rw [← byte_opens]
    exact hisolates.before earlier hearlier
  · have hmem : next.shift ((context.opens {}).past content) ∈ (ofSource source).methods := by
      rw [hmethods, hrest]
      exact List.mem_append_right _ (List.mem_cons_of_mem _ (List.mem_map_of_mem hnext))
    have hold := texts_pastBraces hpaired hmem (context.lead.flatMap Lexeme.chars) content.chars
      (context.tail.flatMap Lexeme.chars)
    rw [← hsource] at hold
    rw [texts_pastBraces hpaired hmem, hold]

/-- Whatever stands in the first of two methods, the two are found. -/
theorem ofSource_replace_first :
    isBlockContent "void H() \x7b s = \"\x7d\"; /* \x7d */ \x7d".toList = true ∧
      ∃ before old behind,
        "class C \x7b void F() \x7b x(); \x7d void G() \x7b y(); \x7d \x7d".toList =
          braced before old behind ∧ ∀ new, isBlockContent new = true →
        (ofSource (braced before new behind)).methods.map Method.identifier = ["F", "G"] := by
  have hmethods : (ofSource
      "class C \x7b void F() \x7b x(); \x7d void G() \x7b y(); \x7d \x7d".toList).methods =
      [] ++ ⟨"F", 1, .block ⟨19, 27⟩ (some ⟨21, 25⟩), []⟩ ::
        [⟨"G", 1, .block ⟨37, 45⟩ (some ⟨39, 43⟩), []⟩] := by decide +kernel
  obtain ⟨before, old, behind, later, hsource, -, hlater, hreplace⟩ :=
    ofSource_replace (by decide +kernel) hmethods rfl
  refine ⟨by decide +kernel, before, old, behind, hsource, fun new hnew ↦ ?_⟩
  obtain ⟨-, -, ⟨inner, hfound⟩, -, -⟩ := hreplace new hnew
  have hnames : ["G"] = later.map Method.identifier := by
    have hmap := congrArg (List.map Method.identifier) hlater
    rwa [List.map_map] at hmap
  rw [hfound, List.nil_append, List.map_cons, List.map_map]
  exact congrArg ("F" :: ·) hnames.symm

end Structure

end Conform.Source
