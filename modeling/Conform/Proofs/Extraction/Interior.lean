import Conform.Proofs.Extraction.Replacement
import Conform.Proofs.Extraction.Selection
import Conform.Proofs.Text.Occurrence
import Conform.Proofs.Text.Trim

/-!
The trimmed code of a text. It is the interior of the text without the blanks at its ends: what
stands between the first opening brace and the last closing one, and nothing if these are not there
in this order (`Expression.trimmed_of_hasInterior`, `Expression.trimmed_eq_nil`). A block that is
reported for a method has for its interior what its own two braces hold
(`Source.Structure.exists_content`), so that is the code which is extracted, and put in braces again
it is extracted once more as it is (`Extraction.trimmed_interior`).
-/

set_option autoImplicit false

namespace Conform

/-! ### Texts -/

namespace Expression

open Text

/-- What stands between the first opening brace of a text and the last closing one. -/
def HasInterior (text inner : List Char) : Prop :=
  ∃ front back, '\x7b' ∉ front ∧ '\x7d' ∉ back ∧ text = front ++ '\x7b' :: (inner ++ '\x7d' :: back)

/-- The last closing brace of a text stands before the first opening one. -/
def ClosesFirst (text : List Char) : Prop :=
  ∃ front middle back, '\x7b' ∉ front ++ middle ∧ '\x7d' ∉ middle ++ back ∧
    text = front ++ '\x7d' :: (middle ++ '\x7b' :: back)

/-- A text in braces. -/
def wrapped (inner : List Char) : List Char :=
  '\x7b' :: (inner ++ ['\x7d'])

variable {text inner : List Char}

theorem hasInterior_wrapped (inner : List Char) : HasInterior (wrapped inner) inner :=
  ⟨[], [], List.not_mem_nil, List.not_mem_nil, rfl⟩

theorem trimmed_of_hasInterior (hinterior : HasInterior text inner) :
    trimmed text = trim inner := by
  obtain ⟨front, back, hfront, hback, rfl⟩ := hinterior
  have hopening := cutFirst_append hfront [] (inner ++ '\x7d' :: back)
  rw [List.singleton_append] at hopening
  rw [trimmed, hopening]
  dsimp only
  rw [cutLast_append hback]

theorem trimmed_eq_nil (hnone : ∀ inner, ¬HasInterior text inner) : trimmed text = [] := by
  unfold trimmed
  cases hopening : cutFirst ['\x7b'] text with
  | none => rfl
  | some opened =>
    obtain ⟨front, rest⟩ := opened
    dsimp only
    cases hclosing : cutLast '\x7d' rest with
    | none => rfl
    | some closed =>
      obtain ⟨inner, back⟩ := closed
      obtain ⟨hfront, rfl⟩ := cutFirst_singleton hopening
      obtain ⟨rfl, hback⟩ := cutLast_eq_some_iff.mp hclosing
      exact absurd ⟨front, back, hfront, hback, rfl⟩ (hnone inner)

/-- A text has no interior for want of a brace or of their order alone. -/
theorem forall_not_hasInterior_iff :
    (∀ inner, ¬HasInterior text inner) ↔ '\x7b' ∉ text ∨ '\x7d' ∉ text ∨ ClosesFirst text := by
  constructor
  · intro hnone
    by_cases hopening : '\x7b' ∈ text
    · by_cases hclosing : '\x7d' ∈ text
      · obtain ⟨before, back, rfl, hbefore⟩ := List.eq_append_cons_of_mem hopening
        have hback : '\x7d' ∉ back := by
          intro hmem
          obtain ⟨inner, behind, hcut⟩ := exists_cutLast hmem
          obtain ⟨rfl, hbehind⟩ := cutLast_eq_some_iff.mp hcut
          exact hnone inner ⟨before, behind, hbefore, hbehind, rfl⟩
        have hmem : '\x7d' ∈ before := by simpa [hback] using hclosing
        obtain ⟨front, middle, hcut⟩ := exists_cutLast hmem
        obtain ⟨rfl, hmiddle⟩ := cutLast_eq_some_iff.mp hcut
        refine .inr (.inr ⟨front, middle, back, ?_, ?_, by simp⟩)
        · simpa using hbefore
        · simpa using ⟨hmiddle, hback⟩
      · exact .inr (.inl hclosing)
    · exact .inl hopening
  · rintro hlacks inner ⟨front, back, hfront, hback, htext⟩
    rcases hlacks with hopening | hclosing | ⟨before, middle, behind, hopening, hclosing, hother⟩
    · exact hopening (by simp [htext])
    · exact hclosing (by simp [htext])
    · -- Both ways of writing the text tell what stands behind its first opening brace.
      have hbefore : '\x7b' ∉ before ++ '\x7d' :: middle := by simpa using hopening
      have hfirst := cutFirst_append hfront [] (inner ++ '\x7d' :: back)
      have hsecond := cutFirst_append hbefore [] behind
      rw [List.singleton_append, ← htext] at hfirst
      rw [List.singleton_append, List.append_assoc, List.cons_append, ← hother, hfirst] at hsecond
      obtain ⟨-, rfl⟩ := Prod.mk.inj (Option.some.inj hsecond)
      simp at hclosing

theorem isTrimmed_trimmed (text : List Char) : IsTrimmed (trimmed text) := by
  by_cases hsome : ∃ inner, HasInterior text inner
  · obtain ⟨inner, hinterior⟩ := hsome
    rw [trimmed_of_hasInterior hinterior]
    exact isTrimmed_trim inner
  · rw [trimmed_eq_nil (not_exists.mp hsome)]
    exact isTrimmed_nil

/-- Trimmed code is the trimmed code of itself in braces. -/
theorem trimmed_wrapped_trimmed (text : List Char) :
    trimmed (wrapped (trimmed text)) = trimmed text := by
  rw [trimmed_of_hasInterior (hasInterior_wrapped _), trim_eq_self (isTrimmed_trimmed text)]

end Expression

/-! ### Blocks -/

namespace Source

theorem slice_braced (before content behind : List Char) :
    Text.slice ⟨Text.bytes before, Text.bytes before + Text.bytes content + 2⟩
      (braced before content behind) = Expression.wrapped content := by
  have hbraces : '\x7b'.utf8Size = 1 ∧ '\x7d'.utf8Size = 1 := by decide
  have hsource : braced before content behind =
      before ++ (Expression.wrapped content ++ behind) := by
    simp [braced, Expression.wrapped]
  refine Text.slice_eq hsource rfl ?_
  simp only [Expression.wrapped, Text.bytes_cons, Text.bytes_append, Text.bytes, hbraces]
  omega

/-- Assumes: a source whose brackets are paired. The block of a method is a pair of braces and what
they hold. -/
theorem Structure.exists_content {source : List Char}
    (hpaired : (Forest.ofSource source).isPaired = true) {method : Method}
    (hmethod : method ∈ (ofSource source).methods) {span : Span} {statements : Option Span}
    (hbody : method.body = .block span statements) :
    ∃ before content behind, isBlockContent content = true ∧
      source = braced before content behind ∧
      span = ⟨Text.bytes before, Text.bytes before + Text.bytes content + 2⟩ := by
  obtain ⟨context, content, hplain, -, hlexemes, hblock⟩ := exists_block hpaired hmethod hbody
  refine ⟨context.lead.flatMap Lexeme.chars, content.chars, context.tail.flatMap Lexeme.chars, ?_,
    eq_braced hlexemes, ?_⟩
  · rw [context.lexemes_plug] at hlexemes
    have hsuffix := @Lexeme.ofChars_suffix source (context.lead ++ [Bracket.brace.opening])
      (content.lexemes ++ Bracket.brace.closing :: context.tail) (by simp [hlexemes])
    rw [List.flatMap_append, List.flatMap_cons] at hsuffix
    exact Lexeme.isBlockContent_chars hplain hsuffix
  · obtain ⟨rfl, -⟩ := Body.block.inj hblock
    rw [byte_opens, past_opens, byte_pastBraces]

end Source

/-! ### Records -/

namespace Extraction

open Source Text Expression

/-- The code that a reader which trims code takes from a file. -/
inductive Extracts (source : String) : String → Prop where
  | behaviour {behaviour : Behaviour} (hreturns : Returns .dataAccess source behaviour) :
      Extracts source behaviour.expression
  | application {record : Application} (hrecord : application source = .ok record) :
      Extracts source record.expression

theorem toList_blockCode {dialect : Dialect} (htrims : dialect.trimsExpression = true)
    (source : List Char) (block : Span) (statements : Option Span) :
    (blockCode dialect source block statements).toList = trimmed (slice block source) := by
  rw [blockCode, if_pos htrims, String.toList_ofList]

theorem exists_trimmed_of_application {source : String} {record : Application}
    (hrecord : application source = .ok record) :
    ∃ text, record.expression.toList = trimmed text := by
  obtain ⟨-, ⟨method, -, -, hcode⟩, -⟩ := application_eq_ok_iff.mp hrecord
  cases hbody : method.body with
  | block block statements =>
    rw [expression_of_block hbody] at hcode
    exact ⟨_, by rw [← Except.ok.inj hcode]; exact toList_blockCode rfl _ block statements⟩
  | expression =>
    rw [expression, hbody] at hcode
    cases hcode
  | missing =>
    rw [expression, hbody] at hcode
    exact ⟨[], by rw [← Except.ok.inj hcode]; rfl⟩

/-- Code that is extracted trimmed is the trimmed code of some text. -/
theorem Extracts.exists_trimmed {source code : String} (hcode : Extracts source code) :
    ∃ text, code.toList = trimmed text := by
  cases hcode with
  | behaviour hreturns =>
    obtain ⟨method, -, hholds⟩ := hreturns.exists_holds
    obtain ⟨block, statements, -, hexpression⟩ := hholds.code
    exact ⟨_, by rw [hexpression]; exact toList_blockCode rfl _ block statements⟩
  | application hrecord => exact exists_trimmed_of_application hrecord

/-- The trimmed code of a text is its interior without the blanks at its ends, and there is none
exactly where a brace is missing or the last closing one stands before the first opening one. In a
source whose brackets are paired the interior of a method's block is what its own two braces hold,
which is then the code in a data-access or an application file. All code extracted from such files
is the trimmed code of itself in braces. -/
theorem trimmed_interior :
    (∀ text inner, HasInterior text inner → Trims inner (trimmed text)) ∧
    (∀ text, ((∀ inner, ¬HasInterior text inner) ↔
        '\x7b' ∉ text ∨ '\x7d' ∉ text ∨ ClosesFirst text) ∧
      ((∀ inner, ¬HasInterior text inner) → trimmed text = [])) ∧
    (∀ (source : List Char) (method : Method) (span : Span) (statements : Option Span),
      (Forest.ofSource source).isPaired = true → method ∈ (Structure.ofSource source).methods →
      method.body = .block span statements →
      ∃ before content behind, isBlockContent content = true ∧
        source = braced before content behind ∧
        span = ⟨bytes before, bytes before + bytes content + 2⟩ ∧
        ∀ dialect ∈ [Dialect.dataAccess, Dialect.application], ∃ code,
          expression dialect source method = .ok code ∧ Trims content code.toList) ∧
    ∀ source code, Extracts source code → trimmed (wrapped code.toList) = code.toList := by
  refine ⟨fun text inner hinterior ↦ trims_iff.mpr (trimmed_of_hasInterior hinterior).symm,
    fun text ↦ ⟨forall_not_hasInterior_iff, trimmed_eq_nil⟩, ?_, ?_⟩
  · intro source method span statements hpaired hmethod hbody
    obtain ⟨before, content, behind, hcontent, rfl, rfl⟩ :=
      Structure.exists_content hpaired hmethod hbody
    refine ⟨before, content, behind, hcontent, rfl, rfl, fun dialect hdialect ↦ ?_⟩
    have htrims : dialect.trimsExpression = true := by
      revert hdialect
      cases dialect <;> decide
    refine ⟨_, expression_of_block hbody, ?_⟩
    rw [toList_blockCode htrims, slice_braced]
    exact trims_iff.mpr (trimmed_of_hasInterior (hasInterior_wrapped content)).symm
  · intro source code hcode
    obtain ⟨text, htext⟩ := hcode.exists_trimmed
    rw [htext, trimmed_wrapped_trimmed]

/-- Texts with braces before and behind the interior and in it, and a file with a brace in a
literal. -/
theorem trimmed_interior_literal :
    Trims " c \x7d d \x7b e ".toList (trimmed "a \x7d b \x7b c \x7d d \x7b e \x7d f".toList) ∧
      trimmed "a \x7d b \x7b c".toList = [] ∧
      (∃ content code, expression .dataAccess
          "class C \x7b void M() \x7b\n s = \"\x7d\"; \u2003\x7d \x7d".toList
          ⟨"M", 1, .block ⟨19, 35⟩ (some ⟨22, 30⟩), []⟩ = .ok code ∧
        isBlockContent content = true ∧ Trims content code.toList) ∧
      trimmed (wrapped "s = \"\x7d\";".toList) = "s = \"\x7d\";".toList := by
  obtain ⟨hinterior, hnone, hblock, hcode⟩ := trimmed_interior
  refine ⟨?_, ?_, ?_, ?_⟩
  · exact hinterior _ _
      ⟨"a \x7d b ".toList, " f".toList, by decide +kernel, by decide +kernel, by decide +kernel⟩
  · refine (hnone _).2 ((hnone _).1.mpr (.inr (.inr ⟨"a ".toList, " b ".toList, " c".toList, ?_⟩)))
    exact ⟨by decide +kernel, by decide +kernel, by decide +kernel⟩
  · obtain ⟨_, content, _, hcontent, -, -, hdialects⟩ := hblock
      "class C \x7b void M() \x7b\n s = \"\x7d\"; \u2003\x7d \x7d".toList
      ⟨"M", 1, .block ⟨19, 35⟩ (some ⟨22, 30⟩), []⟩ _ _ (by decide +kernel) (by decide +kernel) rfl
    obtain ⟨code, hexpression, htrims⟩ := hdialects .dataAccess (by decide)
    exact ⟨content, code, hexpression, hcontent, htrims⟩
  · have hrecord : application
        "namespace N \x7b class C \x7b void M() \x7b\n s = \"\x7d\"; \u2003\x7d \x7d \x7d" =
          .ok ⟨"N", "M", "", "s = \"\x7d\";", []⟩ := by decide +kernel
    exact hcode _ _ (.application hrecord)

end Extraction

end Conform
