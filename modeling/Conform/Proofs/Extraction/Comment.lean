import Conform.Proofs.Extraction.Block
import Conform.Proofs.Extraction.Expression

/-!
Where the laid-out code of a block cuts a comment. The code starts behind the first line feed before
the statements and stops behind the first one after them. Both are looked for in the bare text, so
the code is cut where such a line feed stands in a comment, and nowhere else
(`Expression.cutsComment_layout_iff`).
-/

set_option autoImplicit false

namespace Conform.Expression

open Source Text

/-- A byte of a source stands in a comment: the comment starts before it and stops behind it. -/
def CutsComment (source : List Char) (byte : Nat) : Prop :=
  ∃ comment ∈ Token.ofSource source, comment.kind = .comment ∧
    comment.start < byte ∧ byte < comment.stop

/-- The first line feed in a span of a source belongs to a comment. -/
def FeedsInComment (source : List Char) (span : Span) : Prop :=
  ∃ comment ∈ Token.ofSource source, comment.kind = .comment ∧
    ∃ behind ∈ lineEnd? span.start (slice span source),
      comment.start < behind ∧ behind ≤ comment.stop

instance (source : List Char) (byte : Nat) : Decidable (CutsComment source byte) :=
  inferInstanceAs (Decidable (∃ _ ∈ _, _))

instance (source : List Char) (span : Span) : Decidable (FeedsInComment source span) :=
  inferInstanceAs (Decidable (∃ _ ∈ _, _))

section Gap

variable {source : List Char}

/-- A comment does not stop behind a line feed. -/
theorem ne_stop_of_lineEnd? {comment : Token} (hcomment : comment ∈ Token.ofSource source)
    (hkind : comment.kind = .comment) {span : Span} (hspan : span.stop < bytes source)
    {behind : Nat} (hend : lineEnd? span.start (slice span source) = some behind)
    (hstart : comment.start < behind) : behind ≠ comment.stop := by
  intro hstop
  obtain ⟨before, lexeme, after, hlexemes, rfl⟩ := Token.mem_ofSource hcomment
  obtain ⟨front, back, hsource, hbytes⟩ := split_of_lineEnd? hend
  have hchars := Lexeme.flatMap_chars_ofChars source
  rw [hlexemes, List.flatMap_append, List.flatMap_cons] at hchars
  have hplace : behind = bytes (before.flatMap Lexeme.chars ++ lexeme.chars) := by
    rw [hstop, Lexeme.stop_at, ← Place.after_append]
    exact Nat.zero_add _
  have hstarts : front ++ ['\n'] = before.flatMap Lexeme.chars ++ lexeme.chars := by
    have happend : (front ++ ['\n']) ++ back =
        (before.flatMap Lexeme.chars ++ lexeme.chars) ++ after.flatMap Lexeme.chars := by
      rw [List.append_assoc, List.append_assoc, hchars, hsource]
      rfl
    exact append_inj_of_bytes happend (hbytes.trans hplace)
  have hafter : after ≠ [] := by
    rintro rfl
    have hwithin := (lineEnd?_slice_bounds hend).2
    rw [List.flatMap_nil, List.append_nil] at hchars
    rw [← hchars] at hspan
    omega
  rcases List.eq_nil_or_concat lexeme.chars with hnil | ⟨text, c, hlast⟩
  · rw [hnil, List.append_nil] at hplace
    have hzero : behind = (lexeme.at (({} : Place).after (before.flatMap Lexeme.chars))).start :=
      hplace.trans (Nat.zero_add _).symm
    omega
  · rw [List.concat_eq_append] at hlast
    rw [hlast, ← List.append_assoc] at hstarts
    obtain ⟨-, hfeed⟩ := List.append_inj' hstarts rfl
    cases hfeed
    exact absurd (Lexeme.comment_end hlexemes hafter hkind hlast) (by decide)

/-- What is taken for a line end in a gap stands in a comment just where the first line feed of the
gap does, if without a line feed a byte between two lexemes is taken. -/
theorem cutsComment_getD_iff (span : Span) (hspan : span.stop < bytes source) {other : Nat}
    (hother : IsBoundary (Lexeme.ofChars source) {} other) :
    CutsComment source ((lineEnd? span.start (slice span source)).getD other) ↔
      FeedsInComment source span := by
  constructor
  · rintro ⟨comment, hcomment, hkind, hstart, hstop⟩
    cases hend : lineEnd? span.start (slice span source) with
    | none =>
      rw [hend, Option.getD_none] at hstart hstop
      have hapart := Token.apart_of_boundary hcomment hother
      omega
    | some behind =>
      rw [hend, Option.getD_some] at hstart hstop
      exact ⟨comment, hcomment, hkind, behind, hend, hstart, Nat.le_of_lt hstop⟩
  · rintro ⟨comment, hcomment, hkind, behind, hend, hstart, hstop⟩
    refine ⟨comment, hcomment, hkind, ?_⟩
    rw [hend, Option.getD_some]
    exact ⟨hstart, Nat.lt_of_le_of_ne hstop (ne_stop_of_lineEnd? hcomment hkind hspan hend hstart)⟩

end Gap

/-- Assumes: a source whose brackets are paired and a block of a method in it that holds statements.
Its laid-out code starts in a comment just where the first line feed between the opening brace and
the statements belongs to one, and stops in a comment just where the first line feed between the
statements and the closing brace does. -/
theorem cutsComment_layout_iff {source : List Char}
    (hpaired : (Forest.ofSource source).isPaired = true) {method : Method}
    (hmethod : method ∈ (Structure.ofSource source).methods) {block statements : Span}
    (hbody : method.body = .block block (some statements)) :
    (CutsComment source (layout source block statements).start ↔
      FeedsInComment source ⟨block.start + 1, statements.start⟩) ∧
    (CutsComment source (layout source block statements).stop ↔
      FeedsInComment source ⟨statements.stop, block.stop - 1⟩) := by
  obtain ⟨hstart, hstop⟩ := Structure.statements_boundaries hpaired hmethod hbody
  obtain ⟨-, hbounds⟩ := Structure.block_bounds hpaired hmethod hbody
  have hblock := Structure.block_stop_le hpaired hmethod hbody
  have hinner := hbounds statements rfl
  exact ⟨cutsComment_getD_iff ⟨block.start + 1, statements.start⟩ (by dsimp only; omega) hstart,
    cutsComment_getD_iff ⟨statements.stop, block.stop - 1⟩ (by dsimp only; omega) hstop⟩

/-- A comment over two lines in front of the statements is cut. -/
theorem not_forall_not_cutsComment :
    ¬∀ (source : List Char) (method : Method) (block statements : Span),
      (Forest.ofSource source).isPaired = true → method ∈ (Structure.ofSource source).methods →
        method.body = .block block (some statements) →
          ¬CutsComment source (layout source block statements).start ∧
            ¬CutsComment source (layout source block statements).stop := by
  intro hall
  have hcut := hall "class C \x7b void M() \x7b /* a\n b */ x(); \x7d \x7d".toList
    ⟨"M", 1, .block ⟨19, 38⟩ (some ⟨32, 36⟩), []⟩ ⟨19, 38⟩ ⟨32, 36⟩ (by decide +kernel)
    (by decide +kernel) rfl
  exact hcut.1 (by decide +kernel)

/-- A comment on its own line is kept whole, one over two lines behind the statements is cut. -/
theorem cutsComment_layout_behind :
    ¬CutsComment "class C \x7b void M() \x7b // a\n x(); /* b\n */ \x7d \x7d".toList 26 ∧
      CutsComment "class C \x7b void M() \x7b // a\n x(); /* b\n */ \x7d \x7d".toList 37 := by
  have hpaired : (Forest.ofSource
      "class C \x7b void M() \x7b // a\n x(); /* b\n */ \x7d \x7d".toList).isPaired = true := by
    decide +kernel
  have hmethod : ⟨"M", 1, .block ⟨19, 42⟩ (some ⟨27, 31⟩), []⟩ ∈
      (Structure.ofSource
        "class C \x7b void M() \x7b // a\n x(); /* b\n */ \x7d \x7d".toList).methods := by
    decide +kernel
  obtain ⟨hstart, hstop⟩ := cutsComment_layout_iff hpaired hmethod rfl
  exact ⟨fun hcut ↦ absurd (hstart.mp hcut) (by decide +kernel), hstop.mpr (by decide +kernel)⟩

end Conform.Expression
