import Conform.Proofs.Extraction.Block
import Conform.Proofs.Extraction.Expression
import Conform.Proofs.Extraction.Selection
import Conform.Proofs.Source.Coverage

/-!
What extraction keeps of a block. The laid-out code of a block reaches to its last direct statement,
so it holds all code but that in the conditional groups behind this statement, and a block without a
direct statement is dropped, whatever its groups hold (`Extraction.behaviours_hold_iff`).
-/

set_option autoImplicit false

namespace Conform

open Source

/-! ### Conditional groups of a block -/

/-- A token stands behind a directive of a conditional group, which itself stands behind all direct
statements of its block. -/
def Source.Token.Trails (source : List Char) (block : Span) (statements : Option Span)
    (token : Token) : Prop :=
  ∃ directive ∈ Token.inside source block, directive.isBranch = true ∧
    directive.stop ≤ token.start ∧ ∀ inner ∈ statements, inner.stop ≤ directive.start

/-- Every directive of a conditional group in a block stands below the line of the opening brace,
and below the last line of the direct statements if it stands behind them. A directive has a line
for itself, so this is how blocks are written where line feeds end the lines. -/
def Source.Body.SplitsLines (source : List Char) (block : Span) (statements : Option Span) : Prop :=
  ∀ directive ∈ Token.inside source block, directive.isBranch = true →
    '\n' ∈ Text.slice ⟨block.start + 1, directive.start⟩ source ∧
      ∀ inner ∈ statements, inner.stop ≤ directive.start →
        '\n' ∈ Text.slice ⟨inner.stop, directive.start⟩ source

instance (source : List Char) (block : Span) (statements : Option Span) :
    Decidable (Body.SplitsLines source block statements) :=
  inferInstanceAs (Decidable (∀ _ ∈ _, _))

namespace Source.Structure

variable {source : List Char} {method : Method} {block : Span} {statements : Option Span}

theorem mem_ofSource_of_inside {token : Token} (htoken : token ∈ Token.inside source block) :
    token ∈ Token.ofSource source ∧ block.start < token.start ∧ token.stop < block.stop := by
  simpa [Token.inside] using htoken

/-- Each token of a block that is no trivia is accounted for. -/
theorem isAccounted_inside (hpaired : (Forest.ofSource source).isPaired = true)
    (hmethod : method ∈ (ofSource source).methods) (hbody : method.body = .block block statements)
    {token : Token} (htoken : token ∈ Token.inside source block)
    (htrivia : token.isTrivia = false) :
    IsAccounted (Token.inside source block) statements token := by
  obtain ⟨context, content, hplain, hfilled, hlexemes, hblock⟩ :=
    exists_block hpaired hmethod hbody
  have hinside := mem_inside_iff hlexemes hblock
  obtain ⟨-, rfl⟩ := Body.block.inj hblock
  rw [Forest.statements?_eq_hull]
  have haccounted := (Row.isAccountedFrom hplain hfilled { content := .statements }
    ((hinside token).mp htoken) htrivia).resolve_right fun hfree ↦ Bool.noConfusion hfree.1
  exact haccounted.mono fun other hother ↦ (hinside other).mpr hother

/-- Assumes: directives on lines of their own. The laid-out code of a block ends before a conditional
group behind the direct statements. -/
theorem stop_layout_le_of_trails (hpaired : (Forest.ofSource source).isPaired = true)
    (hmethod : method ∈ (ofSource source).methods) {inner : Span}
    (hbody : method.body = .block block (some inner))
    (hlines : Body.SplitsLines source block (some inner)) {token : Token}
    (htrails : token.Trails source block (some inner)) :
    (Expression.layout source block inner).stop ≤ token.start := by
  obtain ⟨directive, hdirective, hbranch, hbehind, hcode⟩ := htrails
  obtain ⟨hmem, -, hwithin⟩ := mem_ofSource_of_inside hdirective
  have hwidth := Token.start_lt_stop hmem
  obtain ⟨-, hcloses⟩ := block_boundaries hpaired hmethod hbody
  obtain ⟨-, hstop⟩ := statements_boundaries hpaired hmethod hbody
  have hend := Expression.stop_layout_le_of_feed hstop.isCut (Token.isCut_start hmem)
    hcloses.isCut (by omega) ((hlines directive hdirective hbranch).2 inner rfl (hcode inner rfl))
  omega

/-- Assumes: directives on lines of their own. The laid-out code of a block begins before a
conditional group in front of the direct statements. -/
theorem start_layout_le_of_leads (hpaired : (Forest.ofSource source).isPaired = true)
    (hmethod : method ∈ (ofSource source).methods) {inner : Span}
    (hbody : method.body = .block block (some inner))
    (hlines : Body.SplitsLines source block (some inner)) {directive : Token}
    (hdirective : directive ∈ Token.inside source block) (hbranch : directive.isBranch = true)
    (hleads : directive.stop ≤ inner.start) :
    (Expression.layout source block inner).start ≤ directive.start := by
  obtain ⟨hmem, -, -⟩ := mem_ofSource_of_inside hdirective
  have hwidth := Token.start_lt_stop hmem
  obtain ⟨hopens, -⟩ := block_boundaries hpaired hmethod hbody
  obtain ⟨hstart, -⟩ := statements_boundaries hpaired hmethod hbody
  exact Expression.start_layout_le_of_feed hopens.isCut (Token.isCut_start hmem) hstart.isCut
    (by omega) (hlines directive hdirective hbranch).1

/-- Assumes: directives on lines of their own. The laid-out code of a block holds just the code that
does not trail in a conditional group. -/
theorem holds_iff_not_trails (hpaired : (Forest.ofSource source).isPaired = true)
    (hmethod : method ∈ (ofSource source).methods) (hbody : method.body = .block block statements)
    (hlines : Body.SplitsLines source block statements) {token : Token}
    (htoken : token ∈ Token.inside source block) (htrivia : token.isTrivia = false) :
    (∃ inner ∈ statements, (Expression.layout source block inner).start ≤ token.start ∧
        token.stop ≤ (Expression.layout source block inner).stop) ↔
      ¬token.Trails source block statements := by
  have hwidth := Token.start_lt_stop (mem_ofSource_of_inside htoken).1
  constructor
  · rintro ⟨inner, rfl, -, hheld⟩ htrails
    have hend := stop_layout_le_of_trails hpaired hmethod hbody hlines htrails
    omega
  · intro hkept
    rcases isAccounted_inside hpaired hmethod hbody htoken htrivia with
      ⟨inner, rfl, hstart, hstop⟩ | ⟨directive, hdirective, hbranch, hbehind, hapart⟩
    · exact ⟨inner, rfl, Nat.le_trans (Expression.start_layout_le source block inner) hstart,
        Nat.le_trans hstop (Expression.le_stop_layout source block inner)⟩
    · cases statements with
      | none => exact absurd ⟨directive, hdirective, hbranch, hbehind, by simp⟩ hkept
      | some inner =>
        rcases hapart inner rfl with hbefore | hafter
        · refine absurd ⟨directive, hdirective, hbranch, hbehind, ?_⟩ hkept
          rintro _ ⟨⟩
          exact hbefore
        · have horder := Token.start_lt_stop (mem_ofSource_of_inside hdirective).1
          have hbegin := start_layout_le_of_leads hpaired hmethod hbody hlines hdirective hbranch
            (by omega)
          have hend := Expression.le_stop_layout source block inner
          have hinner := (block_bounds hpaired hmethod hbody).2 inner rfl
          exact ⟨inner, rfl, by omega, by omega⟩

/-- The laid-out code of a block with direct statements is not empty. -/
theorem slice_layout_ne_nil (hpaired : (Forest.ofSource source).isPaired = true)
    (hmethod : method ∈ (ofSource source).methods) {inner : Span}
    (hbody : method.body = .block block (some inner)) :
    Text.slice (Expression.layout source block inner) source ≠ [] := by
  obtain ⟨hstart, hstop⟩ := statements_boundaries hpaired hmethod hbody
  have hwidth := ((block_bounds hpaired hmethod hbody).2 inner rfl).2.1
  have hbegin := Expression.start_layout_le source block inner
  have hend := Expression.le_stop_layout source block inner
  obtain ⟨-, -, -, -, hbytes⟩ := @Text.exists_slice source
    (Expression.layout source block inner).start (Expression.layout source block inner).stop
    (Expression.isCut_getD_lineEnd? hstart.isCut) (Expression.isCut_getD_lineEnd? hstop.isCut)
    (by omega)
  intro hnil
  rw [hnil, Text.bytes] at hbytes
  omega

end Source.Structure

namespace Extraction

variable {dialect : Dialect} {source : List Char}

/-- Assumes: no method is refused. All behaviours of the methods are found. -/
theorem exists_behavioursOf {methods : List Method}
    (hmethods : ∀ method ∈ methods, ∃ kept, behaviour? dialect source method = .ok kept) :
    ∃ found, behavioursOf dialect source methods = .ok found ∧
      ∀ method ∈ methods, ∀ behaviour,
        behaviour? dialect source method = .ok (some behaviour) → behaviour ∈ found := by
  have hfine : ∀ method ∈ methods, ¬ Offends dialect method := by
    intro method hmem hoffends
    obtain ⟨kept, hkept⟩ := hmethods method hmem
    rw [behaviour?_eq, if_pos hoffends] at hkept
    cases hkept
  refine ⟨_, behavioursOf_of_forall hfine, fun method hmem behaviour hbehaviour ↦ ?_⟩
  rw [behaviour?_eq, if_neg (hfine method hmem), Except.ok.injEq] at hbehaviour
  exact List.mem_filterMap.mpr ⟨method, hmem, hbehaviour⟩

/-- A method that the entity dialect knows becomes a behaviour if its code is not empty. -/
theorem exists_behaviour?_of_expression {method : Method}
    (hknown : (Dialect.entity.classify? method.identifier).isSome) {code : String}
    (hcode : expression .entity source method = .ok code) :
    ∃ kept, behaviour? .entity source method = .ok kept ∧
      kept.map Behaviour.expression = if code.isEmpty then none else some code := by
  obtain ⟨⟨hook, target⟩, hclass⟩ := Option.isSome_iff_exists.mp hknown
  rw [behaviour?, hclass]
  dsimp only
  rw [hcode]
  cases hempty : code.isEmpty with
  | true => exact ⟨none, by simp [bind, Except.bind, pure, Except.pure, hempty], rfl⟩
  | false =>
    exact ⟨some ⟨(describe .entity method).1, (describe .entity method).2, code, hook, target⟩,
      by simp [bind, Except.bind, pure, Except.pure, hempty], rfl⟩

/-- A method of an entity file is refused only for an expression body. -/
theorem exists_behaviour?_entity {method : Method}
    (hvalue : (Dialect.entity.classify? method.identifier).isSome → method.body ≠ .expression) :
    ∃ kept, behaviour? .entity source method = .ok kept := by
  have hfine : ¬ Offends .entity method := by
    rintro (⟨-, hstrict⟩ | ⟨hknown, hbody⟩)
    · exact absurd hstrict (by decide)
    · exact hvalue hknown hbody
  exact ⟨_, by rw [behaviour?_eq, if_neg hfine]⟩

/-- Assumes: a source whose brackets are paired, where no method that the entity dialect knows has
an expression body, and a block of a method in it that the dialect knows, with the directives of
conditional groups on lines of their own. Extraction succeeds. It drops the method just if the block
has no direct statement; else it finds a behaviour whose code is the laid-out code of the block. A
token of the block that is no trivia stands in this code just if no directive of a conditional group
stands between the direct statements and the token. -/
theorem behaviours_hold_iff {source : String}
    (hpaired : (Forest.ofSource source.toList).isPaired = true)
    (hvalue : ∀ method ∈ (Structure.ofSource source.toList).methods,
      (Dialect.entity.classify? method.identifier).isSome → method.body ≠ .expression)
    {method : Method} (hmethod : method ∈ (Structure.ofSource source.toList).methods)
    (hknown : (Dialect.entity.classify? method.identifier).isSome) {block : Span}
    {statements : Option Span} (hbody : method.body = .block block statements)
    (hlines : Body.SplitsLines source.toList block statements) :
    ∃ found kept, behaviours .entity source = .ok found ∧
      behaviour? .entity source.toList method = .ok kept ∧ (∀ behaviour ∈ kept, behaviour ∈ found) ∧
      kept.map Behaviour.expression = statements.map (fun inner ↦
        String.ofList (Text.slice (Expression.layout source.toList block inner) source.toList)) ∧
      ∀ token ∈ Token.inside source.toList block, token.isTrivia = false →
        ((∃ inner ∈ statements,
            (Expression.layout source.toList block inner).start ≤ token.start ∧
              token.stop ≤ (Expression.layout source.toList block inner).stop) ↔
          ¬token.Trails source.toList block statements) := by
  obtain ⟨found, hfound, hmem⟩ :=
    exists_behavioursOf fun other hother ↦ exists_behaviour?_entity (hvalue other hother)
  have hcode : expression .entity source.toList method =
      .ok (String.ofList (Expression.laidOut source.toList block statements)) := by
    rw [expression, hbody]
    rfl
  obtain ⟨kept, hkept, hexpression⟩ := exists_behaviour?_of_expression hknown hcode
  refine ⟨found, kept, hfound, hkept, ?_, ?_, fun token htoken htrivia ↦
    Structure.holds_iff_not_trails hpaired hmethod hbody hlines htoken htrivia⟩
  · rintro behaviour rfl
    exact hmem method hmethod behaviour hkept
  · rw [hexpression]
    cases statements with
    | none => rfl
    | some inner =>
      have hslice : Expression.laidOut source.toList block (some inner) ≠ [] :=
        Structure.slice_layout_ne_nil hpaired hmethod hbody
      rw [if_neg (by simpa [String.isEmpty_iff, String.ofList_eq_empty_iff] using hslice)]
      rfl

/-- A block with no code but that of a conditional group is dropped. -/
theorem not_forall_exists_behaviour? :
    ¬∀ (source : String) (method : Method) (block : Span) (statements : Option Span),
      (Forest.ofSource source.toList).isPaired = true →
      method ∈ (Structure.ofSource source.toList).methods →
      (Dialect.entity.classify? method.identifier).isSome →
      method.body = .block block statements → Body.SplitsLines source.toList block statements →
      (∃ token ∈ Token.inside source.toList block, token.isTrivia = false) →
        ∃ behaviour, behaviour? .entity source.toList method = .ok (some behaviour) := by
  intro hall
  obtain ⟨behaviour, hbehaviour⟩ := hall
    "class C \x7b void ExecuteBeforeSave() \x7b\n#if A\nx();\n#endif\n\x7d \x7d"
    ⟨"ExecuteBeforeSave", 1, .block ⟨35, 56⟩ none, []⟩ ⟨35, 56⟩ none (by decide +kernel)
    (by decide +kernel) (by decide +kernel) rfl (by decide +kernel) (by decide +kernel)
  have hdropped : behaviour? .entity
      "class C \x7b void ExecuteBeforeSave() \x7b\n#if A\nx();\n#endif\n\x7d \x7d".toList
      ⟨"ExecuteBeforeSave", 1, .block ⟨35, 56⟩ none, []⟩ = .ok none := rfl
  rw [hdropped] at hbehaviour
  cases hbehaviour

/-- The group in front of the direct statements is kept, the one behind them is not. -/
theorem behaviours_hold_front :
    ∃ found, behaviours .entity
        "class C \x7b void GetX() \x7b\n#if A\nx();\n#endif\ny();\n#if B\nz();\n#endif\n\x7d \x7d" =
          .ok found ∧
      ∃ behaviour ∈ found, behaviour.expression = "#if A\nx();\n#endif\ny();\n" := by
  obtain ⟨found, kept, hfound, -, hkept, hexpression, -⟩ := @behaviours_hold_iff
    "class C \x7b void GetX() \x7b\n#if A\nx();\n#endif\ny();\n#if B\nz();\n#endif\n\x7d \x7d"
    (by decide +kernel) (by decide +kernel) ⟨"GetX", 1, .block ⟨22, 66⟩ (some ⟨42, 46⟩), []⟩
    (by decide +kernel) (by decide +kernel) ⟨22, 66⟩ (some ⟨42, 46⟩) rfl (by decide +kernel)
  obtain ⟨behaviour, rfl, hcode⟩ := Option.map_eq_some_iff.mp hexpression
  refine ⟨found, hfound, behaviour, hkept behaviour rfl, hcode.trans ?_⟩
  decide +kernel

end Extraction

end Conform
