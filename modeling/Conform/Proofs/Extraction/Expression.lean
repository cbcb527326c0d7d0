import Conform.Expression
import Conform.Proofs.Source.Shift
import Conform.Proofs.Text.Line

/-!
The code of a block, wherever the block stands. The laid-out code lies in its block
(`Expression.stop_layout_le`), so it does not depend on what stands around the block
(`Source.Method.texts_append`, `Source.Method.texts_shift`).
-/

set_option autoImplicit false

namespace Conform

namespace Expression

open Text

/-! ### Line ends -/

variable {start stop : Nat} {cs : List Char}

theorem lineEnd?_eq_some (hstop : lineEnd? start cs = some stop) :
    ∃ line rest, '\n' ∉ line ∧ cs = line ++ '\n' :: rest ∧ stop = start + bytes line + 1 := by
  obtain ⟨⟨line, rest⟩, hline, rfl⟩ := Option.map_eq_some_iff.mp hstop
  obtain ⟨hfeed, hcs⟩ := cutFirst_singleton hline
  exact ⟨line, rest, hfeed, hcs, rfl⟩

theorem lineEnd?_bounds (hstop : lineEnd? start cs = some stop) :
    start < stop ∧ stop ≤ start + bytes cs := by
  obtain ⟨line, rest, -, rfl, rfl⟩ := lineEnd?_eq_some hstop
  have hfeed : '\n'.utf8Size = 1 := by decide
  rw [bytes_append, bytes_cons, hfeed]
  omega

theorem lineEnd?_add (offset : Nat) :
    lineEnd? (offset + start) cs = (lineEnd? start cs).map (offset + ·) := by
  unfold lineEnd?
  cases cutFirst ['\n'] cs with
  | none => rfl
  | some parts => simp [Nat.add_assoc]

theorem lineEnd?_slice_bounds {source : List Char} {inner : Nat}
    (hstop : lineEnd? start (slice ⟨start, inner⟩ source) = some stop) :
    start < stop ∧ stop ≤ inner := by
  have hbounds := lineEnd?_bounds hstop
  have hbytes := bytes_slice_le ⟨start, inner⟩ source
  dsimp only at hbytes
  omega

/-- A line feed that is read in a span stands before the byte behind it. -/
theorem split_of_lineEnd? {source : List Char} {span : Span} {behind : Nat}
    (hend : lineEnd? span.start (slice span source) = some behind) :
    ∃ front back, source = front ++ '\n' :: back ∧ bytes (front ++ ['\n']) = behind := by
  obtain ⟨line, rest, -, hslice, rfl⟩ := lineEnd?_eq_some hend
  have hne : slice span source ≠ [] := by simp [hslice]
  obtain ⟨front, back, hsource, hfront⟩ := slice_split hne
  have hfeed : bytes ['\n'] = 1 := by decide
  refine ⟨front ++ line, rest ++ back, ?_, ?_⟩
  · rw [hsource, hslice]
    simp
  · rw [bytes_append, bytes_append, hfront, hfeed]

/-- Assumes: a line feed in the front part of a span. The first line end of the span is there. -/
theorem lineEnd?_slice_le {source : List Char} {middle : Nat} (hstart : IsCut source start)
    (hmiddle : IsCut source middle) (hstop : IsCut source stop) (hle : middle ≤ stop)
    (hfeed : '\n' ∈ slice ⟨start, middle⟩ source) :
    ∃ behind, lineEnd? start (slice ⟨start, stop⟩ source) = some behind ∧ behind ≤ middle := by
  have hfront := bytes_slice_le ⟨start, middle⟩ source
  have hpositive := bytes_pos (List.ne_nil_of_mem hfeed)
  dsimp only at hfront
  rw [slice_append_slice hstart hmiddle hstop (by omega) hle]
  obtain ⟨line, rest, hslice, hline⟩ := List.eq_append_cons_of_mem hfeed
  have hwidth : '\n'.utf8Size = 1 := by decide
  rw [hslice, bytes_append, bytes_cons, hwidth] at hfront
  refine ⟨start + bytes line + 1, ?_, by omega⟩
  have hcut := cutFirst_append hline [] (rest ++ slice ⟨middle, stop⟩ source)
  rw [hslice, lineEnd?, List.append_assoc, List.cons_append]
  exact congrArg (Option.map _) hcut

/-! ### The span of the laid-out code -/

section Layout

variable (source : List Char) (block statements : Span)

theorem start_layout : (layout source block statements).start =
    (lineEnd? (block.start + 1) (slice ⟨block.start + 1, statements.start⟩ source)).getD
      statements.start := rfl

theorem stop_layout : (layout source block statements).stop =
    (lineEnd? statements.stop (slice ⟨statements.stop, block.stop - 1⟩ source)).getD
      statements.stop := rfl

theorem start_layout_le : (layout source block statements).start ≤ statements.start := by
  rw [start_layout]
  cases hstart : lineEnd? (block.start + 1)
      (slice ⟨block.start + 1, statements.start⟩ source) with
  | none => exact Nat.le_refl _
  | some start => exact (lineEnd?_slice_bounds hstart).2

theorem le_stop_layout : statements.stop ≤ (layout source block statements).stop := by
  rw [stop_layout]
  cases hstop : lineEnd? statements.stop
      (slice ⟨statements.stop, block.stop - 1⟩ source) with
  | none => exact Nat.le_refl _
  | some stop => exact Nat.le_of_lt (lineEnd?_slice_bounds hstop).1

theorem stop_layout_le (hstatements : statements.stop ≤ block.stop) :
    (layout source block statements).stop ≤ block.stop := by
  rw [stop_layout]
  cases hstop : lineEnd? statements.stop
      (slice ⟨statements.stop, block.stop - 1⟩ source) with
  | none => exact hstatements
  | some stop => exact Nat.le_trans (lineEnd?_slice_bounds hstop).2 (Nat.sub_le _ _)

end Layout

section Feed

variable {source : List Char} {block statements : Span} {byte : Nat}

/-- A line feed behind the opening brace starts the laid-out code. -/
theorem start_layout_le_of_feed (hopens : IsCut source (block.start + 1))
    (hbyte : IsCut source byte) (hstart : IsCut source statements.start)
    (hle : byte ≤ statements.start) (hfeed : '\n' ∈ slice ⟨block.start + 1, byte⟩ source) :
    (layout source block statements).start ≤ byte := by
  obtain ⟨behind, hend, hbehind⟩ := lineEnd?_slice_le hopens hbyte hstart hle hfeed
  rw [start_layout, hend]
  exact hbehind

/-- A line feed behind the statements stops the laid-out code. -/
theorem stop_layout_le_of_feed (hstop : IsCut source statements.stop)
    (hbyte : IsCut source byte) (hcloses : IsCut source (block.stop - 1))
    (hle : byte ≤ block.stop - 1) (hfeed : '\n' ∈ slice ⟨statements.stop, byte⟩ source) :
    (layout source block statements).stop ≤ byte := by
  obtain ⟨behind, hend, hbehind⟩ := lineEnd?_slice_le hstop hbyte hcloses hle hfeed
  rw [stop_layout, hend]
  exact hbehind

/-- What is taken for a line end is no part of a character. -/
theorem isCut_getD_lineEnd? {span : Span} {other : Nat} (hother : IsCut source other) :
    IsCut source ((lineEnd? span.start (slice span source)).getD other) := by
  cases hend : lineEnd? span.start (slice span source) with
  | none => exact hother
  | some behind =>
    obtain ⟨front, back, rfl, hfront⟩ := split_of_lineEnd? hend
    exact ⟨front ++ ['\n'], ⟨back, by simp⟩, hfront⟩

end Feed

section Place

variable {front : List Char} {block : Span} (back : List Char)

/-- What follows a block has no part in its code. -/
theorem laidOut_append_of_le (hblock : block.stop ≤ bytes front) {statements : Option Span}
    (hstatements : ∀ span ∈ statements, span.start ≤ block.stop ∧ span.stop ≤ block.stop) :
    laidOut (front ++ back) block statements = laidOut front block statements := by
  cases statements with
  | none => rfl
  | some statements =>
    obtain ⟨hstart, hstop⟩ := hstatements statements rfl
    have hlayout : layout (front ++ back) block statements = layout front block statements := by
      unfold layout
      dsimp only
      rw [slice_append_of_le (Nat.le_trans hstart hblock),
        slice_append_of_le (Nat.le_trans (Nat.sub_le _ _) hblock)]
    rw [laidOut, laidOut, hlayout]
    have hbound := stop_layout_le front block statements hstop
    exact slice_append_of_le (Nat.le_trans hbound hblock) back

/-- What precedes a block has no part in its code. -/
theorem laidOut_shift {place : Source.Place} (hplace : place.byte = bytes front)
    (hblock : 0 < block.stop) (statements : Option Span) :
    laidOut (front ++ back) (block.shift place) (statements.map (Span.shift place)) =
      laidOut back block statements := by
  cases statements with
  | none => rfl
  | some statements =>
    have hslice : ∀ span : Span, slice (span.shift place) (front ++ back) = slice span back := by
      intro span
      rw [Span.shift, hplace, slice_shift]
    have hlayout : layout (front ++ back) (block.shift place) (statements.shift place) =
        (layout back block statements).shift place := by
      have hgap := hslice ⟨block.start + 1, statements.start⟩
      have hrest := hslice ⟨statements.stop, block.stop - 1⟩
      simp only [Span.shift] at hgap hrest
      simp only [layout, Span.shift, Nat.add_assoc place.byte, Nat.add_sub_assoc hblock, hgap,
        hrest, lineEnd?_add, Option.getD_map]
    rw [Option.map_some, laidOut, laidOut, hlayout, hslice]

end Place

end Expression

/-! ### The texts of a method -/

namespace Source.Method

/-- The text of the block of a method and the two forms of its code, if it has a block. -/
def texts (source : List Char) (method : Method) : Option (List Char × List Char × List Char) :=
  match method.body with
  | .block span statements =>
    some (Text.slice span source, Expression.trimmed (Text.slice span source),
      Expression.laidOut source span statements)
  | _ => none

/-- What follows the block of a method has no part in its texts. -/
theorem texts_append_of_le {front : List Char} {method : Method}
    (hbody : ∀ span statements, method.body = .block span statements →
      span.stop ≤ Text.bytes front ∧
        ∀ inner ∈ statements, inner.start ≤ span.stop ∧ inner.stop ≤ span.stop)
    (back : List Char) : method.texts (front ++ back) = method.texts front := by
  unfold texts
  split
  · rename_i span statements hblock
    obtain ⟨hspan, hstatements⟩ := hbody span statements hblock
    rw [Text.slice_append_of_le hspan, Expression.laidOut_append_of_le back hspan hstatements]
  · rfl

/-- What precedes the block of a method has no part in its texts. -/
theorem texts_shift {front : List Char} {place : Place} (hplace : place.byte = Text.bytes front)
    {method : Method}
    (hbody : ∀ span statements, method.body = .block span statements → 0 < span.stop)
    (back : List Char) : (method.shift place).texts (front ++ back) = method.texts back := by
  obtain ⟨identifier, line, body, docs⟩ := method
  cases body with
  | block span statements =>
    have hslice : Text.slice (span.shift place) (front ++ back) = Text.slice span back := by
      rw [Span.shift, hplace, Text.slice_shift]
    simp only [texts, shift, Body.shift, hslice,
      Expression.laidOut_shift back hplace (hbody span statements rfl)]
  | _ => rfl

end Source.Method

end Conform
