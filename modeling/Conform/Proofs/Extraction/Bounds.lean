import Conform.Proofs.Extraction.Layout
import Conform.Proofs.Source.Order

/-!
The spans that a source file reports. Each block of a method lies in the source between two braces,
and around its statements (`Structure.isSound`); the blocks of several methods stand one behind the
other, in the order of the methods, and so do their lines (`Structure.spans_wellFormed`).
-/

set_option autoImplicit false

namespace Conform.Source

open Text Expression

/-- The spans of a block can be read: the block from its opening brace to its closing one, and the
statements, which are not empty, between the two. -/
structure Body.IsSound (source : List Char) (block : Span) (statements : Option Span) : Prop where
  start : IsCut source block.start
  stop : IsCut source block.stop
  within : block.stop ≤ bytes source
  opens : ['\x7b'] <+: slice block source
  closes : ['\x7d'] <:+ slice block source
  statements : ∀ inner ∈ statements, Encloses source block inner ∧ inner.start < inner.stop

/-- A method stands before another one: the other one does not start at an earlier line, and if both
have blocks, these are apart. -/
structure Method.Precedes (earlier later : Method) : Prop where
  line : earlier.line ≤ later.line
  block : ∀ block statements other more, earlier.body = .block block statements →
    later.body = .block other more → block.stop ≤ other.start

namespace Structure

variable {source : List Char}

section Paired

variable (hpaired : (Forest.ofSource source).isPaired = true)
include hpaired

theorem isSound {method : Method} (hmethod : method ∈ (ofSource source).methods) {block : Span}
    {statements : Option Span} (hbody : method.body = .block block statements) :
    Body.IsSound source block statements := by
  obtain ⟨before, content, behind, -, hsource, hblock⟩ := exists_content hpaired hmethod hbody
  have hslice : slice block source = wrapped content := by
    rw [hblock, hsource, slice_braced]
  have hopens : ['\x7b'] <+: slice block source := ⟨content ++ ['\x7d'], hslice.symm⟩
  have hcloses : ['\x7d'] <:+ slice block source := ⟨'\x7b' :: content, hslice.symm⟩
  obtain ⟨hstart, -, -, hstop, -⟩ := block_cuts hslice
  refine ⟨hstart, hstop, hstop.le_bytes, hopens, hcloses, fun inner hinner ↦ ?_⟩
  obtain rfl := Option.mem_def.mp hinner
  obtain ⟨-, hbounds⟩ := block_bounds hpaired hmethod hbody
  obtain ⟨hbehind, hfilled, hbefore⟩ := hbounds inner rfl
  obtain ⟨hfirst, hlast⟩ := statements_boundaries hpaired hmethod hbody
  exact ⟨⟨hopens, hcloses, hfirst.isCut, hlast.isCut, hbehind, hfilled.le, hbefore⟩, hfilled⟩

/-- The blocks of two methods stand in the order of the methods. -/
theorem block_stop_le_start {front rest : List Method} {earlier later : Method}
    (hmethods : (ofSource source).methods = front ++ later :: rest) (hearlier : earlier ∈ front)
    {block other : Span} {statements more : Option Span}
    (hblock : earlier.body = .block block statements) (hother : later.body = .block other more) :
    block.stop ≤ other.start := by
  obtain ⟨context, content, _, -, -, hisolates, -⟩ :=
    exists_hole hpaired hmethods fun hblockless ↦ hblockless other more hother
  have hbefore := hisolates.before earlier hearlier block statements hblock
  obtain ⟨rfl, -⟩ := Body.block.inj (hisolates.body.symm.trans hother)
  exact hbefore

/-- The law of the reported spans. Assumes: a source whose brackets are paired. The block of a
method goes from a brace to a brace, its statements lie between them, and no bound cuts a character
or leaves the source; of two methods the earlier one does not start at a later line, and its block
stops before the other one starts. -/
theorem spans_wellFormed :
    (∀ method ∈ (ofSource source).methods, ∀ block statements,
      method.body = .block block statements → Body.IsSound source block statements) ∧
    (ofSource source).methods.Pairwise Method.Precedes := by
  refine ⟨fun method hmethod block statements hbody ↦ isSound hpaired hmethod hbody, ?_⟩
  refine List.pairwise_iff_forall_sublist.mpr fun {earlier later} hpair ↦ ?_
  have hline := List.pairwise_iff_forall_sublist.mp (pairwise_line source) hpair
  -- The hole of the later method bounds the blocks of all methods in front of it.
  obtain ⟨front, back, hmethods, hearlier, hlater⟩ := List.cons_sublist_iff.mp hpair
  obtain ⟨between, rest, rfl⟩ := List.append_of_mem (List.singleton_sublist.mp hlater)
  refine ⟨hline, fun block statements other more hblock hother ↦ ?_⟩
  rw [← List.append_assoc] at hmethods
  exact block_stop_le_start hpaired hmethods (List.mem_append_left between hearlier) hblock hother

end Paired

/-- A file with a byte order mark, a character of several bytes and a brace in a literal, and a type
within a type. -/
theorem spans_wellFormed_nested :
    Body.IsSound
        "\ufeffclass\nC\x7bint M()\x7b\"\u2003\x7d\";\x7d class D\x7bint N()\x7b\x7d\x7d\x7d".toList
        ⟨18, 27⟩ (some ⟨19, 26⟩) ∧
      Method.Precedes ⟨"M", 2, .block ⟨18, 27⟩ (some ⟨19, 26⟩), []⟩
        ⟨"N", 2, .block ⟨43, 45⟩ none, []⟩ := by
  obtain ⟨hsound, horder⟩ := @spans_wellFormed
    "\ufeffclass\nC\x7bint M()\x7b\"\u2003\x7d\";\x7d class D\x7bint N()\x7b\x7d\x7d\x7d".toList
    (by decide +kernel)
  refine ⟨hsound ⟨"M", 2, _, []⟩ (by decide +kernel) _ _ rfl, ?_⟩
  exact List.pairwise_iff_forall_sublist.mp horder (by decide +kernel)

end Structure

end Conform.Source
