import Conform.Proofs.Extraction.Expression
import Conform.Proofs.Extraction.Interior

/-!
The laid-out code of a block against its trimmed code. The laid-out code is a stretch of what the
braces hold, with all of the statements in it; on either side it goes as far as a line end, if there
is one between the statements and the brace (`Expression.lays_iff`). So it differs from the
statements by what stands next to them alone, and where this is blank, trimming it leaves the
trimmed code of the block (`Expression.laidOut_between_braces`).
-/

set_option autoImplicit false

namespace Conform.Expression

open Text

/-- A block starts with an opening brace and stops with a closing one, and the statements stand
between the two. No bound cuts a character. -/
structure Encloses (source : List Char) (block statements : Span) : Prop where
  opens : ['\x7b'] <+: slice block source
  closes : ['\x7d'] <:+ slice block source
  start : IsCut source statements.start
  stop : IsCut source statements.stop
  behind : block.start + 1 ≤ statements.start
  forward : statements.start ≤ statements.stop
  before : statements.stop + 1 ≤ block.stop

/-- The byte behind the first line feed of a span, or some other byte if the span has none. -/
inductive EndsLine (source : List Char) (span : Span) (other : Nat) : Nat → Prop where
  | found {byte : Nat} {line : List Char} (hline : '\n' ∉ line) (hbyte : byte ≤ span.stop)
      (hslice : slice ⟨span.start, byte⟩ source = line ++ ['\n']) : EndsLine source span other byte
  | missing (hfeed : '\n' ∉ slice span source) : EndsLine source span other other

/-- Where the code of a block starts and where it stops. -/
structure Lays (source : List Char) (block statements code : Span) : Prop where
  start : EndsLine source ⟨block.start + 1, statements.start⟩ statements.start code.start
  stop : EndsLine source ⟨statements.stop, block.stop - 1⟩ statements.stop code.stop

/-! ### The bounds of a block -/

theorem exists_wrapped {text : List Char} (hopens : ['\x7b'] <+: text)
    (hcloses : ['\x7d'] <:+ text) : ∃ inner, text = wrapped inner := by
  obtain ⟨rest, rfl⟩ := hopens
  obtain ⟨front, hfront⟩ := hcloses
  cases front with
  | nil => cases hfront
  | cons c inner =>
    obtain ⟨rfl, hinner⟩ := List.cons.inj hfront
    exact ⟨inner, congrArg ('\x7b' :: ·) hinner.symm⟩

theorem bytes_wrapped (inner : List Char) : bytes (wrapped inner) = bytes inner + 2 := by
  have hbraces : '\x7b'.utf8Size = 1 ∧ '\x7d'.utf8Size = 1 := by decide
  simp only [wrapped, bytes_cons, bytes_append, bytes, hbraces]
  omega

section Bounds

variable {source inner : List Char} {block : Span}

/-- The bytes next to the braces of a block, and what stands between them. -/
theorem block_cuts (hblock : slice block source = wrapped inner) :
    IsCut source block.start ∧ IsCut source (block.start + 1) ∧ IsCut source (block.stop - 1) ∧
      IsCut source block.stop ∧ slice ⟨block.start + 1, block.stop - 1⟩ source = inner := by
  have hne : slice block source ≠ [] := by simp [hblock, wrapped]
  obtain ⟨front, back, hsource, hstart⟩ := slice_split hne
  have hstop := bytes_slice hne
  have hbraces : bytes ['\x7b'] = 1 ∧ bytes ['\x7d'] = 1 := by decide
  rw [hblock] at hsource hstop
  rw [bytes_wrapped] at hstop
  have hopening : source = (front ++ ['\x7b']) ++ (inner ++ '\x7d' :: back) := by
    simp [hsource, wrapped]
  have hclosing : source = (front ++ '\x7b' :: inner) ++ '\x7d' :: back := by
    simp [hsource, wrapped]
  have hwhole : source = (front ++ wrapped inner) ++ back := by simp [hsource]
  refine ⟨⟨front, ⟨_, hsource.symm⟩, hstart⟩, ⟨_, ⟨_, hopening.symm⟩, ?_⟩,
    ⟨_, ⟨_, hclosing.symm⟩, ?_⟩, ⟨_, ⟨_, hwhole.symm⟩, ?_⟩, slice_eq hopening ?_ ?_⟩
  · rw [bytes_append, hstart, hbraces.1]
  · have hsize : bytes ('\x7b' :: inner) = 1 + bytes inner := rfl
    rw [bytes_append, hsize]
    omega
  · rw [bytes_append, bytes_wrapped]
    omega
  · rw [bytes_append, hstart, hbraces.1]
  · omega

end Bounds

/-- The bytes next to the braces of an enclosing block, and the block as what stands between them. -/
theorem Encloses.interior {source : List Char} {block statements : Span}
    (hencloses : Encloses source block statements) :
    IsCut source (block.start + 1) ∧ IsCut source (block.stop - 1) ∧
      slice block source = wrapped (slice ⟨block.start + 1, block.stop - 1⟩ source) := by
  obtain ⟨inner, hblock⟩ := exists_wrapped hencloses.opens hencloses.closes
  obtain ⟨-, hopens, hcloses, -, hinner⟩ := block_cuts hblock
  exact ⟨hopens, hcloses, by rw [hblock, hinner]⟩

/-! ### Line ends -/

section Lines

variable {source : List Char} {span : Span} {other byte : Nat}

/-- Assumes: a span between two characters. -/
theorem endsLine_iff (hstart : IsCut source span.start) (hstop : IsCut source span.stop) :
    EndsLine source span other byte ↔
      (lineEnd? span.start (slice span source)).getD other = byte := by
  constructor
  · rintro (⟨hline, hbyte, hslice⟩ | hfeed)
    · rename_i line
      have hne : slice ⟨span.start, byte⟩ source ≠ [] := by simp [hslice]
      obtain ⟨front, back, hsource, hfront⟩ := slice_split hne
      have hend := bytes_slice hne
      have hwidth : bytes ['\n'] = 1 := by decide
      rw [hslice, bytes_append, hwidth] at hend
      dsimp only at hfront hend
      have hcut : IsCut source byte := by
        refine ⟨front ++ (line ++ ['\n']), ⟨back, ?_⟩, ?_⟩
        · rw [List.append_assoc, ← hslice, ← hsource]
        · rw [bytes_append, bytes_append, hwidth]
          omega
      have hspan : slice span source =
          line ++ (['\n'] ++ slice ⟨byte, span.stop⟩ source) := by
        rw [slice_append_slice hstart hcut hstop (by omega) hbyte, hslice, List.append_assoc]
      rw [hspan, lineEnd?, cutFirst_append hline]
      exact hend
    · rw [lineEnd?, cutFirst_eq_none hfeed]
      rfl
  · rintro rfl
    cases hend : lineEnd? span.start (slice span source) with
    | none =>
      refine .missing fun hfeed ↦ ?_
      obtain ⟨line, rest, hslice, hline⟩ := List.eq_append_cons_of_mem hfeed
      have hcut := cutFirst_append hline [] rest
      rw [List.singleton_append, ← hslice] at hcut
      rw [lineEnd?, hcut] at hend
      cases hend
    | some behind =>
      obtain ⟨line, rest, hline, hslice, rfl⟩ := lineEnd?_eq_some hend
      have hwidth : bytes ['\n'] = 1 := by decide
      have hne : slice span source ≠ [] := by simp [hslice]
      obtain ⟨front, back, hsource, hfront⟩ := slice_split hne
      refine .found hline (lineEnd?_slice_bounds hend).2 ?_
      refine @slice_eq _ front _ (rest ++ back) ?_ _ _ hfront.symm ?_
      · rw [hsource, hslice]
        simp
      · rw [bytes_append, hwidth]
        exact Nat.add_assoc _ _ _

theorem EndsLine.isCut (hend : EndsLine source span other byte) (hstart : IsCut source span.start)
    (hstop : IsCut source span.stop) (hother : IsCut source other) : IsCut source byte := by
  rw [← (endsLine_iff hstart hstop).mp hend]
  exact isCut_getD_lineEnd? hother

theorem EndsLine.le (hend : EndsLine source span other byte) (hother : other ≤ span.stop) :
    byte ≤ span.stop := by
  cases hend with
  | found _ hbyte _ => exact hbyte
  | missing => exact hother

theorem EndsLine.ge (hend : EndsLine source span other byte) (hother : span.start ≤ other) :
    span.start ≤ byte := by
  cases hend with
  | found _ _ hslice =>
    have hsize := @bytes_slice ⟨span.start, byte⟩ source (by simp [hslice])
    exact Nat.le.intro hsize
  | missing => exact hother

end Lines

/-! ### The stretch that is laid out -/

section Layout

variable {source : List Char} {block statements code : Span}

/-- The law of the laid-out code: its span starts behind the first line end between the opening
brace and the statements, or with the statements, and it stops behind the first line end between the
statements and the closing brace, or with the statements. -/
theorem lays_iff (hencloses : Encloses source block statements) :
    Lays source block statements code ↔ layout source block statements = code := by
  obtain ⟨hopens, hcloses, -⟩ := hencloses.interior
  have hfirst := @endsLine_iff source ⟨block.start + 1, statements.start⟩ statements.start
    code.start hopens hencloses.start
  have hlast := @endsLine_iff source ⟨statements.stop, block.stop - 1⟩ statements.stop
    code.stop hencloses.stop hcloses
  constructor
  · rintro ⟨hstart, hstop⟩
    obtain ⟨start, stop⟩ := code
    exact congrArg₂ Span.mk (hfirst.mp hstart) (hlast.mp hstop)
  · rintro rfl
    exact ⟨hfirst.mpr rfl, hlast.mpr rfl⟩

/-- What a stretch between the braces of a block leaves on either side. -/
structure Splits (source : List Char) (block statements code : Span) : Prop where
  start : IsCut source code.start
  stop : IsCut source code.stop
  behind : block.start + 1 ≤ code.start
  first : code.start ≤ statements.start
  last : statements.stop ≤ code.stop
  before : code.stop + 1 ≤ block.stop
  interior : slice block source = wrapped (slice ⟨block.start + 1, code.start⟩ source ++
    (slice code source ++ slice ⟨code.stop, block.stop - 1⟩ source))
  inner : slice code source = slice ⟨code.start, statements.start⟩ source ++
    (slice statements source ++ slice ⟨statements.stop, code.stop⟩ source)

theorem Lays.splits (hencloses : Encloses source block statements)
    (hlays : Lays source block statements code) : Splits source block statements code := by
  obtain ⟨hopens, hcloses, hblock⟩ := hencloses.interior
  have hbehind := hencloses.behind
  have hforward := hencloses.forward
  have hbefore := hencloses.before
  have hstart := hlays.start.isCut hopens hencloses.start hencloses.start
  have hstop := hlays.stop.isCut hencloses.stop hcloses hencloses.stop
  have hfirst : code.start ≤ statements.start := hlays.start.le (Nat.le_refl _)
  have hlast : statements.stop ≤ code.stop := hlays.stop.ge (Nat.le_refl _)
  have hge : block.start + 1 ≤ code.start := hlays.start.ge hbehind
  have hle : code.stop ≤ block.stop - 1 := hlays.stop.le (Nat.le_sub_of_add_le hbefore)
  refine ⟨hstart, hstop, hge, hfirst, hlast, by omega, ?_, ?_⟩
  · rw [hblock, slice_append_slice hopens hstart hcloses hge (by omega),
      slice_append_slice hstart hstop hcloses (by omega) hle]
  · rw [slice_append_slice hstart hencloses.start hstop hfirst (by omega),
      slice_append_slice hencloses.start hencloses.stop hstop hforward hlast]

/-- Where the statements have blanks around them alone, the two forms differ by blanks. -/
theorem Lays.trim_eq (hencloses : Encloses source block statements)
    (hlays : Lays source block statements code)
    (hlead : IsBlankText (slice ⟨block.start + 1, statements.start⟩ source))
    (htail : IsBlankText (slice ⟨statements.stop, block.stop - 1⟩ source)) :
    trim (slice code source) = trimmed (slice block source) := by
  obtain ⟨hopens, hcloses, -⟩ := hencloses.interior
  have hsplits := hlays.splits hencloses
  have hbefore := hencloses.before
  have hend := hsplits.before
  rw [slice_append_slice hopens hsplits.start hencloses.start hsplits.behind hsplits.first] at hlead
  rw [slice_append_slice hencloses.stop hsplits.stop hcloses hsplits.last (by omega)] at htail
  obtain ⟨hskipped, hkept⟩ := List.forall_mem_append.mp hlead
  obtain ⟨hended, hleft⟩ := List.forall_mem_append.mp htail
  calc trim (slice code source)
      = trim (slice statements source) := by
        rw [hsplits.inner, trim_append_of_blank hkept hended]
    _ = trim (slice ⟨block.start + 1, code.start⟩ source ++
          (slice code source ++ slice ⟨code.stop, block.stop - 1⟩ source)) := by
        rw [trim_append_of_blank hskipped hleft, hsplits.inner, trim_append_of_blank hkept hended]
    _ = trimmed (slice block source) := by
        rw [hsplits.interior, trimmed_of_hasInterior (hasInterior_wrapped _)]

/-- Assumes: a block between braces that encloses its statements. The laid-out code is a stretch of
what the braces hold, with all of the statements in it. It starts behind the first line end between
the opening brace and the statements, if there is one, and stops behind the first one between the
statements and the closing brace; else it starts or stops with the statements. If there is nothing
but blanks around the statements, trimming it leaves the trimmed code of the block. -/
theorem laidOut_between_braces (hencloses : Encloses source block statements) :
    (∃ code, Splits source block statements code ∧ Lays source block statements code ∧
      laidOut source block (some statements) = slice code source) ∧
    (IsBlankText (slice ⟨block.start + 1, statements.start⟩ source) →
      IsBlankText (slice ⟨statements.stop, block.stop - 1⟩ source) →
      trim (laidOut source block (some statements)) = trimmed (slice block source)) := by
  have hlays := (lays_iff hencloses).mpr rfl
  exact ⟨⟨_, hlays.splits hencloses, hlays, rfl⟩, hlays.trim_eq hencloses⟩

/-- A block with blanks of several bytes around a statement that holds a brace, and next to
characters of several bytes. -/
theorem laidOut_between_braces_blank :
    (∃ code, Splits "\u00fc\x7b\u2003\r\nf(\"\x7d\"); \n\x7d\u00fc".toList ⟨2, 18⟩ ⟨8, 15⟩ code) ∧
      trim (laidOut "\u00fc\x7b\u2003\r\nf(\"\x7d\"); \n\x7d\u00fc".toList ⟨2, 18⟩
          (some ⟨8, 15⟩)) =
        trimmed (slice ⟨2, 18⟩ "\u00fc\x7b\u2003\r\nf(\"\x7d\"); \n\x7d\u00fc".toList) := by
  obtain ⟨⟨code, hsplits, -, -⟩, htrim⟩ := @laidOut_between_braces
    "\u00fc\x7b\u2003\r\nf(\"\x7d\"); \n\x7d\u00fc".toList ⟨2, 18⟩ ⟨8, 15⟩
    ⟨by decide +kernel, by decide +kernel, by decide +kernel, by decide +kernel, by decide,
      by decide, by decide⟩
  refine ⟨⟨code, hsplits⟩, htrim ?_ ?_⟩
  · unfold IsBlankText
    decide +kernel
  · unfold IsBlankText
    decide +kernel

end Layout

end Conform.Expression
