import Conform.Proofs.Text.Occurrence
import Conform.Proofs.Text.Trim
import Conform.Text.Line
import Mathlib.Data.List.Forall2

/-!
Lines of texts put together from parts. At any line feed the lines are those before and those behind
it (`lines_append`), texts that end with a line feed each give their pieces one after the other
(`splitAt_ended`), and what is kept of some lines, joined again, stands in the text they are from
(`intercalate_sublist`).
-/

set_option autoImplicit false

namespace Conform.Text

/-! ### Line ends -/

theorem dropReturn_concat (line : List Char) : dropReturn (line ++ ['\r']) = line := by
  rw [dropReturn, before?_eq_some_iff.mpr rfl, Option.getD_some]

theorem dropReturn_cases (line : List Char) :
    dropReturn line = line ∨ line = dropReturn line ++ ['\r'] := by
  unfold dropReturn
  cases hbefore : before? ['\r'] line with
  | none => exact .inl rfl
  | some rest => exact .inr (before?_eq_some_iff.mp hbefore)

theorem dropReturn_eq_self {line : List Char} (hline : line.getLast? ≠ some '\r') :
    dropReturn line = line := by
  rcases dropReturn_cases line with hsame | hreturn
  · exact hsame
  · rw [hreturn, List.getLast?_concat] at hline
    contradiction

theorem prefix_dropReturn (line : List Char) : dropReturn line <+: line := by
  rcases dropReturn_cases line with hsame | hreturn
  · rw [hsame]
  · exact ⟨['\r'], hreturn.symm⟩

/-- A carriage return at the end of a line is a blank of it like any other. -/
theorem trim_dropReturn (line : List Char) : trim (dropReturn line) = trim line := by
  rcases dropReturn_cases line with hsame | hreturn
  · rw [hsame]
  · obtain ⟨front, back, hfront, hback, hsplit⟩ := exists_trim (dropReturn line)
    have hline : line = front ++ (trim (dropReturn line) ++ (back ++ ['\r'])) := by
      rw [← List.append_assoc (trim _), ← List.append_assoc front, ← hsplit, ← hreturn]
    have hblank : IsBlankText (back ++ ['\r']) :=
      List.forall_mem_append.mpr ⟨hback, List.forall_mem_singleton.mpr (by decide)⟩
    rw [hline, trim_between hfront (isTrimmed_trim _) hblank, ← hline]

/-! ### Lines of a text -/

theorem closeLines_append (front : List (List Char)) {back : List (List Char)} (hback : back ≠ []) :
    closeLines (front ++ back) = front.map dropReturn ++ closeLines back := by
  induction front with
  | nil => rfl
  | cons line rest ih =>
    obtain ⟨next, others, hnext⟩ :=
      List.exists_cons_of_ne_nil (List.append_ne_nil_of_right_ne_nil rest hback)
    rw [List.cons_append, hnext, closeLines, ← hnext, ih, List.map_cons, List.cons_append]

/-- At any line feed the lines are those in front of it and those behind it. -/
theorem lines_append (front back : List Char) :
    lines (front ++ '\n' :: back) = (splitAt '\n' front).map dropReturn ++ lines back := by
  rw [lines, splitAt_append, closeLines_append _ (splitAt_ne_nil '\n' back), lines]

theorem sublistForall₂_closeLines (pieces : List (List Char)) :
    List.SublistForall₂ List.Sublist (closeLines pieces) pieces := by
  fun_induction closeLines pieces with
  | case1 => exact .nil
  | case2 last hempty => exact .nil
  | case3 last hfilled => exact .cons (List.Sublist.refl last) .nil
  | case4 line next rest ih => exact .cons (prefix_dropReturn line).sublist ih

theorem infix_of_mem_closeLines {pieces : List (List Char)} {line : List Char}
    (hline : line ∈ closeLines pieces) : ∃ piece ∈ pieces, line <:+: piece := by
  fun_induction closeLines pieces with
  | case1 => contradiction
  | case2 last hempty => contradiction
  | case3 last hfilled => exact ⟨line, hline, List.infix_rfl⟩
  | case4 first next rest ih =>
    rcases List.mem_cons.mp hline with rfl | hrest
    · exact ⟨first, List.mem_cons_self, (prefix_dropReturn first).isInfix⟩
    · obtain ⟨piece, hpiece, hinside⟩ := ih hrest
      exact ⟨piece, List.mem_cons_of_mem first hpiece, hinside⟩

theorem notMem_of_mem_lines {cs line : List Char} (hline : line ∈ lines cs) : '\n' ∉ line := by
  obtain ⟨piece, hpiece, hinside⟩ := infix_of_mem_closeLines hline
  exact fun hfeed ↦ notMem_of_mem_splitAt hpiece (hinside.subset hfeed)

theorem infix_of_mem_lines {cs line : List Char} (hline : line ∈ lines cs) : line <:+: cs := by
  obtain ⟨piece, hpiece, hinside⟩ := infix_of_mem_closeLines hline
  exact hinside.trans (infix_of_mem_splitAt hpiece)

/-! ### Lines put together -/

/-- Texts with a line feed behind each. -/
def ended (texts : List (List Char)) : List Char :=
  texts.flatMap (· ++ ['\n'])

theorem ended_cons (text : List Char) (others : List (List Char)) (behind : List Char) :
    ended (text :: others) ++ behind = text ++ '\n' :: (ended others ++ behind) := by
  simp [ended]

theorem notMem_ended {c : Char} (hc : c ≠ '\n') {texts : List (List Char)}
    (htexts : ∀ text ∈ texts, c ∉ text) : c ∉ ended texts := by
  simpa [ended, hc] using htexts

theorem intercalate_append_cons (front : List (List Char)) (text : List Char)
    (back : List (List Char)) :
    ['\n'].intercalate (front ++ text :: back) = ended front ++ ['\n'].intercalate (text :: back) := by
  induction front with
  | nil => rfl
  | cons first rest ih =>
    obtain ⟨next, others, hnext⟩ :=
      List.exists_cons_of_ne_nil (List.append_ne_nil_of_right_ne_nil rest (List.cons_ne_nil text back))
    rw [ended_cons, ← ih, List.cons_append, hnext, List.intercalate_cons_cons, List.append_assoc]
    rfl

theorem ended_eq {texts : List (List Char)} (htexts : texts ≠ []) :
    ended texts = ['\n'].intercalate texts ++ ['\n'] := by
  obtain ⟨text, others, rfl⟩ := List.exists_cons_of_ne_nil htexts
  induction others generalizing text with
  | nil => simp [ended]
  | cons next rest ih =>
    have hcons := ended_cons text (next :: rest) []
    rw [List.append_nil, List.append_nil, ih next (List.cons_ne_nil next rest)] at hcons
    rw [hcons, List.intercalate_cons_cons, List.append_assoc, List.append_assoc]
    rfl

theorem intercalate_prefix_ended (texts : List (List Char)) :
    ['\n'].intercalate texts <+: ended texts := by
  by_cases htexts : texts = []
  · rw [htexts]
    exact List.nil_prefix
  · rw [ended_eq htexts]
    exact List.prefix_append _ _

theorem splitAt_ended (texts : List (List Char)) (behind : List Char) :
    splitAt '\n' (ended texts ++ behind) = texts.flatMap (splitAt '\n') ++ splitAt '\n' behind := by
  induction texts with
  | nil => rfl
  | cons text rest ih =>
    rw [ended_cons, splitAt_append, ih, List.flatMap_cons, List.append_assoc]

theorem splitAt_ended_of_single {texts : List (List Char)} (htexts : ∀ text ∈ texts, '\n' ∉ text)
    (behind : List Char) : splitAt '\n' (ended texts ++ behind) = texts ++ splitAt '\n' behind := by
  have hpieces : texts.flatMap (splitAt '\n') = texts := by
    rw [List.flatMap_congr fun text htext ↦ splitAt_of_notMem (htexts text htext),
      List.flatMap_singleton']
  rw [splitAt_ended, hpieces]

/-- The lines of texts that end with a line feed each. -/
theorem lines_ended (texts : List (List Char)) (behind : List Char) :
    lines (ended texts ++ behind) =
      texts.flatMap (fun text ↦ (splitAt '\n' text).map dropReturn) ++ lines behind := by
  induction texts with
  | nil => rfl
  | cons text rest ih =>
    rw [ended_cons, lines_append, ih, List.flatMap_cons, List.append_assoc]

/-- A text without line feeds stands in one of the lines that it stands in. -/
theorem infix_ended {pattern : List Char} (hpattern : '\n' ∉ pattern) {texts : List (List Char)}
    {behind : List Char} (hinside : pattern <:+: ended texts ++ behind) :
    (∃ text ∈ texts, pattern <:+: text) ∨ pattern <:+: behind := by
  induction texts with
  | nil => exact .inr hinside
  | cons text rest ih =>
    rw [ended_cons] at hinside
    rcases infix_of_infix_append_cons hpattern hinside with htext | hrest
    · exact .inl ⟨text, List.mem_cons_self, htext⟩
    · exact (ih hrest).imp_left fun ⟨other, hother, hwithin⟩ ↦
        ⟨other, List.mem_cons_of_mem text hother, hwithin⟩

/-- Parts of some of the lines, joined, stand in the joined lines in the same order. -/
theorem intercalate_sublist {parts texts : List (List Char)}
    (hparts : List.SublistForall₂ List.Sublist parts texts) :
    (['\n'].intercalate parts).Sublist (['\n'].intercalate texts) := by
  have hcons : ∀ (text : List Char) (others : List (List Char)),
      (['\n'].intercalate others).Sublist (['\n'].intercalate (text :: others)) ∧
        text.Sublist (['\n'].intercalate (text :: others)) := by
    intro text others
    cases others with
    | nil =>
      rw [List.intercalate_singleton]
      exact ⟨List.nil_sublist text, List.Sublist.refl text⟩
    | cons next others =>
      rw [List.intercalate_cons_cons, List.append_assoc]
      exact ⟨(List.sublist_append_right _ _).trans (List.sublist_append_right _ _),
        List.sublist_append_left _ _⟩
  induction hparts with
  | nil => exact List.nil_sublist _
  | @cons part text parts texts hpart hrest ih =>
    cases hrest with
    | nil =>
      rw [List.intercalate_singleton]
      exact hpart.trans (hcons text texts).2
    | cons _ _ =>
      rw [List.intercalate_cons_cons, List.intercalate_cons_cons]
      exact (hpart.append (List.Sublist.refl _)).append ih
    | @cons_right next parts others _ =>
      cases parts with
      | nil =>
        rw [List.intercalate_singleton]
        exact hpart.trans (hcons text _).2
      | cons _ _ =>
        rw [List.intercalate_cons_cons, List.intercalate_cons_cons]
        exact (hpart.append (List.Sublist.refl _)).append ih
  | cons_right _ ih => exact ih.trans (hcons _ _).1

theorem intercalate_lines_sublist (cs : List Char) : (['\n'].intercalate (lines cs)).Sublist cs := by
  have hsublist := intercalate_sublist (sublistForall₂_closeLines (splitAt '\n' cs))
  rw [← lines, splitAt_eq_splitOn, List.intercalate_splitOn] at hsublist
  exact hsublist

/-- Line feeds are only put between lines, so none is gained when some rows of lines are joined. -/
theorem intercalate_append_sublist (front back : List (List Char)) :
    (['\n'].intercalate (front ++ back)).Sublist
      (['\n'].intercalate front ++ '\n' :: ['\n'].intercalate back) := by
  by_cases hfront : front = []
  · rw [hfront]
    exact List.sublist_cons_self '\n' _
  cases back with
  | nil =>
    rw [List.append_nil]
    exact List.sublist_append_left _ _
  | cons next others =>
    rw [intercalate_append_cons, ended_eq hfront, List.append_assoc]
    exact List.Sublist.refl _

/-- Assumes: rows of lines each of which, joined, stands in a text in the same order. -/
theorem intercalate_flatMap_sublist {α : Type} {rows : α → List (List Char)} {text : α → List Char}
    (hrows : ∀ item, (['\n'].intercalate (rows item)).Sublist (text item)) (items : List α) :
    (['\n'].intercalate (items.flatMap rows)).Sublist (['\n'].intercalate (items.map text)) := by
  induction items with
  | nil => exact List.Sublist.refl _
  | cons item rest ih =>
    cases rest with
    | nil =>
      rw [List.flatMap_singleton, List.map_singleton, List.intercalate_singleton]
      exact hrows item
    | cons next others =>
      rw [List.flatMap_cons, List.map_cons, List.map_cons, List.intercalate_cons_cons,
        List.append_assoc]
      exact (intercalate_append_sublist _ _).trans ((hrows item).append (ih.cons_cons '\n'))

end Conform.Text
