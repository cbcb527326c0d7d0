import Conform.Text.Blank
import Mathlib.Data.List.DropRight
import Mathlib.Data.List.TakeWhile

/-!
What trimming leaves of a text. It has no blank at its ends (`isTrimmed_trim`) and stands in the text
between two blank stretches (`exists_trim`), and no other text is like that (`trim_between`).
-/

set_option autoImplicit false

namespace Conform.Text

/-- A text of blanks alone. -/
def IsBlankText (cs : List Char) : Prop :=
  ∀ c ∈ cs, isBlank c = true

/-- A text without a blank at its start and at its end. -/
structure IsTrimmed (cs : List Char) : Prop where
  start : ∀ c ∈ cs.head?, isBlank c = false
  stop : ∀ c ∈ cs.getLast?, isBlank c = false

theorem isTrimmed_nil : IsTrimmed [] :=
  ⟨nofun, nofun⟩

variable {cs front back : List Char}

theorem trimStart_eq_self (hstart : ∀ c ∈ cs.head?, isBlank c = false) : trimStart cs = cs := by
  cases cs with
  | nil => rfl
  | cons c rest => exact List.dropWhile_cons_of_neg (by simpa using hstart c rfl)

theorem trimStart_append (hfront : IsBlankText front) (cs : List Char) :
    trimStart (front ++ cs) = trimStart cs :=
  List.dropWhile_append_of_pos hfront

theorem trimEnd_eq_self (hstop : ∀ c ∈ cs.getLast?, isBlank c = false) : trimEnd cs = cs := by
  refine List.rdropWhile_eq_self_iff.mpr fun hne ↦ ?_
  simpa using hstop _ (List.getLast?_eq_some_getLast hne)

theorem trimEnd_append (hback : IsBlankText back) (cs : List Char) :
    trimEnd (cs ++ back) = trimEnd cs := by
  rw [trimEnd, List.reverse_append,
    List.dropWhile_append_of_pos fun c hc ↦ hback c (List.mem_reverse.mp hc), trimEnd]

theorem trim_eq_self (hcs : IsTrimmed cs) : trim cs = cs := by
  rw [trim, trimStart_eq_self hcs.start, trimEnd_eq_self hcs.stop]

/-- Assumes: a text without blanks at its ends, between blanks. -/
theorem trim_between (hfront : IsBlankText front) (hcs : IsTrimmed cs) (hback : IsBlankText back) :
    trim (front ++ (cs ++ back)) = cs := by
  rw [trim, trimStart_append hfront]
  cases cs with
  | nil =>
    have hblank : trimStart back = [] := List.dropWhile_eq_nil_iff.mpr hback
    rw [List.nil_append, hblank]
    rfl
  | cons c rest =>
    rw [trimStart_eq_self (by simpa using hcs.start), trimEnd_append hback,
      trimEnd_eq_self hcs.stop]

theorem trim_eq_nil (hcs : IsBlankText cs) : trim cs = [] := by
  have hbetween : trim (cs ++ ([] ++ [])) = [] := trim_between hcs isTrimmed_nil nofun
  rwa [List.append_nil, List.append_nil] at hbetween

theorem isTrimmed_trim (cs : List Char) : IsTrimmed (trim cs) where
  start := by
    intro c hc
    have hnot := List.head?_dropWhile_not isBlank cs
    obtain ⟨others, hothers⟩ : trim cs <+: cs.dropWhile isBlank := List.rdropWhile_prefix _ _
    obtain ⟨rest, hrest⟩ := List.head?_eq_some_iff.mp hc
    rw [← hothers, hrest] at hnot
    exact hnot
  stop := by
    intro c hc
    have hne : trim cs ≠ [] := fun hnil ↦ nomatch hnil ▸ hc
    rw [List.getLast?_eq_some_getLast hne, Option.mem_some_iff] at hc
    rw [← hc]
    exact Bool.eq_false_iff.mpr (List.rdropWhile_last_not isBlank (trimStart cs) hne)

/-- A text is what trimming leaves of it, between blanks. -/
theorem exists_trim (cs : List Char) : ∃ front back, IsBlankText front ∧ IsBlankText back ∧
    cs = front ++ (trim cs ++ back) := by
  refine ⟨cs.takeWhile isBlank, (trimStart cs).rtakeWhile isBlank,
    fun c hc ↦ List.mem_takeWhile_imp hc, fun c hc ↦ List.mem_rtakeWhile_imp hc, ?_⟩
  have hend : trim cs ++ (trimStart cs).rtakeWhile isBlank = trimStart cs :=
    List.rdropWhile_append_rtakeWhile
  rw [hend]
  exact List.takeWhile_append_dropWhile.symm

/-- What is left of a text without the blanks at its ends. -/
structure Trims (whole inner : List Char) : Prop where
  trimmed : IsTrimmed inner
  between : ∃ front back, IsBlankText front ∧ IsBlankText back ∧ whole = front ++ (inner ++ back)

theorem trims_iff {whole inner : List Char} : Trims whole inner ↔ trim whole = inner := by
  constructor
  · rintro ⟨htrimmed, front, back, hfront, hback, rfl⟩
    exact trim_between hfront htrimmed hback
  · rintro rfl
    exact ⟨isTrimmed_trim whole, exists_trim whole⟩

/-- Blanks around a text are trimmed with its own. -/
theorem trim_append_of_blank (hfront : IsBlankText front) (hback : IsBlankText back)
    (cs : List Char) : trim (front ++ (cs ++ back)) = trim cs := by
  obtain ⟨before, behind, hbefore, hbehind, hcs⟩ := exists_trim cs
  refine trims_iff.mp ⟨isTrimmed_trim cs, front ++ before, behind ++ back,
    List.forall_mem_append.mpr ⟨hfront, hbefore⟩, List.forall_mem_append.mpr ⟨hbehind, hback⟩, ?_⟩
  calc front ++ (cs ++ back)
      = front ++ ((before ++ (trim cs ++ behind)) ++ back) := by rw [← hcs]
    _ = front ++ before ++ (trim cs ++ (behind ++ back)) := by simp only [List.append_assoc]

theorem trim_sublist (cs : List Char) : (trim cs).Sublist cs := by
  obtain ⟨front, back, -, -, hcs⟩ := exists_trim cs
  have hmiddle : trim cs <:+: front ++ (trim cs ++ back) := ⟨front, back, List.append_assoc _ _ _⟩
  rw [← hcs] at hmiddle
  exact hmiddle.sublist

end Conform.Text
