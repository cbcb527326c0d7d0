import Conform.Text.Occurrence
import Mathlib.Data.List.Infix
import Mathlib.Tactic.ByContra

/-!
Cuts of texts put together from parts. A text is cut at the first or the last occurrence of a mark
into what stands before and behind it (`cutFirst_singleton`, `cutLast_eq_some_iff`), and into its
pieces at every occurrence, those before any of them and those behind it (`splitAt_append`).
-/

set_option autoImplicit false

namespace Conform.Text

/-! ### Pieces -/

theorem splitAt_eq_splitOn (mark : Char) (cs : List Char) : splitAt mark cs = cs.splitOn mark := by
  induction cs with
  | nil => rfl
  | cons c rest ih =>
    have hcons := List.splitOnP_cons_eq_if_modifyHead (p := (· == mark)) c rest
    rw [← List.splitOn_eq_splitOnP, ← List.splitOn_eq_splitOnP, ← ih] at hcons
    rw [splitAt, hcons]
    simp only [beq_iff_eq]
    split
    · rfl
    · split <;> rename_i hpieces
      · rw [ih] at hpieces
        exact absurd hpieces (List.splitOnP_ne_nil _ rest)
      · rw [hpieces]
        rfl

theorem splitAt_ne_nil (mark : Char) (cs : List Char) : splitAt mark cs ≠ [] := by
  rw [splitAt_eq_splitOn]
  exact List.splitOnP_ne_nil _ cs

theorem splitAt_of_notMem {mark : Char} {piece : List Char} (hpiece : mark ∉ piece) :
    splitAt mark piece = [piece] := by
  induction piece with
  | nil => rfl
  | cons c rest ih =>
    rw [List.mem_cons, not_or] at hpiece
    rw [splitAt, if_neg (Ne.symm hpiece.1), ih hpiece.2]

theorem notMem_of_mem_splitAt {mark : Char} {cs piece : List Char}
    (hpiece : piece ∈ splitAt mark cs) : mark ∉ piece := by
  induction cs generalizing piece with
  | nil =>
    rw [splitAt, List.mem_singleton] at hpiece
    exact hpiece ▸ List.not_mem_nil
  | cons c rest ih =>
    obtain ⟨first, others, hpieces⟩ := List.exists_cons_of_ne_nil (splitAt_ne_nil mark rest)
    rw [splitAt, hpieces] at hpiece
    rw [hpieces] at ih
    split at hpiece
    · rcases List.mem_cons.mp hpiece with rfl | hrest
      · exact List.not_mem_nil
      · exact ih hrest
    · rename_i hc
      rcases List.mem_cons.mp hpiece with rfl | hrest
      · exact List.not_mem_cons_of_ne_of_not_mem (Ne.symm hc) (ih List.mem_cons_self)
      · exact ih (List.mem_cons_of_mem first hrest)

theorem infix_of_mem_splitAt {mark : Char} {cs piece : List Char}
    (hpiece : piece ∈ splitAt mark cs) : piece <:+: cs := by
  -- The first piece has to start the text for a character to be put in front of it.
  have hstarts : ∀ first others, splitAt mark cs = first :: others →
      first <+: cs ∧ ∀ other ∈ others, other <:+: cs := by
    clear hpiece
    induction cs with
    | nil =>
      rintro first others ⟨⟩
      exact ⟨List.prefix_rfl, nofun⟩
    | cons c rest ih =>
      obtain ⟨next, behind, hrest⟩ := List.exists_cons_of_ne_nil (splitAt_ne_nil mark rest)
      obtain ⟨hnext, hbehind⟩ := ih next behind hrest
      intro first others hpieces
      rw [splitAt, hrest] at hpieces
      split at hpieces
      · obtain ⟨rfl, rfl⟩ := List.cons.inj hpieces
        refine ⟨List.nil_prefix, fun other hother ↦ List.infix_cons ?_⟩
        rcases List.mem_cons.mp hother with rfl | hother
        · exact hnext.isInfix
        · exact hbehind other hother
      · obtain ⟨rfl, rfl⟩ := List.cons.inj hpieces
        exact ⟨List.cons_prefix_cons.mpr ⟨rfl, hnext⟩,
          fun other hother ↦ List.infix_cons (hbehind other hother)⟩
  obtain ⟨first, others, hpieces⟩ := List.exists_cons_of_ne_nil (splitAt_ne_nil mark cs)
  obtain ⟨hfirst, hothers⟩ := hstarts first others hpieces
  rw [hpieces] at hpiece
  rcases List.mem_cons.mp hpiece with rfl | hpiece
  · exact hfirst.isInfix
  · exact hothers piece hpiece

/-- At any occurrence of the mark the pieces are those before and those behind it. -/
theorem splitAt_append (mark : Char) (front back : List Char) :
    splitAt mark (front ++ mark :: back) = splitAt mark front ++ splitAt mark back := by
  induction front with
  | nil => simp [splitAt]
  | cons c rest ih =>
    rw [List.cons_append, splitAt, splitAt]
    split
    · rw [ih, List.cons_append]
    · obtain ⟨piece, pieces, hpieces⟩ := List.exists_cons_of_ne_nil (splitAt_ne_nil mark rest)
      rw [ih, hpieces]
      rfl

/-! ### Cuts -/

theorem after?_append (pattern behind : List Char) :
    after? pattern (pattern ++ behind) = some behind := by
  induction pattern with
  | nil => cases behind <;> rfl
  | cons p rest ih => rw [List.cons_append, after?, if_pos rfl, ih]

theorem after?_eq_some_iff {pattern cs rest : List Char} :
    after? pattern cs = some rest ↔ cs = pattern ++ rest := by
  constructor
  · intro hafter
    induction pattern generalizing cs with
    | nil => cases cs <;> exact Option.some.inj hafter
    | cons p others ih =>
      cases cs with
      | nil => contradiction
      | cons c cs =>
        rw [after?] at hafter
        split at hafter
        · rename_i hhead
          rw [hhead, ih hafter, List.cons_append]
        · contradiction
  · rintro rfl
    exact after?_append pattern rest

theorem before?_eq_some_iff {pattern cs rest : List Char} :
    before? pattern cs = some rest ↔ cs = rest ++ pattern := by
  rw [before?, Option.map_eq_some_iff]
  constructor
  · rintro ⟨reversed, hafter, rfl⟩
    rw [← List.reverse_reverse cs, after?_eq_some_iff.mp hafter, List.reverse_append,
      List.reverse_reverse]
  · rintro rfl
    exact ⟨rest.reverse, after?_eq_some_iff.mpr List.reverse_append, List.reverse_reverse rest⟩

theorem eq_append_of_cutFirst {pattern cs front back : List Char}
    (hcut : cutFirst pattern cs = some (front, back)) : cs = front ++ (pattern ++ back) := by
  induction cs generalizing front with
  | nil =>
    obtain ⟨rest, hafter, hpair⟩ := Option.map_eq_some_iff.mp hcut
    obtain ⟨rfl, rfl⟩ := Prod.mk.inj hpair
    rw [List.nil_append]
    exact after?_eq_some_iff.mp hafter
  | cons c cs ih =>
    rw [cutFirst] at hcut
    split at hcut
    · rename_i rest hafter
      obtain ⟨rfl, rfl⟩ := Prod.mk.inj (Option.some.inj hcut)
      rw [List.nil_append]
      exact after?_eq_some_iff.mp hafter
    · obtain ⟨⟨others, rest⟩, hothers, hpair⟩ := Option.map_eq_some_iff.mp hcut
      obtain ⟨rfl, rfl⟩ := Prod.mk.inj hpair
      rw [ih hothers, List.cons_append]

/-- Assumes: a front part in which the pattern cannot start. -/
theorem cutFirst_append {p : Char} {front : List Char} (hfront : p ∉ front)
    (pattern behind : List Char) :
    cutFirst (p :: pattern) (front ++ (p :: pattern ++ behind)) = some (front, behind) := by
  induction front with
  | nil =>
    have hafter := after?_append (p :: pattern) behind
    rw [List.cons_append] at hafter
    rw [List.nil_append, List.cons_append, cutFirst, hafter]
  | cons c rest ih =>
    rw [List.mem_cons, not_or] at hfront
    rw [List.cons_append, cutFirst, after?, if_neg hfront.1, ih hfront.2]
    rfl

/-- Assumes: a pattern that cannot start again within itself, and that does not stand in the front
part. -/
theorem cutFirst_append_of_not_infix {p : Char} {pattern front : List Char}
    (hpattern : p ∉ pattern) (hfront : ¬p :: pattern <:+: front) (behind : List Char) :
    cutFirst (p :: pattern) (front ++ (p :: pattern ++ behind)) = some (front, behind) := by
  induction front with
  | nil => exact cutFirst_append List.not_mem_nil pattern behind
  | cons c rest ih =>
    have hlater : after? (p :: pattern) (c :: (rest ++ (p :: pattern ++ behind))) = none := by
      by_contra hsome
      obtain ⟨other, hother⟩ := Option.ne_none_iff_exists'.mp hsome
      obtain ⟨rfl, hrest⟩ := List.cons.inj (after?_eq_some_iff.mp hother)
      rcases List.append_eq_append_iff.mp hrest with ⟨more, hmore, hagain⟩ | ⟨more, hmore, -⟩
      · -- The pattern reaches into its next occurrence, so it starts again within itself.
        cases more with
        | nil =>
          rw [List.append_nil] at hmore
          exact hfront (hmore ▸ List.infix_rfl)
        | cons d others =>
          obtain ⟨rfl, -⟩ := List.cons.inj hagain
          exact hpattern (hmore ▸ by simp)
      · exact hfront ⟨[], more, by rw [hmore]; rfl⟩
    rw [List.cons_append, cutFirst, hlater, ih fun hinside ↦ hfront (List.infix_cons hinside)]
    rfl

theorem infix_of_infix_append_cons {mark : Char} {pattern front back : List Char}
    (hmark : mark ∉ pattern) (hinside : pattern <:+: front ++ mark :: back) :
    pattern <:+: front ∨ pattern <:+: back := by
  rcases List.infix_append_iff.mp hinside with hfront | hback | ⟨first, second, rfl, hfirst, hsecond⟩
  · exact .inl hfront
  · rcases List.infix_cons_iff.mp hback with hstart | hback
    · cases pattern with
      | nil => exact .inl List.nil_infix
      | cons p others => exact absurd (List.cons_prefix_cons.mp hstart).1 (by rintro rfl; simp at hmark)
    · exact .inr hback
  · cases second with
    | nil => exact .inl (by simpa using hfirst.isInfix)
    | cons d others =>
      exact absurd (List.cons_prefix_cons.mp hsecond).1 (by rintro rfl; simp at hmark)

theorem cutFirst_singleton {mark : Char} {cs front back : List Char}
    (hcut : cutFirst [mark] cs = some (front, back)) :
    mark ∉ front ∧ cs = front ++ mark :: back := by
  induction cs generalizing front with
  | nil => contradiction
  | cons c cs ih =>
    rw [cutFirst, after?] at hcut
    split at hcut
    · rename_i heq
      split at heq
      · rename_i hmark
        cases cs <;> simp_all [after?]
      · contradiction
    · rename_i heq
      obtain ⟨⟨line, rest⟩, hline, hpair⟩ := Option.map_eq_some_iff.mp hcut
      obtain ⟨rfl, rfl⟩ := Prod.mk.inj hpair
      obtain ⟨hfront, rfl⟩ := ih hline
      have hmark : mark ≠ c := by
        rintro rfl
        simp [after?] at heq
      exact ⟨by simp [hmark, hfront], rfl⟩

theorem cutFirst_eq_none {mark : Char} {cs : List Char} (hcs : mark ∉ cs) :
    cutFirst [mark] cs = none := by
  cases hcut : cutFirst [mark] cs with
  | none => rfl
  | some parts =>
    obtain ⟨-, rfl⟩ := cutFirst_singleton hcut
    exact absurd (by simp) hcs

theorem cutLast_eq_none {mark : Char} {cs : List Char} (hcs : mark ∉ cs) :
    cutLast mark cs = none := by
  rw [cutLast, cutFirst_eq_none fun hmem ↦ hcs (List.mem_reverse.mp hmem)]
  rfl

theorem cutLast_append {mark : Char} {back : List Char} (hback : mark ∉ back) (front : List Char) :
    cutLast mark (front ++ mark :: back) = some (front, back) := by
  have hcut := cutFirst_append (fun hmem ↦ hback (List.mem_reverse.mp hmem)) [] front.reverse
  rw [cutLast, List.reverse_append, List.reverse_cons, List.append_assoc, hcut]
  simp

theorem cutLast_eq_some_iff {mark : Char} {cs front back : List Char} :
    cutLast mark cs = some (front, back) ↔ cs = front ++ mark :: back ∧ mark ∉ back := by
  constructor
  · intro hcut
    obtain ⟨⟨reversed, rest⟩, hfirst, hpair⟩ := Option.map_eq_some_iff.mp hcut
    obtain ⟨rfl, rfl⟩ := Prod.mk.inj hpair
    obtain ⟨hback, hcs⟩ := cutFirst_singleton hfirst
    refine ⟨?_, fun hmem ↦ hback (List.mem_reverse.mp hmem)⟩
    rw [← List.reverse_reverse cs, hcs, List.reverse_append, List.reverse_cons,
      List.append_assoc, List.singleton_append]
  · rintro ⟨rfl, hback⟩
    exact cutLast_append hback front

theorem exists_cutLast {mark : Char} {cs : List Char} (hcs : mark ∈ cs) :
    ∃ front back, cutLast mark cs = some (front, back) := by
  obtain ⟨back, front, hreverse, hback⟩ := List.eq_append_cons_of_mem (List.mem_reverse.mpr hcs)
  refine ⟨front.reverse, back.reverse, cutLast_eq_some_iff.mpr ⟨?_, by simpa using hback⟩⟩
  rw [← List.reverse_reverse cs, hreverse]
  simp

/-! ### Contractions -/

theorem contract_cons_of_ne {first c : Char} (hc : c ≠ first) (second into : Char)
    (cs : List Char) :
    contract first second into (c :: cs) = c :: contract first second into cs := by
  cases cs with
  | nil => rfl
  | cons d rest => rw [contract, if_neg (fun hpair ↦ hc hpair.1)]

theorem contract_of_notMem {first : Char} {cs : List Char} (hcs : first ∉ cs) (second into : Char) :
    contract first second into cs = cs := by
  induction cs with
  | nil => rfl
  | cons c rest ih =>
    rw [List.mem_cons, not_or] at hcs
    rw [contract_cons_of_ne (Ne.symm hcs.1), ih hcs.2]

end Conform.Text
