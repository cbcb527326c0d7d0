import Conform.Text.Span

/-!
Spans of texts put together from parts. A span that starts where one part starts and stops where a
later one stops reads as those parts (`Text.slice_append`). What follows a span has no part in what
it reads (`Text.slice_append_of_le`), and neither has what precedes it, but for its place
(`Text.slice_shift`).
-/

set_option autoImplicit false

namespace Conform.Text

theorem bytes_append (front back : List Char) :
    bytes (front ++ back) = bytes front + bytes back := by
  induction front with
  | nil => rw [List.nil_append, bytes, Nat.zero_add]
  | cons c rest ih => rw [List.cons_append, bytes, bytes, ih, Nat.add_assoc]

theorem bytes_cons (c : Char) (cs : List Char) : bytes (c :: cs) = c.utf8Size + bytes cs := rfl

theorem bytes_pos {cs : List Char} (hcs : cs ≠ []) : 0 < bytes cs := by
  cases cs with
  | nil => contradiction
  | cons c rest => exact Nat.add_pos_left c.utf8Size_pos _

theorem dropBytes?_succ {n : Nat} {c : Char} {cs : List Char} (hsize : c.utf8Size ≤ n) :
    dropBytes? n (c :: cs) = dropBytes? (n - c.utf8Size) cs := by
  have hpositive := c.utf8Size_pos
  obtain ⟨m, rfl⟩ : ∃ m, n = m + 1 := ⟨n - 1, by omega⟩
  rw [dropBytes?, if_pos hsize]

theorem takeBytes?_succ {n : Nat} {c : Char} {cs : List Char} (hsize : c.utf8Size ≤ n) :
    takeBytes? n (c :: cs) = (takeBytes? (n - c.utf8Size) cs).map (c :: ·) := by
  have hpositive := c.utf8Size_pos
  obtain ⟨m, rfl⟩ : ∃ m, n = m + 1 := ⟨n - 1, by omega⟩
  rw [takeBytes?, if_pos hsize]

theorem dropBytes?_append (front back : List Char) :
    dropBytes? (bytes front) (front ++ back) = some back := by
  induction front with
  | nil => cases back <;> rfl
  | cons c rest ih =>
    rw [List.cons_append, bytes_cons, dropBytes?_succ (Nat.le_add_right _ _),
      Nat.add_sub_cancel_left, ih]

theorem takeBytes?_append (front back : List Char) :
    takeBytes? (bytes front) (front ++ back) = some front := by
  induction front with
  | nil => cases back <;> rfl
  | cons c rest ih =>
    rw [List.cons_append, bytes_cons, takeBytes?_succ (Nat.le_add_right _ _),
      Nat.add_sub_cancel_left, ih, Option.map_some]

/-- The parts between two ends are what the span between them reads. -/
theorem slice_append (front middle back : List Char) :
    slice ⟨bytes front, bytes front + bytes middle⟩ (front ++ (middle ++ back)) = middle := by
  rw [slice, slice?, if_neg (Nat.not_lt.mpr (Nat.le_add_right _ _)), dropBytes?_append,
    Option.bind_some, Nat.add_sub_cancel_left, takeBytes?_append, Option.getD_some]

/-- Assumes: a span that starts behind the front part and stops behind the middle one. -/
theorem slice_eq {source front middle back : List Char}
    (hsource : source = front ++ (middle ++ back)) {start stop : Nat} (hstart : start = bytes front)
    (hstop : stop = start + bytes middle) : slice ⟨start, stop⟩ source = middle := by
  rw [hsource, hstop, hstart, slice_append]

/-! ### Spans within a part -/

theorem dropBytes?_append_add (front back : List Char) (n : Nat) :
    dropBytes? (bytes front + n) (front ++ back) = dropBytes? n back := by
  induction front with
  | nil => rw [List.nil_append, bytes, Nat.zero_add]
  | cons c rest ih =>
    rw [List.cons_append, bytes_cons, dropBytes?_succ (by omega), Nat.add_assoc,
      Nat.add_sub_cancel_left, ih]

theorem dropBytes?_append_of_le {front : List Char} {n : Nat} (hn : n ≤ bytes front)
    (back : List Char) : dropBytes? n (front ++ back) = (dropBytes? n front).map (· ++ back) := by
  induction front generalizing n with
  | nil =>
    obtain rfl : n = 0 := Nat.le_zero.mp hn
    cases back <;> rfl
  | cons c rest ih =>
    cases n with
    | zero => rfl
    | succ n =>
      rw [bytes_cons] at hn
      rw [List.cons_append, dropBytes?, dropBytes?]
      split
      · exact ih (by omega)
      · rfl

theorem takeBytes?_append_of_le {front : List Char} {n : Nat} (hn : n ≤ bytes front)
    (back : List Char) : takeBytes? n (front ++ back) = takeBytes? n front := by
  induction front generalizing n with
  | nil =>
    obtain rfl : n = 0 := Nat.le_zero.mp hn
    cases back <;> rfl
  | cons c rest ih =>
    cases n with
    | zero => rfl
    | succ n =>
      rw [bytes_cons] at hn
      rw [List.cons_append, takeBytes?, takeBytes?]
      split
      · rw [ih (by omega)]
      · rfl

theorem dropBytes?_eq_some {n : Nat} {cs rest : List Char} (hrest : dropBytes? n cs = some rest) :
    ∃ front, cs = front ++ rest ∧ bytes front = n := by
  induction cs generalizing n with
  | nil =>
    cases n with
    | zero => cases hrest; exact ⟨[], rfl, rfl⟩
    | succ n => contradiction
  | cons c cs ih =>
    cases n with
    | zero => cases hrest; exact ⟨[], rfl, rfl⟩
    | succ n =>
      rw [dropBytes?] at hrest
      split at hrest
      · obtain ⟨front, rfl, hfront⟩ := ih hrest
        exact ⟨c :: front, rfl, by rw [bytes_cons]; omega⟩
      · contradiction

theorem takeBytes?_eq_some {n : Nat} {cs front : List Char}
    (hfront : takeBytes? n cs = some front) :
    (∃ back, cs = front ++ back) ∧ bytes front = n := by
  induction cs generalizing n front with
  | nil =>
    cases n with
    | zero => cases hfront; exact ⟨⟨[], rfl⟩, rfl⟩
    | succ n => contradiction
  | cons c cs ih =>
    cases n with
    | zero => cases hfront; exact ⟨⟨c :: cs, rfl⟩, rfl⟩
    | succ n =>
      rw [takeBytes?] at hfront
      split at hfront
      · obtain ⟨rest, hrest, rfl⟩ := Option.map_eq_some_iff.mp hfront
        obtain ⟨⟨back, rfl⟩, hbytes⟩ := ih hrest
        exact ⟨⟨back, rfl⟩, by rw [bytes_cons]; omega⟩
      · contradiction

/-- What a span reads stands where the span starts. -/
theorem slice_split {span : Span} {cs : List Char} (hslice : slice span cs ≠ []) :
    ∃ front back, cs = front ++ (slice span cs ++ back) ∧ bytes front = span.start := by
  unfold slice slice? at hslice ⊢
  split at hslice
  · contradiction
  · rename_i hstart
    rw [if_neg hstart]
    cases hdrop : dropBytes? span.start cs with
    | none =>
      rw [hdrop] at hslice
      contradiction
    | some rest =>
      obtain ⟨front, rfl, hfront⟩ := dropBytes?_eq_some hdrop
      rw [hdrop, Option.bind_some] at hslice
      cases htake : takeBytes? (span.stop - span.start) rest with
      | none =>
        rw [htake] at hslice
        contradiction
      | some middle =>
        obtain ⟨⟨back, rfl⟩, -⟩ := takeBytes?_eq_some htake
        exact ⟨front, back, by simp [htake], hfront⟩

/-- A span that reads as a text that is not empty is as long as this text. -/
theorem bytes_slice {span : Span} {cs : List Char} (hslice : slice span cs ≠ []) :
    span.start + bytes (slice span cs) = span.stop := by
  unfold slice slice? at hslice ⊢
  split at hslice
  · contradiction
  · rename_i hstart
    rw [if_neg hstart]
    cases hread : (dropBytes? span.start cs).bind (takeBytes? (span.stop - span.start)) with
    | none =>
      rw [hread] at hslice
      contradiction
    | some middle =>
      obtain ⟨rest, -, htake⟩ := Option.bind_eq_some_iff.mp hread
      rw [Option.getD_some, (takeBytes?_eq_some htake).2]
      omega

/-- Two starts of a text with the same number of bytes are the same. -/
theorem append_inj_of_bytes {front back other behind : List Char}
    (happend : front ++ back = other ++ behind) (hbytes : bytes front = bytes other) :
    front = other := by
  have hdrop := dropBytes?_append front back
  rw [happend, hbytes, dropBytes?_append] at hdrop
  rw [Option.some.inj hdrop] at happend
  exact List.append_cancel_right happend

theorem bytes_slice_le (span : Span) (cs : List Char) :
    bytes (slice span cs) ≤ span.stop - span.start := by
  unfold slice slice?
  split
  · exact Nat.zero_le _
  · cases hdrop : dropBytes? span.start cs with
    | none => exact Nat.zero_le _
    | some rest =>
      cases htake : takeBytes? (span.stop - span.start) rest with
      | none => simp [htake, bytes]
      | some front => simp [htake, (takeBytes?_eq_some htake).2]

theorem slice_append_of_le {front : List Char} {span : Span} (hstop : span.stop ≤ bytes front)
    (back : List Char) : slice span (front ++ back) = slice span front := by
  unfold slice slice?
  split
  · rfl
  · rename_i hstart
    rw [dropBytes?_append_of_le (by omega)]
    cases hdrop : dropBytes? span.start front with
    | none => rfl
    | some rest =>
      obtain ⟨before, rfl, hbefore⟩ := dropBytes?_eq_some hdrop
      rw [bytes_append] at hstop
      rw [Option.map_some, Option.bind_some, Option.bind_some, takeBytes?_append_of_le (by omega)]

theorem slice_shift (front back : List Char) (start stop : Nat) :
    slice ⟨bytes front + start, bytes front + stop⟩ (front ++ back) = slice ⟨start, stop⟩ back := by
  unfold slice slice?
  simp only [dropBytes?_append_add, Nat.add_lt_add_iff_left, Nat.add_sub_add_left]

/-! ### Spans between cuts -/

/-- A byte of a text that lies in no character. -/
def IsCut (cs : List Char) (byte : Nat) : Prop :=
  ∃ front, front <+: cs ∧ bytes front = byte

theorem isCut_iff {cs : List Char} {byte : Nat} : IsCut cs byte ↔ (dropBytes? byte cs).isSome := by
  constructor
  · rintro ⟨front, ⟨back, rfl⟩, rfl⟩
    rw [dropBytes?_append]
    rfl
  · intro hdrop
    obtain ⟨back, hback⟩ := Option.isSome_iff_exists.mp hdrop
    obtain ⟨front, rfl, hfront⟩ := dropBytes?_eq_some hback
    exact ⟨front, List.prefix_append front back, hfront⟩

instance (cs : List Char) (byte : Nat) : Decidable (IsCut cs byte) :=
  decidable_of_iff' _ isCut_iff

section Cuts

variable {cs : List Char} {start middle stop : Nat}

theorem IsCut.le_bytes (hstop : IsCut cs stop) : stop ≤ bytes cs := by
  obtain ⟨front, ⟨back, rfl⟩, rfl⟩ := hstop
  rw [bytes_append]
  exact Nat.le_add_right _ _

theorem exists_slice (hstart : IsCut cs start) (hstop : IsCut cs stop) (hle : start ≤ stop) :
    ∃ front back, cs = front ++ (slice ⟨start, stop⟩ cs ++ back) ∧ bytes front = start ∧
      bytes (slice ⟨start, stop⟩ cs) = stop - start := by
  obtain ⟨front, hfront, rfl⟩ := hstart
  obtain ⟨whole, hwhole, rfl⟩ := hstop
  have hstarts : front <+: whole := by
    rcases List.prefix_or_prefix_of_prefix hfront hwhole with hstarts | ⟨more, rfl⟩
    · exact hstarts
    · rw [bytes_append] at hle
      have hmore : more = [] := by
        cases more with
        | nil => rfl
        | cons c rest =>
          have hpositive := bytes_pos (List.cons_ne_nil c rest)
          omega
      simp only [hmore, List.append_nil, List.prefix_rfl]
  obtain ⟨inner, rfl⟩ := hstarts
  obtain ⟨back, rfl⟩ := hwhole
  have hslice : slice ⟨bytes front, bytes (front ++ inner)⟩ (front ++ inner ++ back) = inner :=
    slice_eq (List.append_assoc _ _ _) rfl (bytes_append _ _)
  refine ⟨front, back, ?_, rfl, ?_⟩
  · rw [hslice, List.append_assoc]
  · rw [hslice, bytes_append, Nat.add_sub_cancel_left]

theorem slice_append_slice (hstart : IsCut cs start) (hmiddle : IsCut cs middle)
    (hstop : IsCut cs stop) (hle : start ≤ middle) (hge : middle ≤ stop) :
    slice ⟨start, stop⟩ cs = slice ⟨start, middle⟩ cs ++ slice ⟨middle, stop⟩ cs := by
  obtain ⟨front, behind, hfront, hbytes, hinner⟩ := exists_slice hstart hmiddle hle
  obtain ⟨before, back, hbefore, hsize, hrest⟩ := exists_slice hmiddle hstop hge
  have hsame : front ++ slice ⟨start, middle⟩ cs = before := by
    refine @append_inj_of_bytes _ behind _ (slice ⟨middle, stop⟩ cs ++ back) ?_ ?_
    · rw [List.append_assoc, ← hfront]
      exact hbefore
    · rw [bytes_append]
      omega
  refine @slice_eq cs front _ back ?_ start stop hbytes.symm ?_
  · rw [← List.append_assoc, ← List.append_assoc, hsame, List.append_assoc]
    exact hbefore
  · rw [bytes_append]
    omega

end Cuts

end Conform.Text
