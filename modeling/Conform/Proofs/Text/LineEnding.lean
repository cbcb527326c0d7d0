import Conform.Proofs.Text.Line
import Conform.Proofs.Text.Span
import Conform.Text.Blank
import Mathlib.Data.List.DropRight
import Mathlib.Data.List.TakeWhile

/-!
Texts with a carriage return before every line feed. Cutting, trimming and slicing a text commute
with putting the carriage returns in (`slice_crlf`), and the lines of the text are the same
(`lines_crlf`). A stretch of a text is longer by a character, and by a byte, for each line feed in it.
-/

set_option autoImplicit false

namespace Conform

namespace Text

/-- A text with a carriage return put before every line feed. -/
def crlf : List Char → List Char
  | [] => []
  | c :: rest => if c = '\n' then '\r' :: '\n' :: crlf rest else c :: crlf rest

@[simp] theorem crlf_nil : crlf [] = [] := rfl

@[simp] theorem crlf_feed (rest : List Char) : crlf ('\n' :: rest) = '\r' :: '\n' :: crlf rest := rfl

theorem crlf_cons {c : Char} (hc : c ≠ '\n') (rest : List Char) :
    crlf (c :: rest) = c :: crlf rest :=
  if_neg hc

theorem crlf_append (front back : List Char) : crlf (front ++ back) = crlf front ++ crlf back := by
  induction front with
  | nil => rfl
  | cons c rest ih =>
    by_cases hc : c = '\n'
    · rw [hc, List.cons_append, crlf_feed, ih, crlf_feed]
      rfl
    · rw [List.cons_append, crlf_cons hc, ih, crlf_cons hc]
      rfl

theorem crlf_eq_self {cs : List Char} (hcs : '\n' ∉ cs) : crlf cs = cs := by
  induction cs with
  | nil => rfl
  | cons c rest ih =>
    rw [List.mem_cons, not_or] at hcs
    rw [crlf_cons (Ne.symm hcs.1), ih hcs.2]

theorem mem_crlf {c : Char} (hc : c ≠ '\r') {cs : List Char} : c ∈ crlf cs ↔ c ∈ cs := by
  induction cs with
  | nil => rfl
  | cons d rest ih =>
    by_cases hd : d = '\n'
    · simp [hd, ih, hc]
    · rw [crlf_cons hd, List.mem_cons, List.mem_cons, ih]

/-- A character that is no line end stands first where it stood first. -/
theorem head?_crlf {c : Char} (hreturn : c ≠ '\r') (hfeed : c ≠ '\n') (cs : List Char) :
    (crlf cs).head? = some c ↔ cs.head? = some c := by
  cases cs with
  | nil => rfl
  | cons d rest =>
    by_cases hd : d = '\n'
    · simp [hd, hreturn.symm, hfeed.symm]
    · rw [crlf_cons hd, List.head?_cons, List.head?_cons]

theorem takeWhile_crlf {p : Char → Bool} (hp : p '\r' = p '\n') (cs : List Char) :
    (crlf cs).takeWhile p = crlf (cs.takeWhile p) := by
  induction cs with
  | nil => rfl
  | cons c rest ih =>
    by_cases hc : c = '\n'
    · cases hfeed : p '\n' <;> simp [hc, hp, hfeed, ih]
    · rw [crlf_cons hc, List.takeWhile_cons, List.takeWhile_cons, ih]
      split
      · rw [crlf_cons hc]
      · rfl

/-- Assumes: a stretch without line ends. -/
theorem takeWhile_crlf_of_false {p : Char → Bool} (hreturn : p '\r' = false) (hfeed : p '\n' = false)
    (cs : List Char) : (crlf cs).takeWhile p = cs.takeWhile p := by
  rw [takeWhile_crlf (hreturn.trans hfeed.symm), crlf_eq_self]
  intro hmem
  rw [List.mem_takeWhile_imp hmem] at hfeed
  contradiction

theorem dropWhile_crlf {p : Char → Bool} (hp : p '\r' = p '\n') (cs : List Char) :
    (crlf cs).dropWhile p = crlf (cs.dropWhile p) := by
  induction cs with
  | nil => rfl
  | cons c rest ih =>
    by_cases hc : c = '\n'
    · cases hfeed : p '\n' <;> simp [hc, hp, hfeed, ih]
    · rw [crlf_cons hc, List.dropWhile_cons, List.dropWhile_cons, ih]
      split
      · rfl
      · rw [crlf_cons hc]

theorem count_crlf (cs : List Char) : (crlf cs).count '\n' = cs.count '\n' := by
  induction cs with
  | nil => rfl
  | cons c rest ih =>
    by_cases hc : c = '\n'
    · simp [hc, ih]
    · rw [crlf_cons hc, List.count_cons, List.count_cons, ih]

theorem bytes_crlf (cs : List Char) : bytes (crlf cs) = bytes cs + cs.count '\n' := by
  have hwidths : '\r'.utf8Size = 1 ∧ '\n'.utf8Size = 1 := by decide
  induction cs with
  | nil => rfl
  | cons c rest ih =>
    by_cases hc : c = '\n'
    · simp only [hc, crlf_feed, bytes_cons, hwidths, ih, List.count_cons_self]
      omega
    · rw [crlf_cons hc, bytes_cons, bytes_cons, ih, List.count_cons_of_ne hc, Nat.add_assoc]

/-! ### The first characters -/

/-- The number of characters that the first characters of a text become. -/
def crlfLength (cs : List Char) (n : Nat) : Nat :=
  (crlf (cs.take n)).length

@[simp] theorem crlfLength_zero (cs : List Char) : crlfLength cs 0 = 0 := rfl

@[simp] theorem crlfLength_feed (rest : List Char) (n : Nat) :
    crlfLength ('\n' :: rest) (n + 1) = crlfLength rest n + 2 := rfl

theorem crlfLength_cons {c : Char} (hc : c ≠ '\n') (rest : List Char) (n : Nat) :
    crlfLength (c :: rest) (n + 1) = crlfLength rest n + 1 := by
  rw [crlfLength, List.take_succ_cons, crlf_cons hc]
  rfl

theorem crlfLength_add (cs : List Char) (n more : Nat) :
    crlfLength cs (n + more) = crlfLength cs n + crlfLength (cs.drop n) more := by
  rw [crlfLength, List.take_add, crlf_append, List.length_append]
  rfl

theorem crlfLength_takeWhile (p : Char → Bool) (cs : List Char) :
    crlfLength cs (cs.takeWhile p).length = (crlf (cs.takeWhile p)).length := by
  rw [crlfLength, ← List.prefix_iff_eq_take.mp (List.takeWhile_prefix p)]

theorem take_crlf (cs : List Char) (n : Nat) :
    (crlf cs).take (crlfLength cs n) = crlf (cs.take n) := by
  have hsplit := crlf_append (cs.take n) (cs.drop n)
  rw [List.take_append_drop] at hsplit
  rw [hsplit]
  exact List.take_left

theorem drop_crlf (cs : List Char) (n : Nat) :
    (crlf cs).drop (crlfLength cs n) = crlf (cs.drop n) := by
  have hsplit := crlf_append (cs.take n) (cs.drop n)
  rw [List.take_append_drop] at hsplit
  rw [hsplit]
  exact List.drop_left

/-! ### Cuts -/

section Cuts

variable {mark : Char}

/-- Assumes: a mark that is no line end. -/
theorem cutFirst_crlf (hreturn : mark ≠ '\r') (hfeed : mark ≠ '\n') (cs : List Char) :
    cutFirst [mark] (crlf cs) = (cutFirst [mark] cs).map (Prod.map crlf crlf) := by
  cases hcut : cutFirst [mark] cs with
  | none =>
    refine cutFirst_eq_none fun hmem ↦ ?_
    obtain ⟨front, back, rfl, hfront⟩ := List.eq_append_cons_of_mem ((mem_crlf hreturn).mp hmem)
    have hfound := cutFirst_append hfront [] back
    rw [List.singleton_append, hcut] at hfound
    contradiction
  | some parts =>
    obtain ⟨hfront, rfl⟩ := cutFirst_singleton hcut
    rw [crlf_append, crlf_cons hfeed]
    exact cutFirst_append (fun hmem ↦ hfront ((mem_crlf hreturn).mp hmem)) [] (crlf parts.2)

/-- Assumes: a mark that is no line end. -/
theorem cutLast_crlf (hreturn : mark ≠ '\r') (hfeed : mark ≠ '\n') (cs : List Char) :
    cutLast mark (crlf cs) = (cutLast mark cs).map (Prod.map crlf crlf) := by
  by_cases hmem : mark ∈ cs
  · obtain ⟨back, front, hcs, hback⟩ := List.eq_append_cons_of_mem (List.mem_reverse.mpr hmem)
    obtain rfl : cs = front.reverse ++ mark :: back.reverse := by
      rw [← List.reverse_reverse cs, hcs, List.reverse_append, List.reverse_cons,
        List.append_assoc, List.singleton_append]
    have hlast : mark ∉ back.reverse := fun hmem ↦ hback (List.mem_reverse.mp hmem)
    rw [cutLast_append hlast, crlf_append, crlf_cons hfeed,
      cutLast_append fun hmem ↦ hlast ((mem_crlf hreturn).mp hmem)]
    rfl
  · rw [cutLast_eq_none hmem, cutLast_eq_none fun hcs ↦ hmem ((mem_crlf hreturn).mp hcs)]
    rfl

end Cuts

/-- Assumes: a pattern without line ends. -/
theorem after?_crlf {pattern : List Char} (hreturn : '\r' ∉ pattern) (hfeed : '\n' ∉ pattern)
    (cs : List Char) : after? pattern (crlf cs) = (after? pattern cs).map crlf := by
  induction pattern generalizing cs with
  | nil => cases cs <;> rfl
  | cons p rest ih =>
    rw [List.mem_cons, not_or] at hreturn hfeed
    cases cs with
    | nil => rfl
    | cons c cs =>
      by_cases hc : c = '\n'
      · rw [hc, crlf_feed, after?, after?, if_neg (Ne.symm hreturn.1), if_neg (Ne.symm hfeed.1)]
        rfl
      · rw [crlf_cons hc, after?, after?, ih hreturn.2 hfeed.2]
        split <;> rfl

theorem mem_of_mem_after? {pattern cs rest : List Char} (hrest : after? pattern cs = some rest)
    {c : Char} (hc : c ∈ rest) : c ∈ cs := by
  rw [after?_eq_some_iff.mp hrest]
  exact List.mem_append_right pattern hc

theorem mem_of_mem_before? {pattern cs rest : List Char} (hrest : before? pattern cs = some rest)
    {c : Char} (hc : c ∈ rest) : c ∈ cs := by
  rw [before?_eq_some_iff.mp hrest]
  exact List.mem_append_left pattern hc

/-- Assumes: a pattern without line ends. -/
theorem isPrefixOf_crlf {pattern : List Char} (hreturn : '\r' ∉ pattern) (hfeed : '\n' ∉ pattern)
    (cs : List Char) : pattern.isPrefixOf (crlf cs) = pattern.isPrefixOf cs := by
  induction pattern generalizing cs with
  | nil => simp
  | cons p rest ih =>
    rw [List.mem_cons, not_or] at hreturn hfeed
    cases cs with
    | nil => rfl
    | cons c cs =>
      by_cases hc : c = '\n'
      · rw [hc, crlf_feed, List.isPrefixOf, List.isPrefixOf,
          beq_eq_false_iff_ne.mpr (Ne.symm hreturn.1), beq_eq_false_iff_ne.mpr (Ne.symm hfeed.1),
          Bool.false_and, Bool.false_and]
      · rw [crlf_cons hc, List.isPrefixOf, List.isPrefixOf, ih hreturn.2 hfeed.2]

/-- The end of a text before the last characters. -/
theorem before?_concat (pattern cs : List Char) (p c : Char) :
    before? (pattern ++ [p]) (cs ++ [c]) = if p = c then before? pattern cs else none := by
  rw [before?, List.reverse_append, List.reverse_append, List.reverse_singleton,
    List.reverse_singleton, List.singleton_append, List.singleton_append, after?]
  split
  · rfl
  · rfl

/-- Assumes: a pattern without line ends. -/
theorem before?_crlf {pattern : List Char} (hreturn : '\r' ∉ pattern) (hfeed : '\n' ∉ pattern)
    (cs : List Char) : before? pattern (crlf cs) = (before? pattern cs).map crlf := by
  induction pattern using List.reverseRecOn generalizing cs with
  | nil => simp [before?, after?]
  | append_singleton pattern p ih =>
    rw [List.mem_append, not_or, List.mem_singleton] at hreturn hfeed
    induction cs using List.reverseRecOn with
    | nil => simp [before?, after?]
    | append_singleton cs c =>
      rw [crlf_append, before?_concat]
      by_cases hc : c = '\n'
      · rw [hc, if_neg (Ne.symm hfeed.2), show crlf ['\n'] = ['\r'] ++ ['\n'] from rfl,
          ← List.append_assoc, before?_concat, if_neg (Ne.symm hfeed.2)]
        rfl
      · rw [crlf_cons hc, crlf_nil, before?_concat, ih hreturn.1 hfeed.1]
        split <;> rfl

/-! ### Trimming and lines -/

theorem trimStart_crlf (cs : List Char) : trimStart (crlf cs) = crlf (trimStart cs) :=
  dropWhile_crlf (by decide) cs

theorem trimEnd_crlf (cs : List Char) : trimEnd (crlf cs) = crlf (trimEnd cs) := by
  have htrim : ∀ cs, trimEnd cs = cs.rdropWhile isBlank := fun _ ↦ rfl
  induction cs using List.reverseRecOn with
  | nil => rfl
  | append_singleton cs c ih =>
    rw [htrim, htrim] at ih ⊢
    rw [crlf_append, List.rdropWhile_concat]
    by_cases hc : c = '\n'
    · rw [hc, show crlf ['\n'] = ['\r'] ++ ['\n'] from rfl, ← List.append_assoc,
        List.rdropWhile_concat, List.rdropWhile_concat, ih]
      rfl
    · rw [crlf_cons hc, crlf_nil, List.rdropWhile_concat, ih]
      split
      · rfl
      · rw [crlf_append, crlf_cons hc, crlf_nil]

theorem trim_crlf (cs : List Char) : trim (crlf cs) = crlf (trim cs) := by
  rw [trim, trimStart_crlf, trimEnd_crlf, trim]

/-- Pieces with a carriage return put behind all but the last of them. -/
def withReturns : List (List Char) → List (List Char)
  | [] => []
  | [last] => [last]
  | line :: next :: rest => (line ++ ['\r']) :: withReturns (next :: rest)

theorem splitAt_crlf (cs : List Char) :
    splitAt '\n' (crlf cs) = withReturns (splitAt '\n' cs) := by
  induction cs with
  | nil => rfl
  | cons c rest ih =>
    obtain ⟨line, lines, hlines⟩ := List.exists_cons_of_ne_nil (splitAt_ne_nil '\n' rest)
    by_cases hc : c = '\n'
    · rw [hc, crlf_feed, splitAt, if_neg (by decide), splitAt, if_pos rfl, splitAt, if_pos rfl, ih,
        hlines]
      rfl
    · rw [crlf_cons hc, splitAt, if_neg hc, splitAt, if_neg hc, ih, hlines]
      cases lines <;> rfl

theorem closeLines_withReturns {pieces : List (List Char)}
    (hpieces : ∀ piece ∈ pieces, '\r' ∉ piece) :
    closeLines (withReturns pieces) = closeLines pieces := by
  induction pieces with
  | nil => rfl
  | cons line rest ih =>
    rw [List.forall_mem_cons] at hpieces
    have hrest := ih hpieces.2
    cases rest with
    | nil => rfl
    | cons next rest =>
      obtain ⟨first, others, hfirst⟩ : ∃ first others, withReturns (next :: rest) =
          first :: others := by
        cases rest <;> exact ⟨_, _, rfl⟩
      rw [withReturns, closeLines,
        dropReturn_eq_self fun hlast ↦ hpieces.1 (List.mem_of_getLast? hlast), ← hrest, hfirst,
        closeLines, dropReturn_concat]

/-- The carriage returns belong to the line ends. -/
theorem lines_crlf {cs : List Char} (hcs : '\r' ∉ cs) : lines (crlf cs) = lines cs := by
  have hpieces : ∀ piece ∈ splitAt '\n' cs, '\r' ∉ piece :=
    fun piece hpiece hmem ↦ hcs ((infix_of_mem_splitAt hpiece).subset hmem)
  rw [lines, splitAt_crlf, closeLines_withReturns hpieces, lines]

/-! ### Spans -/

/-- The byte that a byte of a text becomes. -/
def crlfByte (source : List Char) (byte : Nat) : Nat :=
  byte + ((takeBytes? byte source).getD []).count '\n'

theorem crlfByte_bytes (front back : List Char) :
    crlfByte (front ++ back) (bytes front) = bytes (crlf front) := by
  rw [crlfByte, takeBytes?_append, Option.getD_some, bytes_crlf]

/-- Assumes: a character of a single byte that is no line feed. -/
theorem crlfByte_succ {c : Char} (hc : c ≠ '\n') (hwidth : c.utf8Size = 1) (front back : List Char) :
    crlfByte (front ++ c :: back) (bytes front + 1) =
      crlfByte (front ++ c :: back) (bytes front) + 1 := by
  have hbytes : ∀ cs, bytes (cs ++ [c]) = bytes cs + 1 := by
    intro cs
    rw [bytes_append, bytes_cons, hwidth]
    rfl
  have hsucc := crlfByte_bytes (front ++ [c]) back
  rw [List.append_assoc, List.singleton_append, crlf_append, crlf_cons hc, crlf_nil, hbytes, hbytes]
    at hsucc
  rw [hsucc, crlfByte_bytes]

/-- What a span reads with the carriage returns put in. -/
theorem slice_crlf {source : List Char} {start stop : Nat} (hstart : IsCut source start)
    (hstop : IsCut source stop) (hle : start ≤ stop) :
    slice ⟨crlfByte source start, crlfByte source stop⟩ (crlf source) =
      crlf (slice ⟨start, stop⟩ source) := by
  obtain ⟨front, back, hsource, rfl, hbytes⟩ := exists_slice hstart hstop hle
  generalize slice ⟨bytes front, stop⟩ source = middle at hsource hbytes ⊢
  obtain rfl : stop = bytes (front ++ middle) := by
    rw [bytes_append, hbytes]
    omega
  have hends : crlfByte source (bytes front) = bytes (crlf front) ∧
      crlfByte source (bytes (front ++ middle)) = bytes (crlf (front ++ middle)) := by
    rw [hsource, crlfByte_bytes, ← List.append_assoc, crlfByte_bytes]
    exact ⟨rfl, rfl⟩
  refine @slice_eq _ (crlf front) _ (crlf back) ?_ _ _ hends.1 ?_
  · rw [hsource, crlf_append, crlf_append]
  · rw [hends.1, hends.2, crlf_append, bytes_append]

/-! ### Strings -/

def crlfString (text : String) : String :=
  String.ofList (crlf text.toList)

theorem toList_crlfString (text : String) : (crlfString text).toList = crlf text.toList :=
  String.toList_ofList

theorem crlfString_ofList (cs : List Char) :
    crlfString (String.ofList cs) = String.ofList (crlf cs) := by
  rw [crlfString, String.toList_ofList]

theorem crlfString_eq_self {text : String} (htext : '\n' ∉ text.toList) : crlfString text = text := by
  rw [crlfString, crlf_eq_self htext, String.ofList_toList]

theorem crlfString_append (front back : String) :
    crlfString (front ++ back) = crlfString front ++ crlfString back := by
  rw [crlfString, String.toList_append, crlf_append, String.ofList_append, crlfString, crlfString]

theorem isEmpty_crlfString (text : String) : (crlfString text).isEmpty = text.isEmpty := by
  have hnil : ∀ cs, crlf cs = [] ↔ cs = [] := by
    intro cs
    cases cs with
    | nil => exact Iff.rfl
    | cons c rest => by_cases hc : c = '\n' <;> simp [crlf, hc]
  rw [Bool.eq_iff_iff, String.isEmpty_iff, String.isEmpty_iff, ← String.toList_eq_nil_iff,
    ← String.toList_eq_nil_iff, toList_crlfString, hnil]

end Text

end Conform
