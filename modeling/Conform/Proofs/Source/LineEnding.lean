import Conform.Proofs.Source.Measure
import Conform.Proofs.Text.LineEnding

/-!
Lexemes of texts with a carriage return before every line feed. Wherever a lexeme goes on behind a
line feed it goes on behind a carriage return in front of it too, and where a line feed ends it the
carriage return does, so the lexemes are those of the text without the carriage returns, with the
carriage returns put in (`Lexeme.ofChars_crlf`). Only in the text of a directive a slash takes the one
character behind it, be it a line feed or the carriage return in front of it; directives that end with
their lines have no such slash (`Directive.EndsLine`).
-/

set_option autoImplicit false

namespace Conform.Source

open Text (crlf crlf_cons crlf_feed crlf_eq_self crlfLength crlfLength_cons crlf_nil)

/-! ### Literals -/

theorem opening?_crlf (cs : List Char) : opening? (crlf cs) = opening? cs := by
  have hdollars : ∀ cs, (crlf cs).takeWhile (· = '$') = cs.takeWhile (· = '$') :=
    Text.takeWhile_crlf_of_false (by decide) (by decide)
  have hquotes : ∀ cs, (crlf cs).takeWhile (· = '"') = cs.takeWhile (· = '"') :=
    Text.takeWhile_crlf_of_false (by decide) (by decide)
  have hdrop : ∀ cs, (crlf cs).dropWhile (· = '$') = crlf (cs.dropWhile (· = '$')) :=
    Text.dropWhile_crlf (by decide)
  have hhead : ∀ cs, (crlf cs).head? = some '"' ↔ cs.head? = some '"' :=
    Text.head?_crlf (by decide) (by decide)
  simp only [opening?_eq, hdollars, hdrop, hquotes, hhead]
  rcases cs.dropWhile (fun c ↦ decide (c = '$')) with _ | ⟨c, rest⟩
  · rfl
  by_cases hc : c = '\n'
  · simp [hc]
  rw [crlf_cons hc]
  simp only [List.head?_cons, List.tail_cons, hhead]
  rcases rest with _ | ⟨d, rest⟩
  · rfl
  by_cases hd : d = '\n'
  · simp [hd]
  rw [crlf_cons hd]
  simp only [List.head?_cons, List.tail_cons, hhead]
  congr

/-- No line feed is a part of the opening mark of a string. -/
theorem notMem_opening? {cs : List Char} {frame : Frame} {length : Nat}
    (hopening : opening? cs = some (frame, length)) : '\n' ∉ cs.take length := by
  have hmarks : ∀ mark : Char, mark ≠ '\n' → ∀ cs : List Char,
      '\n' ∉ cs.take (cs.takeWhile (· = mark)).length := by
    intro mark hmark cs hmem
    rw [← List.prefix_iff_eq_take.mp (List.takeWhile_prefix _)] at hmem
    simpa [hmark.symm] using List.mem_takeWhile_imp hmem
  have htake : ∀ n, '\n' ∉ (cs.dropWhile (· = '$')).take n →
      '\n' ∉ cs.take ((cs.takeWhile (· = '$')).length + n) := by
    intro n hrest hmem
    rw [List.take_add, List.mem_append, drop_length_takeWhile] at hmem
    exact hmem.elim (hmarks '$' (by decide) cs) hrest
  simp only [opening?_eq] at hopening
  rcases hrest : cs.dropWhile (fun c ↦ decide (c = '$')) with _ | ⟨c, rest⟩
  · simp [hrest] at hopening
  rw [hrest] at hopening
  split_ifs at hopening with hquote hfenced hsecond hthird
  · cases hopening
    exact htake _ (hrest ▸ hmarks '"' (by decide) _)
  · cases hopening
    exact htake 1 (by simp_all)
  · cases hopening
    refine htake 2 ?_
    rcases rest with _ | ⟨d, rest⟩
    · simp at hsecond
    · simp_all
  · cases hopening
    refine htake 3 ?_
    rcases rest with _ | ⟨d, _ | ⟨e, rest⟩⟩
    · simp at hthird
    · simp at hthird
    · simp_all

/-- Whether a frame is that of a literal where a backslash takes the character behind it. -/
def Frame.escapes : Frame → Bool
  | character => true
  | plain _ => true
  | _ => false

/-- Whether no line feed is passed over in front of a text, but for one that a backslash takes. -/
def PassesLines (next : List Frame × Nat) (cs : List Char) : Prop :=
  '\n' ∉ cs.take next.2 ∨
    ∃ frame outer, next = (frame :: outer, 1) ∧ frame.escapes = true

section PassesLines

variable {frames : List Frame} {cs : List Char}

theorem passesLines_zero : PassesLines (frames, 0) cs :=
  .inl List.not_mem_nil

theorem passesLines_next {c : Char} (hc : c ≠ '\n') (hhead : cs.head? = some c) :
    PassesLines (frames, 1) cs := by
  cases cs with
  | nil => contradiction
  | cons d rest =>
    obtain rfl := Option.some.inj hhead
    exact .inl (by simpa using hc.symm)

theorem PassesLines.ite {p : Prop} [Decidable p] {next other : List Frame × Nat}
    (hnext : p → PassesLines next cs) (hother : PassesLines other cs) :
    PassesLines (if p then next else other) cs := by
  split
  · exact hnext ‹p›
  · exact hother

theorem passesLines_advanceHole (opened braces : Nat) (outer : List Frame) (c : Char) :
    PassesLines (advanceHole opened braces outer c cs) cs := by
  unfold advanceHole
  refine .ite (fun _ ↦ passesLines_zero) (.ite (fun _ ↦ passesLines_zero)
    (.ite (fun _ ↦ .ite (fun _ ↦ passesLines_zero) passesLines_zero) (.ite (fun _ ↦ ?_)
      (.ite (fun _ ↦ passesLines_zero) ?_))))
  · split
    · exact passesLines_next (by decide : ':' ≠ '\n') rfl
    · exact passesLines_zero
  · split
    · exact passesLines_next (by decide : '/' ≠ '\n') rfl
    · exact passesLines_next (by decide : '*' ≠ '\n') rfl
    · split
      · rename_i frame length hopening
        refine .inl fun hmem ↦ notMem_opening? hopening ?_
        cases length with
        | zero => contradiction
        | succ length => exact List.mem_cons_of_mem c hmem
      · exact passesLines_zero

theorem passesLines_advance (frame : Frame) (outer : List Frame) (c : Char) :
    PassesLines (advance frame outer c cs) cs := by
  have hbrace : ∀ holes : Bool, PassesLines
      (if holes && c = '\x7b' then
        if cs.head? = some '\x7b' then (frame :: outer, 1)
        else (.hole 0 1 false :: frame :: outer, 0)
      else (frame :: outer, 0)) cs :=
    fun holes ↦ .ite (fun _ ↦ .ite (passesLines_next (by decide)) passesLines_zero) passesLines_zero
  cases frame with
  | character =>
    exact .ite (fun _ ↦ .inr ⟨_, _, rfl, rfl⟩) (.ite (fun _ ↦ passesLines_zero) passesLines_zero)
  | plain holes =>
    exact .ite (fun _ ↦ .inr ⟨_, _, rfl, rfl⟩) (.ite (fun _ ↦ passesLines_zero) (hbrace holes))
  | doubled holes =>
    exact .ite (fun _ ↦ .ite (passesLines_next (by decide)) passesLines_zero) (hbrace holes)
  | fenced quotes braces quotesSeen bracesSeen =>
    exact .ite (fun _ ↦ .ite (fun _ ↦ passesLines_zero) passesLines_zero)
      (.ite (fun _ ↦ .ite (fun _ ↦ passesLines_zero) passesLines_zero) passesLines_zero)
  | hole opened braces format =>
    cases format with
    | true => exact .ite (fun _ ↦ passesLines_zero) passesLines_zero
    | false => exact passesLines_advanceHole opened braces outer c
  | lineNote => exact .ite (fun _ ↦ passesLines_zero) passesLines_zero
  | blockNote =>
    refine .ite (fun hclose ↦ ?_) passesLines_zero
    rw [Bool.and_eq_true, decide_eq_true_eq, decide_eq_true_eq] at hclose
    exact passesLines_next (by decide) hclose.2

end PassesLines

theorem advanceHole_crlf (opened braces : Nat) (outer : List Frame) {c : Char} (hc : c ≠ '\n')
    (rest : List Char) :
    advanceHole opened braces outer c (crlf rest) = advanceHole opened braces outer c rest := by
  have hopening := opening?_crlf (c :: rest)
  rw [crlf_cons hc] at hopening
  unfold advanceHole
  rw [hopening]
  cases rest with
  | nil => rfl
  | cons d rest =>
    by_cases hd : d = '\n'
    · by_cases hnote : c = '/' <;> simp [hd, hnote]
    · rw [crlf_cons hd]
      by_cases hnote : c = '/'
      · subst hnote
        by_cases hslash : d = '/'
        · simp [hslash]
        · by_cases hstar : d = '*' <;> simp [hslash, hstar]
      · by_cases hcolon : d = ':' <;> simp [hnote, hcolon]

theorem advance_crlf (frame : Frame) (outer : List Frame) {c : Char} (hc : c ≠ '\n')
    (rest : List Char) : advance frame outer c (crlf rest) = advance frame outer c rest := by
  have hhead : ∀ d, d ≠ '\r' → d ≠ '\n' → ((crlf rest).head? = some d) = (rest.head? = some d) :=
    fun d hreturn hfeed ↦ propext (Text.head?_crlf hreturn hfeed rest)
  cases frame with
  | hole opened braces format =>
    cases format with
    | true => rfl
    | false => exact advanceHole_crlf opened braces outer hc rest
  | _ =>
    simp only [advance, ne_eq, hhead '"' (by decide) (by decide),
      hhead '\x7b' (by decide) (by decide), hhead '/' (by decide) (by decide)]

/-- A line end leads from a frame where its line feed leads, with a carriage return in front of it
or not. -/
theorem advance_lineEnd (frame : Frame) (outer : List Frame) :
    ∃ passed frames, ∀ rest, advance frame outer '\r' rest = (passed :: outer, 0) ∧
      advance passed outer '\n' rest = (frames, 0) ∧
      advance frame outer '\n' rest = (frames, 0) := by
  cases frame with
  | hole opened braces format => cases format <;> exact ⟨_, _, fun _ ↦ ⟨rfl, rfl, rfl⟩⟩
  | fenced quotes braces quotesSeen bracesSeen =>
    exact ⟨.fenced quotes braces 0 0, _, fun _ ↦ ⟨rfl, rfl, rfl⟩⟩
  | plain holes => cases holes <;> exact ⟨_, _, fun _ ↦ ⟨rfl, rfl, rfl⟩⟩
  | doubled holes => cases holes <;> exact ⟨_, _, fun _ ↦ ⟨rfl, rfl, rfl⟩⟩
  | _ => exact ⟨_, _, fun _ ↦ ⟨rfl, rfl, rfl⟩⟩

/-- A literal is as long as its text with the carriage returns. -/
theorem literalLength_crlf {frames : List Frame} {skip : Nat} {cs : List Char}
    (hpasses : PassesLines (frames, skip) cs) :
    literalLength frames skip (crlf cs) = crlfLength cs (literalLength frames skip cs) := by
  induction cs generalizing frames skip with
  | nil => rfl
  | cons c rest ih =>
    by_cases hc : c = '\n'
    · subst hc
      rw [crlf_feed]
      cases skip with
      | succ skip =>
        obtain hpasses | ⟨frame, outer, hframes, hescapes⟩ := hpasses
        · simp at hpasses
        · cases hframes
          have hstay : ∀ rest, advance frame outer '\n' rest = (frame :: outer, 0) := by
            cases frame with
            | character => exact fun _ ↦ rfl
            | plain holes => cases holes <;> exact fun _ ↦ rfl
            | _ => contradiction
          simp only [literalLength, hstay, ih passesLines_zero, Nat.add_comm 1,
            Text.crlfLength_feed]
      | zero =>
        cases frames with
        | nil => rfl
        | cons frame outer =>
          obtain ⟨passed, frames, hadvance⟩ := advance_lineEnd frame outer
          simp only [literalLength, hadvance, ih passesLines_zero, Nat.add_comm 1,
            Text.crlfLength_feed]
    · rw [crlf_cons hc]
      cases skip with
      | succ skip =>
        have hrest : PassesLines (frames, skip) rest := by
          obtain hpasses | ⟨frame, outer, hframes, -⟩ := hpasses
          · exact .inl fun hmem ↦ hpasses (List.mem_cons_of_mem c hmem)
          · cases hframes
            exact passesLines_zero
        rw [literalLength, literalLength, ih hrest, Nat.add_comm, Nat.add_comm 1,
          crlfLength_cons hc]
      | zero =>
        cases frames with
        | nil => rfl
        | cons frame outer =>
          have hnext := @passesLines_advance rest frame outer c
          rcases hadvance : advance frame outer c rest with ⟨frames, skip⟩
          rw [hadvance] at hnext
          simp only [literalLength, advance_crlf frame outer hc, hadvance, ih hnext, Nat.add_comm 1,
            crlfLength_cons hc]

/-! ### Comments -/

theorem head?_crlf_slash (cs : List Char) : (crlf cs).head? = some '/' ↔ cs.head? = some '/' :=
  Text.head?_crlf (by decide) (by decide) cs

theorem head?_crlf_star (cs : List Char) : (crlf cs).head? = some '*' ↔ cs.head? = some '*' :=
  Text.head?_crlf (by decide) (by decide) cs

/-- Two characters that stay as they are. -/
theorem crlf_cons_cons {c d : Char} (hc : c ≠ '\n') (hd : d ≠ '\n') (rest : List Char) :
    crlf (c :: d :: rest) = c :: d :: crlf rest := by
  rw [crlf_cons hc, crlf_cons hd]

theorem crlfLength_cons_cons {c d : Char} (hc : c ≠ '\n') (hd : d ≠ '\n') (rest : List Char)
    (n : Nat) : crlfLength (c :: d :: rest) (2 + n) = 2 + crlfLength rest n := by
  rw [Nat.add_comm, crlfLength_cons hc, crlfLength_cons hd, Nat.add_comm 2]

theorem crlfLength_one_add {c : Char} (hc : c ≠ '\n') (rest : List Char) (n : Nat) :
    crlfLength (c :: rest) (1 + n) = 1 + crlfLength rest n := by
  rw [Nat.add_comm, crlfLength_cons hc, Nat.add_comm]

theorem crlfLength_feed_one_add (rest : List Char) (n : Nat) :
    crlfLength ('\n' :: rest) (1 + n) = 1 + (1 + crlfLength rest n) := by
  rw [Nat.add_comm, Text.crlfLength_feed]
  omega

/-- Two characters that do not stand at the start do not stand there with the carriage returns. -/
theorem not_pair_crlf {c d first : Char} {rest : List Char} (hreturn : d ≠ '\r') (hfeed : d ≠ '\n')
    (hstart : ∀ inner, c = first → rest = d :: inner → False) :
    ¬(c = first ∧ (crlf rest).head? = some d) := by
  rintro ⟨hc, hhead⟩
  obtain ⟨inner, hinner⟩ := List.head?_eq_some_iff.mp ((Text.head?_crlf hreturn hfeed rest).mp hhead)
  exact hstart inner hc hinner

namespace Lexeme

theorem noteLength_crlf (cs : List Char) :
    noteLength (crlf cs) = crlfLength cs (noteLength cs) := by
  induction cs with
  | nil => rfl
  | cons c rest ih =>
    by_cases hc : c = '\n'
    · simp [hc, noteLength_cons, ih, crlfLength_feed_one_add]
    · simp only [crlf_cons hc, noteLength_cons, head?_crlf_slash]
      split
      · rename_i hclose
        obtain ⟨inner, rfl⟩ := List.head?_eq_some_iff.mp hclose.2
        exact (crlfLength_cons_cons hc (by decide) inner 0).symm
      · rw [ih, crlfLength_one_add hc]

end Lexeme

/-! ### Directives -/

namespace Directive

theorem lineLength_crlf (cs : List Char) :
    lineLength (crlf cs) = crlfLength cs (lineLength cs) := by
  induction cs with
  | nil => rfl
  | cons c rest ih =>
    by_cases hc : c = '\n'
    · simp [hc, lineLength_cons]
    · rw [crlf_cons hc, lineLength_cons, if_neg hc, lineLength_cons, if_neg hc, ih,
        crlfLength_one_add hc]

theorem restLength_crlf (inNote : Bool) (cs : List Char) :
    restLength inNote (crlf cs) = crlfLength cs (restLength inNote cs) := by
  fun_induction restLength inNote cs with
  | case1 inNote => cases inNote <;> rfl
  | case2 rest ih =>
    rw [crlf_cons_cons (by decide) (by decide), restLength, ih,
      crlfLength_cons_cons (by decide) (by decide)]
  | case3 c rest hopen ih =>
    by_cases hc : c = '\n'
    · simp [hc, restLength_note, ih, crlfLength_feed_one_add]
    · rw [crlf_cons hc, restLength_note, if_neg (not_pair_crlf (by decide) (by decide) hopen), ih,
        crlfLength_one_add hc]
  | case4 => rfl
  | case5 rest =>
    rw [crlf_cons_cons (by decide) (by decide), restLength, lineLength_crlf,
      crlfLength_cons_cons (by decide) (by decide)]
  | case6 rest ih =>
    rw [crlf_cons_cons (by decide) (by decide), restLength, ih,
      crlfLength_cons_cons (by decide) (by decide)]
  | case7 c rest hc hline hnote ih =>
    rw [crlf_cons hc, restLength_line, if_neg hc,
      if_neg (not_pair_crlf (by decide) (by decide) hline),
      if_neg (not_pair_crlf (by decide) (by decide) hnote), ih, crlfLength_one_add hc]

theorem crlfLength_append_of_le {front : List Char} {n : Nat} (hn : n ≤ front.length)
    (back : List Char) : crlfLength (front ++ back) n = crlfLength front n := by
  rw [crlfLength, List.take_append_of_le_length hn, crlfLength]

/-- Assumes: what has been passed, with what of it was the condition so far. -/
theorem conditionLength_crlf {front : List Char} {passed last : Nat}
    (hpassed : front.length = passed) (hlast : last ≤ front.length) (inNote : Bool)
    (cs : List Char) :
    conditionLength (crlf front).length (crlfLength front last) inNote (crlf cs) =
      crlfLength (front ++ cs) (conditionLength passed last inNote cs) := by
  have hpass : ∀ {front more : List Char} {last : Nat}, last ≤ front.length →
      crlfLength (front ++ more) last = crlfLength front last :=
    fun hle ↦ crlfLength_append_of_le hle _
  fun_induction conditionLength passed last inNote cs generalizing front with
  | case1 passed last inNote => cases inNote <;> exact (hpass hlast).symm
  | case2 passed last rest ih =>
    have hnext := @ih (front ++ ['*', '/']) (by simp [hpassed]) (by simp; omega)
    rw [Text.crlf_append, List.length_append, hpass hlast, List.append_assoc] at hnext
    rw [crlf_cons_cons (by decide) (by decide), conditionLength]
    exact hnext
  | case3 passed last c rest hopen ih =>
    have hnext := @ih (front ++ [c]) (by simp [hpassed]) (by simp; omega)
    rw [Text.crlf_append, List.length_append, hpass hlast, List.append_assoc] at hnext
    by_cases hc : c = '\n'
    · subst hc
      rw [crlf_feed, conditionLength_note, if_neg (by simp), conditionLength_note,
        if_neg (by simp)]
      exact hnext
    · rw [crlf_cons hc] at hnext ⊢
      rw [conditionLength_note, if_neg (not_pair_crlf (by decide) (by decide) hopen)]
      exact hnext
  | case4 passed last rest =>
    rw [crlf_cons_cons (by decide) (by decide), conditionLength, hpass hlast]
  | case5 passed last rest ih =>
    have hnext := @ih (front ++ ['/', '*']) (by simp [hpassed]) (by simp; omega)
    rw [Text.crlf_append, List.length_append, hpass hlast, List.append_assoc] at hnext
    rw [crlf_cons_cons (by decide) (by decide), conditionLength]
    exact hnext
  | case6 passed last c rest hline hnote hend =>
    rw [Bool.or_eq_true, decide_eq_true_eq, decide_eq_true_eq] at hend
    rw [hpass hlast]
    rcases hend with rfl | rfl
    · rw [crlf_feed, conditionLength_line]
      simp
    · rw [crlf_cons (by decide), conditionLength_line]
      simp
  | case7 passed last c rest hline hnote hend ih =>
    rw [Bool.or_eq_true, decide_eq_true_eq, decide_eq_true_eq] at hend
    obtain ⟨hc, -⟩ := not_or.mp hend
    have hreached : crlfLength (front ++ [c]) (if isIndent c then last else passed + 1) =
        if isIndent c then crlfLength front last else (crlf front).length + 1 := by
      split
      · exact hpass hlast
      · rw [← hpassed, crlfLength, List.take_of_length_le (by simp), Text.crlf_append,
          crlf_cons hc]
        simp
    have hnext := @ih (front ++ [c]) (by simp [hpassed]) (by simp; split <;> omega)
    rw [hreached, Text.crlf_append, crlf_cons hc, List.length_append, List.append_assoc] at hnext
    rw [crlf_cons hc, conditionLength_line, if_neg (not_pair_crlf (by decide) (by decide) hline),
      if_neg (not_pair_crlf (by decide) (by decide) hnote), if_neg hend]
    exact hnext

/-! ### Texts of directives -/

/-- The length of a text and of what it leaves of the line. -/
def textReach (cs : List Char) : Nat :=
  textLength cs + restLength false (cs.drop (textLength cs))

theorem textReach_append {front rest : List Char}
    (hlength : textLength (front ++ rest) = front.length + textLength rest) :
    textReach (front ++ rest) = front.length + textReach rest := by
  rw [textReach, hlength, List.drop_length_add_append, Nat.add_assoc, textReach]

theorem restLength_pos (inNote : Bool) (c : Char) (rest : List Char) :
    0 < restLength inNote (c :: rest) := by
  cases inNote with
  | true =>
    rw [restLength_note]
    split <;> omega
  | false =>
    rw [restLength_line]
    split_ifs <;> omega

/-- A text is not empty that reaches nowhere. -/
theorem eq_nil_of_textReach_eq_zero {cs : List Char} (hcs : textReach cs = 0) : cs = [] := by
  cases cs with
  | nil => rfl
  | cons c rest =>
    obtain ⟨htext, hrest⟩ := Nat.add_eq_zero_iff.mp hcs
    have hpos := restLength_pos false c rest
    rw [htext, List.drop_zero] at hrest
    omega

/-- Whether no slash carries a text over a line feed: where one stands right before a line feed, that
is the end of the text. -/
def EndsLine (cs : List Char) : Prop :=
  ∀ front back, cs = front ++ '/' :: '\n' :: back → back = []

theorem endsLine_of_notMem {cs : List Char} (hcs : '/' ∉ cs) : EndsLine cs := by
  rintro front back rfl
  exact absurd (by simp) hcs

theorem EndsLine.right {front back : List Char} (hends : EndsLine (front ++ back)) :
    EndsLine back := by
  rintro before behind rfl
  exact hends (front ++ before) behind (List.append_assoc _ _ _).symm

/-- Assumes: a text that no slash carries over a line feed. -/
theorem textReach_crlf {cs : List Char} (hreturn : '\r' ∉ cs)
    (hends : EndsLine (cs.take (textReach cs))) :
    textReach (crlf cs) = crlfLength cs (textReach cs) := by
  have hrest : ∀ {front rest : List Char}, '\r' ∉ front ++ rest →
      EndsLine ((front ++ rest).take (front.length + textReach rest)) →
      '\r' ∉ rest ∧ EndsLine (rest.take (textReach rest)) := by
    intro front rest hreturn hends
    rw [List.take_length_add_append] at hends
    exact ⟨fun hmem ↦ hreturn (List.mem_append_right _ hmem), hends.right⟩
  fun_induction textLength cs with
  | case1 => rfl
  | case2 rest => rfl
  | case3 rest ih =>
    have hreach : textReach ('\\' :: '\n' :: rest) = 2 + textReach rest :=
      @textReach_append ['\\', '\n'] rest rfl
    have himage : textReach ('\\' :: '\r' :: '\n' :: crlf rest) = 3 + textReach (crlf rest) :=
      @textReach_append ['\\', '\r', '\n'] (crlf rest) rfl
    rw [hreach] at hends ⊢
    obtain ⟨hreturn, hends⟩ := @hrest ['\\', '\n'] rest hreturn hends
    rw [crlf_cons (by decide), crlf_feed, himage, ih hreturn hends, Nat.add_comm 2,
      crlfLength_cons (by decide), Text.crlfLength_feed]
    omega
  | case4 rest ih => simp at hreturn
  | case5 rest =>
    have hreach : ∀ rest, textReach ('/' :: '*' :: rest) = restLength false ('/' :: '*' :: rest) :=
      fun rest ↦ Nat.zero_add _
    have himage := restLength_crlf false ('/' :: '*' :: rest)
    rw [crlf_cons_cons (by decide) (by decide)] at himage ⊢
    rw [hreach, hreach, himage]
  | case6 c rest hstar ih =>
    have htwo : ∀ text, textReach ('/' :: c :: text) = 2 + textReach text :=
      fun text ↦ @textReach_append ['/', c] text (by simp [textLength_cons, show c ≠ '*' from hstar])
    rw [htwo] at hends ⊢
    by_cases hc : c = '\n'
    · subst hc
      rw [Nat.add_comm, List.take_succ_cons, List.take_succ_cons] at hends
      obtain rfl : rest = [] := (List.take_eq_nil_iff.mp (hends [] _ rfl)).elim
        eq_nil_of_textReach_eq_zero id
      rfl
    · obtain ⟨hreturn, hends⟩ := @hrest ['/', c] rest hreturn hends
      rw [crlf_cons_cons (by decide) hc, htwo, ih hreturn hends,
        crlfLength_cons_cons (by decide) hc]
  | case7 c rest hfeed hline hback hnote hslash ih =>
    have hlength : textLength (c :: rest) = 1 + textLength rest := by
      rw [textLength] <;> assumption
    have hreach : textReach (c :: rest) = 1 + textReach rest := @textReach_append [c] rest hlength
    rw [hreach] at hends ⊢
    obtain ⟨hreturn, hends⟩ := @hrest [c] rest hreturn hends
    have himage : textLength (c :: crlf rest) = 1 + textLength (crlf rest) := by
      cases rest with
      | nil => exact hlength
      | cons d inner =>
        have hfeed : c ≠ '\n' := hfeed
        have hslash : c ≠ '/' := fun hc ↦ hslash d inner hc rfl
        rw [List.mem_cons, not_or] at hreturn
        by_cases hd : d = '\n'
        · have hback : c ≠ '\\' := fun hc ↦ hline inner hc (by rw [hd])
          simp [hd, textLength_cons, hfeed, hback, hslash]
        · simp [crlf_cons hd, textLength_cons c, hfeed, hd, hslash, Ne.symm hreturn.1]
    have hnext : textReach (c :: crlf rest) = 1 + textReach (crlf rest) :=
      @textReach_append [c] (crlf rest) himage
    rw [crlf_cons hfeed, hnext, ih hreturn hends, crlfLength_one_add hfeed]

/-! ### Whole directives -/

/-- The indentation of a text is as it was, or a line feed ends it and its carriage return is taken
for a part of it. -/
theorem indent_crlf (cs : List Char) :
    ((crlf cs).takeWhile isIndent = cs.takeWhile isIndent ∧
        (crlf cs).dropWhile isIndent = crlf (cs.dropWhile isIndent) ∧
        (cs.dropWhile isIndent).head? ≠ some '\n') ∨
      ∃ rest, cs.dropWhile isIndent = '\n' :: rest ∧
        (crlf cs).takeWhile isIndent = cs.takeWhile isIndent ++ ['\r'] ∧
        (crlf cs).dropWhile isIndent = '\n' :: crlf rest := by
  have hreturn : isIndent '\r' = true := by decide
  have hfeed : isIndent '\n' = false := by decide
  induction cs with
  | nil => exact .inl ⟨rfl, rfl, nofun⟩
  | cons c rest ih =>
    by_cases hc : c = '\n'
    · subst hc
      exact .inr ⟨rest, by simp [hfeed], by simp [hfeed, hreturn], by simp [hfeed, hreturn]⟩
    · rw [crlf_cons hc]
      cases hindent : isIndent c with
      | true => simpa [hindent] using ih
      | false => exact .inl ⟨by simp [hindent], by simp [hindent, crlf_cons hc], by simp [hindent, hc]⟩

theorem notMem_indent (cs : List Char) : '\n' ∉ cs.takeWhile isIndent :=
  fun hmem ↦ absurd (List.mem_takeWhile_imp hmem) (by decide)

theorem name_crlf (cs : List Char) : name (crlf cs) = name cs := by
  unfold name
  rcases indent_crlf cs with ⟨-, hdrop, -⟩ | ⟨rest, hrest, -, hdrop⟩
  · rw [hdrop, Text.takeWhile_crlf_of_false (by decide) (by decide)]
  · rw [hdrop, hrest]
    rfl

/-- The length of the text of a directive and of what it leaves of the line. -/
def ownReach (cs : List Char) : Nat :=
  ownText cs + restLength false (cs.drop (ownText cs))

theorem ownReach_of_cons {cs : List Char} {c : Char} {rest : List Char}
    (hrest : cs.dropWhile isIndent = c :: rest) :
    ownReach cs = (cs.takeWhile isIndent).length +
      if c = '\n' ∨ c = '/' ∧ (rest.head? = some '/' ∨ rest.head? = some '*') then
        restLength false (c :: rest)
      else 1 + textReach rest := by
  have hdrop : ∀ n, cs.drop ((cs.takeWhile isIndent).length + n) = (c :: rest).drop n := by
    intro n
    rw [← List.drop_drop, drop_length_takeWhile, hrest]
  rw [ownReach, ownText_of_cons hrest, hdrop]
  split
  · rfl
  · rw [Nat.add_comm 1, List.drop_succ_cons, textReach]
    omega

theorem ownReach_of_nil {cs : List Char} (hrest : cs.dropWhile isIndent = []) :
    ownReach cs = (cs.takeWhile isIndent).length := by
  have hown : ownText cs = (cs.takeWhile isIndent).length := by
    unfold ownText
    simp only [drop_length_takeWhile, hrest]
  rw [ownReach, hown, drop_length_takeWhile, hrest]
  rfl

/-- Indentation stays as long as it is. -/
theorem crlfLength_indent (cs : List Char) (n : Nat) :
    crlfLength cs ((cs.takeWhile isIndent).length + n) =
      (cs.takeWhile isIndent).length + crlfLength (cs.dropWhile isIndent) n := by
  rw [Text.crlfLength_add, Text.crlfLength_takeWhile, crlf_eq_self (notMem_indent cs),
    drop_length_takeWhile]

/-- Assumes: a text that no slash carries over a line feed. -/
theorem ownReach_crlf {cs : List Char} (hreturn : '\r' ∉ cs)
    (hends : EndsLine (cs.take (ownReach cs))) :
    ownReach (crlf cs) = crlfLength cs (ownReach cs) := by
  have hsplit := List.takeWhile_append_dropWhile (p := isIndent) (l := cs)
  have hindent := crlfLength_indent cs
  rcases indent_crlf cs with ⟨htake, hdrop, hhead⟩ | ⟨rest, hrest, htake, hdrop⟩
  · cases hrest : cs.dropWhile isIndent with
    | nil =>
      have hzero := hindent 0
      rw [Nat.add_zero, hrest] at hzero
      rw [ownReach_of_nil hrest, ownReach_of_nil (by rw [hdrop, hrest]; rfl), htake, hzero]
      rfl
    | cons c rest =>
      have hc : c ≠ '\n' := by
        rintro rfl
        exact hhead (by rw [hrest]; rfl)
      rw [hrest, crlf_cons hc] at hdrop
      rw [ownReach_of_cons hrest] at hends ⊢
      rw [ownReach_of_cons hdrop, htake, hindent, hrest]
      simp only [head?_crlf_slash, head?_crlf_star]
      split
      · rw [← crlf_cons hc, restLength_crlf]
      · rename_i htext
        rw [if_neg htext] at hends
        nth_rewrite 2 [← hsplit] at hends
        rw [hrest, List.take_length_add_append, Nat.add_comm, List.take_succ_cons] at hends
        have hbehind : '\r' ∉ rest := by
          rw [← hsplit, hrest] at hreturn
          exact fun hmem ↦ hreturn (List.mem_append_right _ (List.mem_cons_of_mem c hmem))
        rw [textReach_crlf hbehind (@EndsLine.right [c] _ hends.right), crlfLength_one_add hc]
  · have hone : crlfLength ('\n' :: rest) 1 = 2 := rfl
    rw [ownReach_of_cons hrest, ownReach_of_cons hdrop, htake, hindent, hrest, if_pos (.inl rfl),
      if_pos (.inl rfl), restLength, restLength, hone, List.length_append]
    rfl

/-- Assumes: a text that no slash carries over a line feed. -/
theorem tailLength_crlf (name : String) {behind : List Char} (hreturn : '\r' ∉ behind)
    (hends : EndsLine (behind.take (tailLength name behind))) :
    tailLength name (crlf behind) = crlfLength behind (tailLength name behind) := by
  have hcondition : conditionLength 0 0 false (crlf behind) =
      crlfLength behind (conditionLength 0 0 false behind) :=
    @conditionLength_crlf [] 0 0 rfl (Nat.le_refl 0) false behind
  unfold tailLength at hends ⊢
  cases hrole : roleOf name <;> simp only [hrole] at hends ⊢
  case split => exact hcondition
  case turn =>
    split
    · exact hcondition
    · rfl
  case join => rfl
  case line =>
    cases htext : takesText name with
    | true =>
      simp only [htext, if_true] at hends ⊢
      exact ownReach_crlf hreturn hends
    | false => simpa using restLength_crlf false behind

theorem length_crlf {cs : List Char} (hreturn : '\r' ∉ cs)
    (hends : EndsLine (cs.take (length cs))) :
    length (crlf cs) = crlfLength cs (length cs) := by
  rcases indent_crlf cs with ⟨htake, hdrop, hhead⟩ | ⟨rest, hrest, htake, hdrop⟩
  · have hname : '\n' ∉ cs.take (headLength cs) := by
      rw [headLength, List.take_add, drop_length_takeWhile, name, String.length_ofList,
        ← List.prefix_iff_eq_take.mp (List.takeWhile_prefix _),
        ← List.prefix_iff_eq_take.mp (List.takeWhile_prefix _), List.mem_append, not_or]
      exact ⟨notMem_indent cs, fun hmem ↦ absurd (List.mem_takeWhile_imp hmem) (by decide)⟩
    have hstays : crlfLength cs (headLength cs) = headLength cs := by
      rw [crlfLength, crlf_eq_self hname, List.length_take, Nat.min_eq_left (headLength_le cs)]
    have himage : headLength (crlf cs) = headLength cs := by
      rw [headLength, htake, name_crlf, headLength]
    rw [length_eq, List.take_add] at hends
    rw [length_eq, length_eq, himage, name_crlf, Text.crlfLength_add, hstays]
    nth_rewrite 2 [← hstays]
    rw [Text.drop_crlf, tailLength_crlf _ (fun hmem ↦ hreturn (List.mem_of_mem_drop hmem))
      hends.right]
  · have hempty : name cs = "" := by
      rw [name, hrest]
      rfl
    have hlength : ∀ cs, name cs = "" → length cs =
        (cs.takeWhile isIndent).length + restLength false (cs.dropWhile isIndent) := by
      intro cs hname
      have htail : ∀ behind, tailLength "" behind = restLength false behind :=
        fun behind ↦ Nat.zero_add _
      rw [length_eq, headLength, hname, htail, ← drop_length_takeWhile]
      rfl
    rw [hlength cs hempty, hlength (crlf cs) (by rw [name_crlf, hempty]), crlfLength_indent, htake,
      hdrop, hrest, restLength, restLength, List.length_append]
    rfl

end Directive

/-! ### Lexemes -/

/-- A lexeme with a carriage return put before every line feed. -/
def Lexeme.crlf (lexeme : Lexeme) : Lexeme :=
  ⟨lexeme.kind, String.ofList (Text.crlf lexeme.chars)⟩

namespace Lexeme

theorem byteMarkLength_crlf (cs : List Char) :
    byteMarkLength (Text.crlf cs) = crlfLength cs (byteMarkLength cs) := by
  rcases cs with _ | ⟨c, _ | ⟨d, rest⟩⟩
  · rfl
  · have hone : ∀ c, byteMarkLength [c] = 0 := fun c ↦ by simp [byteMarkLength]
    by_cases hc : c = '\n'
    · subst hc
      rfl
    · rw [crlf_cons hc, crlf_nil, hone]
      rfl
  · by_cases hc : c = '\n'
    · simp [hc, byteMarkLength]
    · by_cases hd : d = '\n'
      · rw [crlf_cons hc, hd, crlf_feed]
        simp [byteMarkLength]
      · have htwo : crlfLength (c :: d :: rest) 2 = 2 := crlfLength_cons_cons hc hd rest 0
        rw [crlf_cons_cons hc hd]
        unfold byteMarkLength
        split <;> split <;> simp_all

/-- No line end is the second character of a mark. -/
theorem isPair_lineEnd (c : Char) : isPair c '\n' = false ∧ isPair c '\r' = false := by
  constructor
  · by_cases hc : c = '\n' <;> simp [isPair, hc]
  · by_cases hc : c = '\r' <;> simp [isPair, hc]

theorem isPair_crlf (c : Char) (rest : List Char) :
    ((Text.crlf rest).head?.map (isPair c)).getD false = (rest.head?.map (isPair c)).getD false ∧
      ((rest.head?.map (isPair c)).getD false = true → crlfLength rest 1 = 1) := by
  cases rest with
  | nil => exact ⟨rfl, nofun⟩
  | cons d inner =>
    by_cases hd : d = '\n'
    · simp [hd, isPair_lineEnd]
    · rw [crlf_cons hd]
      exact ⟨rfl, fun _ ↦ crlfLength_one_add hd inner 0⟩

theorem plain_crlf {c : Char} (hc : c ≠ '\n') (rest : List Char) :
    plain c (Text.crlf rest) = ((plain c rest).1, crlfLength rest (plain c rest).2) := by
  have hopening := opening?_crlf (c :: rest)
  rw [crlf_cons hc] at hopening
  unfold plain
  rw [hopening]
  cases hframe : opening? (c :: rest) with
  | some opened =>
    obtain ⟨frame, length⟩ := opened
    have hpasses : PassesLines ([frame], length - 1) rest := by
      refine .inl fun hmem ↦ notMem_opening? hframe ?_
      cases length with
      | zero => contradiction
      | succ length => exact List.mem_cons_of_mem c hmem
    simp only [literalLength_crlf hpasses, Text.drop_crlf, byteMarkLength_crlf, Text.crlfLength_add]
  | none =>
    obtain ⟨hpair, hlength⟩ := isPair_crlf c rest
    simp only [Text.takeWhile_crlf (by decide : isWordPart '\r' = isWordPart '\n'), hpair,
      ← Text.crlfLength_takeWhile]
    split
    · rfl
    · split
      · rename_i htrue
        rw [hlength htrue]
      · rfl

/-- Assumes: a lexeme that starts with no line feed and, if it is a directive, ends with its line. -/
theorem measure_crlf {c : Char} (hc : c ≠ '\n') {rest : List Char} (hreturn : '\r' ∉ rest)
    (hends : c = '#' → Directive.EndsLine (rest.take (Directive.length rest))) :
    measure c (Text.crlf rest) = ((measure c rest).1, crlfLength rest (measure c rest).2) := by
  simp only [measure_eq, head?_crlf_slash, head?_crlf_star]
  split
  · rw [Text.takeWhile_crlf (by decide), Text.crlfLength_takeWhile]
  split
  · rename_i hdirective
    rw [Directive.length_crlf hreturn (hends hdirective)]
  split
  · rw [literalLength_crlf passesLines_zero]
  split
  · rw [Text.takeWhile_crlf (by decide), Text.crlfLength_takeWhile]
  split
  · rename_i hnote
    obtain ⟨inner, rfl⟩ := List.head?_eq_some_iff.mp hnote.2
    rw [crlf_cons (by decide), List.tail_cons, List.tail_cons, noteLength_crlf,
      crlfLength_one_add (by decide)]
  · exact plain_crlf hc rest

/-- Assumes: a text without carriage returns, and directives that end with their lines. The lexemes
with the carriage returns in them are the lexemes of the text with the carriage returns. -/
theorem ofChars_crlf {source : List Char} (hreturn : '\r' ∉ source)
    (hends : ∀ lexeme ∈ ofChars source, lexeme.kind = .directive →
      Directive.EndsLine lexeme.chars) :
    ofChars (Text.crlf source) = (ofChars source).map Lexeme.crlf := by
  induction hn : source.length using Nat.strongRecOn generalizing source with
  | ind n ih =>
    subst hn
    cases source with
    | nil => rw [crlf_nil, ofChars, List.map_nil]
    | cons c rest =>
      rw [List.mem_cons, not_or] at hreturn
      rw [ofChars_cons, List.forall_mem_cons] at hends
      obtain ⟨hfirst, hothers⟩ := hends
      have hnext := ih _ (by rw [List.length_drop, List.length_cons]; omega)
        (fun hmem ↦ hreturn.2 (List.mem_of_mem_drop hmem)) hothers rfl
      rw [ofChars_cons c rest, List.map_cons, ← hnext, Lexeme.crlf, Lexeme.chars, String.toList_ofList]
      by_cases hc : c = '\n'
      · subst hc
        have hgap : isGap '\n' = true ∧ isGap '\r' = true := by decide
        have hlength : (('\n' :: Text.crlf rest).takeWhile isGap).length =
            crlfLength rest (rest.takeWhile isGap).length + 1 := by
          rw [List.takeWhile_cons_of_pos hgap.1, List.length_cons,
            Text.takeWhile_crlf (hgap.2.trans hgap.1.symm), Text.crlfLength_takeWhile]
        rw [measure_of_isGap hgap.1, crlf_feed, crlf_feed, ofChars_cons, measure_of_isGap hgap.2,
          hlength, List.take_succ_cons, List.drop_succ_cons, Text.take_crlf, Text.drop_crlf]
      · have hdirective : c = '#' → Directive.EndsLine (rest.take (Directive.length rest)) := by
          rintro rfl
          have hmeasure : measure '#' rest = (.directive, Directive.length rest) := by
            rw [measure_eq, if_neg (by decide), if_pos rfl]
          rw [hmeasure, Lexeme.chars, String.toList_ofList] at hfirst
          exact @Directive.EndsLine.right ['#'] _ (hfirst rfl)
        rw [crlf_cons hc, crlf_cons hc, ofChars_cons, measure_crlf hc hreturn.2 hdirective,
          Text.take_crlf, Text.drop_crlf]

end Lexeme

end Conform.Source
