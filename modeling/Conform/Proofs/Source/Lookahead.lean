import Conform.Proofs.Source.Measure
import Mathlib.Data.List.TakeWhile
import Mathlib.Tactic.SplitIfs

/-!
How far the reading of lexemes looks ahead. A lexeme that ends before a stop, a brace or the start of
a literal, a directive or a comment, ends there whatever stands behind the stop
(`Lexeme.measure_append_stop`), so a text that is read lexeme by lexeme up to a stop is read in the
same way if the text from the stop on is replaced by another that starts with it
(`Lexeme.Splits.append_stop`). Only the condition of a directive looks further, over the comments
behind it, and a comment that is open there holds the stop itself.
-/

set_option autoImplicit false

namespace Conform.Source

/-- The characters that open and close a block, and those that literals, directives and comments
start with. -/
def IsStop (c : Char) : Prop :=
  c ∈ ['\x7b', '\x7d', '#', '\'', '"', '@', '/']

/-- A stop in front of two texts that agree in what starts at it: a verbatim string behind `@`, and
behind `/` a comment of the same sort. A condition that ends before such a comment with one text does
so with the other. -/
structure Stops (stop : Char) (tail other : List Char) : Prop where
  isStop : IsStop stop
  verbatim : stop = '@' → tail.head? = some '"' ∧ other.head? = some '"'
  note : stop = '/' → (tail.head? = some '/' ∨ tail.head? = some '*') ∧ other.head? = tail.head?
  condition : stop = '/' → ∀ passed last, last ≤ passed →
    Directive.conditionLength passed last false (stop :: tail) = last →
      Directive.conditionLength passed last false (stop :: other) = last

/-- What no stop is. -/
theorem IsStop.plain {c : Char} (hstop : IsStop c) :
    (Lexeme.isGap c = false ∧ Lexeme.isWordPart c = false ∧ Directive.isIndent c = false ∧
      c.isAlpha = false) ∧
    c ≠ '$' ∧ c ≠ '\n' ∧ c ≠ '\r' ∧ c ≠ '\\' ∧ c ≠ '*' ∧ c ≠ 'u' ∧ c ≠ 'U' ∧ c ≠ '8' := by
  simp only [IsStop, List.mem_cons, List.not_mem_nil, or_false] at hstop
  rcases hstop with rfl | rfl | rfl | rfl | rfl | rfl | rfl <;> decide

/-- Of most stops nothing has to be told. -/
theorem Stops.of_ne {stop : Char} (hstop : IsStop stop) (hat : stop ≠ '@') (hslash : stop ≠ '/')
    (tail other : List Char) : Stops stop tail other :=
  ⟨hstop, fun h ↦ absurd h hat, fun h ↦ absurd h hslash, fun h ↦ absurd h hslash⟩

theorem Stops.of_brace {brace : Char} (hbrace : brace = '\x7b' ∨ brace = '\x7d')
    (tail other : List Char) : Stops brace tail other := by
  rcases hbrace with rfl | rfl
  · exact .of_ne (by simp [IsStop]) (by decide) (by decide) tail other
  · exact .of_ne (by simp [IsStop]) (by decide) (by decide) tail other

section Lengths

variable {stop : Char} {front tail : List Char}

theorem takeWhile_append_stop {p : Char → Bool} (hstop : p stop = false) :
    (front ++ stop :: tail).takeWhile p = front.takeWhile p := by
  induction front with
  | nil => simp [hstop]
  | cons c rest ih => rw [List.cons_append, List.takeWhile_cons, List.takeWhile_cons, ih]

theorem dropWhile_append_stop {p : Char → Bool} (hstop : p stop = false) :
    (front ++ stop :: tail).dropWhile p = front.dropWhile p ++ stop :: tail := by
  induction front with
  | nil => simp [hstop]
  | cons c rest ih =>
    rw [List.cons_append, List.dropWhile_cons, List.dropWhile_cons, ih]
    split <;> rfl

theorem takeWhile_append_within {p : Char → Bool} {other : List Char}
    (hlength : ((front ++ stop :: tail).takeWhile p).length ≤ front.length) :
    (front ++ stop :: other).takeWhile p = (front ++ stop :: tail).takeWhile p := by
  induction front with
  | nil => cases hstop : p stop <;> simp [hstop] at hlength ⊢
  | cons c rest ih =>
    rw [List.cons_append, List.takeWhile_cons] at hlength
    rw [List.cons_append, List.cons_append, List.takeWhile_cons, List.takeWhile_cons]
    split_ifs at hlength ⊢
    · rw [ih (by simpa using hlength)]
    · rfl

theorem head?_append_stop (front tail other : List Char) (stop : Char) :
    (front ++ stop :: tail).head? = (front ++ stop :: other).head? := by
  cases front <;> rfl

theorem exists_cons_of_head? {c : Char} (hne : stop ≠ c)
    (hhead : (front ++ stop :: tail).head? = some c) : ∃ rest, front = c :: rest := by
  cases front with
  | nil => exact absurd (Option.some.inj hhead) hne
  | cons d rest => exact ⟨rest, by rw [← Option.some.inj hhead]⟩

/-- The quotes in front are the same, or they go on at the stop. -/
theorem quotes_append_stop (front : List Char) (stop : Char) (tail other : List Char) :
    (front ++ stop :: other).takeWhile (· = '"') = (front ++ stop :: tail).takeWhile (· = '"') ∨
      front.length < ((front ++ stop :: tail).takeWhile (· = '"')).length := by
  by_cases hlength : ((front ++ stop :: tail).takeWhile (· = '"')).length ≤ front.length
  · exact .inl (takeWhile_append_within hlength)
  · exact .inr (by omega)

end Lengths

section Literals

variable {stop : Char} {tail other : List Char} (hstops : Stops stop tail other)
  (front : List Char)

/-! ### Literals -/

include hstops

/-- An opening mark is the same, or it reaches up to the stop. -/
theorem opening?_append_stop :
    opening? (front ++ stop :: other) = opening? (front ++ stop :: tail) ∨
      ∃ frame length, opening? (front ++ stop :: tail) = some (frame, length) ∧
        front.length ≤ length := by
  obtain ⟨-, hdollar, -⟩ := hstops.isStop.plain
  have htake : ∀ text, (front ++ stop :: text).takeWhile (· = '$') = front.takeWhile (· = '$') :=
    fun _ ↦ takeWhile_append_stop (decide_eq_false hdollar)
  have hdrop : ∀ text, (front ++ stop :: text).dropWhile (· = '$') =
      front.dropWhile (· = '$') ++ stop :: text :=
    fun _ ↦ dropWhile_append_stop (decide_eq_false hdollar)
  have hsplit := congrArg List.length
    (List.takeWhile_append_dropWhile (p := fun c ↦ decide (c = '$')) (l := front))
  rw [List.length_append] at hsplit
  simp only [opening?_eq, htake, hdrop, ← hsplit]
  generalize front.takeWhile (fun c ↦ decide (c = '$')) = dollars
  generalize front.dropWhile (fun c ↦ decide (c = '$')) = rest
  cases rest with
  | nil =>
    by_cases hquote : stop = '"'
    · refine .inr ?_
      rw [if_pos (by rw [hquote]; rfl)]
      split
      · exact ⟨_, _, rfl, by simp⟩
      · exact ⟨_, _, rfl, by simp⟩
    · by_cases hat : stop = '@'
      · refine .inr ⟨.doubled (dollars.length != 0), dollars.length + 2, ?_, by simp⟩
        simp [hat, (hstops.verbatim hat).1]
      · exact .inl (by simp [hquote, hat])
  | cons c rest =>
    by_cases hquote : c = '"'
    · subst hquote
      simp only [List.cons_append, List.head?_cons, if_true]
      rw [← List.cons_append, ← List.cons_append]
      rcases quotes_append_stop ('"' :: rest) stop tail other with heq | hlong
      · exact .inl (by rw [heq])
      · refine .inr ?_
        split
        · exact ⟨_, _, rfl, by omega⟩
        · exact ⟨_, _, rfl, by omega⟩
    · by_cases hat : c = '@'
      · subst hat
        rcases rest with _ | ⟨d, _ | ⟨e, rest⟩⟩
        · by_cases hend : stop = '"'
          · exact .inr ⟨.doubled (dollars.length != 0), dollars.length + 2, by simp [hend], by simp⟩
          · exact .inl (by simp [hend, hdollar])
        · by_cases hend : d = '$' ∧ stop = '"'
          · exact .inr ⟨.doubled true, dollars.length + 3, by simp [hend], by simp⟩
          · exact .inl (by simp [hend])
        · exact .inl rfl
      · exact .inl (by simp [hquote, hat])

theorem advanceHole_append_stop (opened braces : Nat) (outer : List Frame) (c : Char) :
    advanceHole opened braces outer c (front ++ stop :: other) =
        advanceHole opened braces outer c (front ++ stop :: tail) ∨
      ∃ frame frames length, advanceHole opened braces outer c (front ++ stop :: tail) =
        (frame :: frames, length) ∧ front.length ≤ length := by
  rcases opening?_append_stop hstops (c :: front) with hopening | ⟨frame, length, hopening, hlength⟩
  · refine .inl ?_
    obtain ⟨d, text, image, htext, himage⟩ : ∃ d text image,
        front ++ stop :: tail = d :: text ∧ front ++ stop :: other = d :: image := by
      cases front <;> exact ⟨_, _, _, rfl, rfl⟩
    rw [List.cons_append, List.cons_append, htext, himage] at hopening
    unfold advanceHole
    rw [htext, himage, hopening]
    -- Of what stands behind the character one more is looked at.
    by_cases hnote : c = '/'
    · subst hnote
      by_cases hslash : d = '/'
      · simp [hslash]
      · by_cases hstar : d = '*' <;> simp [hslash, hstar]
    · by_cases hcolon : d = ':' <;> simp [hnote, hcolon]
  · refine .inr ⟨frame, .hole opened braces false :: outer, length - 1, ?_, ?_⟩
    · rw [List.cons_append] at hopening
      unfold advanceHole
      rw [hopening]
      rcases head_of_opening? hopening with rfl | rfl | rfl <;> simp
    · rw [List.length_cons] at hlength
      omega

theorem advance_append_stop (frame : Frame) (outer : List Frame) (c : Char) :
    advance frame outer c (front ++ stop :: other) =
        advance frame outer c (front ++ stop :: tail) ∨
      ∃ first frames length, advance frame outer c (front ++ stop :: tail) =
        (first :: frames, length) ∧ front.length ≤ length := by
  have hhead := head?_append_stop front other tail stop
  cases frame with
  | hole opened braces format =>
    cases format with
    | true => exact .inl rfl
    | false => exact advanceHole_append_stop hstops front opened braces outer c
  | _ => exact .inl (by simp only [advance, hhead])

omit hstops in
/-- A literal reaches beyond what is passed over in it. -/
theorem lt_literalLength {frame : Frame} {frames : List Frame} {skip : Nat}
    (hskip : front.length ≤ skip) :
    front.length < literalLength (frame :: frames) skip (front ++ stop :: tail) := by
  induction front generalizing skip with
  | nil => cases skip <;> simp only [List.nil_append, literalLength, List.length_nil] <;> omega
  | cons c rest ih =>
    rw [List.length_cons] at hskip ⊢
    obtain ⟨skip, rfl⟩ : ∃ more, skip = more + 1 := ⟨skip - 1, by omega⟩
    have hrest := ih (show rest.length ≤ skip by omega)
    rw [List.cons_append, literalLength]
    omega

theorem literalLength_append_stop {frames : List Frame} {skip : Nat}
    (hlength : literalLength frames skip (front ++ stop :: tail) ≤ front.length) :
    literalLength frames skip (front ++ stop :: other) =
      literalLength frames skip (front ++ stop :: tail) := by
  induction front generalizing frames skip with
  | nil =>
    cases skip with
    | succ skip => simp [literalLength] at hlength
    | zero => cases frames <;> simp [literalLength] at hlength ⊢
  | cons c rest ih =>
    rw [List.cons_append, List.length_cons] at hlength
    rw [List.cons_append, List.cons_append]
    cases skip with
    | succ skip =>
      rw [literalLength] at hlength
      rw [literalLength, literalLength, ih (by omega)]
    | zero =>
      cases frames with
      | nil => simp [literalLength]
      | cons frame outer =>
        simp only [literalLength] at hlength ⊢
        rcases advance_append_stop hstops rest frame outer c with
          heq | ⟨first, frames, skip, heq, hskip⟩
        · rw [heq, ih (by omega)]
        · have hlong := @lt_literalLength stop tail rest first frames skip hskip
          rw [heq] at hlength
          dsimp only at hlength
          omega

end Literals

/-! ### Directives -/

namespace Directive

/-- Blanks and comments, the last of which is open; begun inside a comment or not. -/
inductive Unclosed : Bool → List Char → Prop
  | note : Unclosed true []
  | close {rest : List Char} (hrest : Unclosed false rest) : Unclosed true ('*' :: '/' :: rest)
  | inside {c : Char} {rest : List Char} (hopen : ¬(c = '*' ∧ rest.head? = some '/'))
      (hrest : Unclosed true rest) : Unclosed true (c :: rest)
  | opens {rest : List Char} (hrest : Unclosed true rest) : Unclosed false ('/' :: '*' :: rest)
  | indent {c : Char} {rest : List Char} (hindent : isIndent c = true)
      (hrest : Unclosed false rest) : Unclosed false (c :: rest)

/-- A condition, `last` long before a text, stays as long as it is with the text, unless a comment
is open at the end of the text: one behind the condition. -/
def StaysUnlessOpen (passed last : Nat) (inNote : Bool) (text : List Char) (length image : Nat) :
    Prop :=
  image = length ∨ length = last ∧ Unclosed inNote text ∨
    passed < length ∧ Unclosed false (text.drop (length - passed))

/-- Blanks or a comment in front are passed over. -/
theorem StaysUnlessOpen.pass {passed last count length image : Nat} {inNote opened : Bool}
    {text : List Char}
    (hstays : StaysUnlessOpen (passed + count) last opened (text.drop count) length image)
    (hopen : Unclosed opened (text.drop count) → Unclosed inNote text) :
    StaysUnlessOpen passed last inNote text length image := by
  rcases hstays with heq | ⟨heq, hunclosed⟩ | ⟨hlt, hunclosed⟩
  · exact .inl heq
  · exact .inr (.inl ⟨heq, hopen hunclosed⟩)
  · rw [List.drop_drop, show count + (length - (passed + count)) = length - passed by omega]
      at hunclosed
    exact .inr (.inr ⟨by omega, hunclosed⟩)

/-- A character in front that is a part of the condition. -/
theorem StaysUnlessOpen.take {passed last length image : Nat} {c : Char} {text : List Char}
    (hstays : StaysUnlessOpen (passed + 1) (passed + 1) false text length image) :
    StaysUnlessOpen passed last false (c :: text) length image := by
  rcases hstays with heq | ⟨rfl, hunclosed⟩ | ⟨hlt, hunclosed⟩
  · exact .inl heq
  · exact .inr (.inr ⟨Nat.lt_succ_self _, by rwa [Nat.add_sub_cancel_left]⟩)
  · refine .inr (.inr ⟨by omega, ?_⟩)
    rwa [show length - passed = length - (passed + 1) + 1 by omega, List.drop_succ_cons]

end Directive

section Stop

variable {stop : Char} {tail other : List Char} (hstops : Stops stop tail other)
  (front : List Char)
include hstops

theorem noteLength_append_stop
    (hlength : Lexeme.noteLength (front ++ stop :: tail) ≤ front.length) :
    Lexeme.noteLength (front ++ stop :: other) = Lexeme.noteLength (front ++ stop :: tail) := by
  obtain ⟨-, -, -, -, -, hstar, -⟩ := hstops.isStop.plain
  induction front with
  | nil => simp [Lexeme.noteLength_cons, hstar] at hlength
  | cons c rest ih =>
    rw [List.cons_append, Lexeme.noteLength_cons, List.length_cons] at hlength
    rw [List.cons_append, List.cons_append, Lexeme.noteLength_cons, Lexeme.noteLength_cons,
      head?_append_stop rest other tail stop]
    split_ifs at hlength ⊢
    · rfl
    · rw [ih (by omega)]

namespace Directive

omit hstops in
theorem lineLength_append_stop (hlength : lineLength (front ++ stop :: tail) ≤ front.length) :
    lineLength (front ++ stop :: other) = lineLength (front ++ stop :: tail) := by
  induction front with
  | nil =>
    rw [List.nil_append, lineLength_cons, List.length_nil] at hlength
    split_ifs at hlength <;> omega
  | cons c rest ih =>
    rw [List.cons_append, lineLength_cons, List.length_cons] at hlength
    rw [List.cons_append, List.cons_append, lineLength_cons, lineLength_cons]
    split_ifs at hlength ⊢
    · rfl
    · rw [ih (by omega)]

theorem restLength_append_stop (inNote : Bool)
    (hlength : restLength inNote (front ++ stop :: tail) ≤ front.length) :
    restLength inNote (front ++ stop :: other) = restLength inNote (front ++ stop :: tail) := by
  obtain ⟨-, -, -, -, -, hstar, -⟩ := hstops.isStop.plain
  -- A comment mark takes two characters at once.
  induction hn : front.length using Nat.strongRecOn generalizing front inNote with
  | ind n ih =>
    subst hn
    cases front with
    | nil =>
      cases inNote <;>
        simp only [List.nil_append, restLength_line, restLength_note, List.length_nil] at hlength
      · split_ifs at hlength <;> omega
      · split_ifs at hlength <;> omega
    | cons c rest =>
      have hrest := fun inNote hlength ↦ ih rest.length (Nat.lt_succ_self _) rest inNote hlength rfl
      have hinner := fun d inner inNote (h : rest = d :: inner) hlength ↦
        ih inner.length (by rw [h, List.length_cons, List.length_cons]; omega) inner inNote hlength
          rfl
      have hhead := head?_append_stop rest other tail stop
      rw [List.cons_append, List.length_cons] at hlength
      rw [List.cons_append, List.cons_append]
      cases inNote with
      | true =>
        rw [restLength_note] at hlength
        rw [restLength_note, restLength_note, hhead]
        split_ifs at hlength ⊢ with hclose
        · cases rest with
          | nil => simp only [List.length_nil] at hlength; omega
          | cons d inner =>
            simp only [List.cons_append, List.tail_cons, List.length_cons] at hlength ⊢
            rw [hinner d inner false rfl (by omega)]
        · rw [hrest true (by omega)]
      | false =>
        rw [restLength_line] at hlength
        rw [restLength_line, restLength_line, hhead]
        split_ifs at hlength ⊢ with hfeed hline hnote
        · rfl
        · cases rest with
          | nil => simp only [List.length_nil] at hlength; omega
          | cons d inner =>
            simp only [List.cons_append, List.tail_cons, List.length_cons] at hlength ⊢
            rw [@lineLength_append_stop stop tail other inner (by omega)]
        · obtain ⟨inner, rfl⟩ := exists_cons_of_head? hstar hnote.2
          simp only [List.cons_append, List.tail_cons, List.length_cons] at hlength ⊢
          rw [hinner _ inner true rfl (by omega)]
        · rw [hrest false (by omega)]

theorem textLength_append_stop (hlength : textLength (front ++ stop :: tail) ≤ front.length) :
    textLength (front ++ stop :: other) = textLength (front ++ stop :: tail) := by
  obtain ⟨-, -, hfeed, hreturn, hback, hstar, -⟩ := hstops.isStop.plain
  induction hn : front.length using Nat.strongRecOn generalizing front with
  | ind n ih =>
    subst hn
    cases front with
    | nil =>
      by_cases hslash : stop = '/'
      · -- A comment that is begun at the stop ends the text.
        obtain ⟨hnote | hnote, hother⟩ := hstops.note hslash
        · obtain ⟨inner, rfl⟩ := List.head?_eq_some_iff.mp hnote
          simp [textLength_cons, hslash] at hlength
        · simp [textLength_cons, hslash, hnote, hother]
      · simp [textLength_cons, hfeed, hslash, hback] at hlength
    | cons c rest =>
      have hshorter := fun front (hshort : front.length < rest.length + 1) hlength ↦
        ih front.length hshort front hlength rfl
      have hhead := head?_append_stop rest other tail stop
      have hne : ∀ text, rest ++ stop :: text ≠ [] := fun text ↦ by simp
      rw [List.cons_append, List.length_cons, textLength_cons] at hlength
      rw [List.cons_append, List.cons_append, textLength_cons, textLength_cons, hhead]
      simp only [hne, ne_eq, not_false_eq_true, and_true] at hlength ⊢
      cases rest with
      | nil =>
        simp only [List.nil_append, List.head?_cons, Option.some.injEq, hstar, hfeed, hreturn,
          and_false, false_and, if_false, List.tail_cons, List.length_nil] at hlength ⊢
        split_ifs at hlength ⊢
        · rfl
        · omega
        · exact congrArg (1 + ·) (hshorter [] (by simp) (by simp; omega))
      | cons d inner =>
        simp only [List.cons_append, List.head?_cons, Option.some.injEq, List.tail_cons,
          List.length_cons] at hlength hshorter ⊢
        rw [head?_append_stop inner other tail stop]
        split_ifs at hlength ⊢ with _ _ hline
        · rfl
        · rw [hshorter inner (by omega) (by omega)]
        · obtain ⟨last, rfl⟩ := exists_cons_of_head? hfeed hline.2.2
          simp only [List.cons_append, List.tail_cons, List.length_cons] at hlength hshorter ⊢
          rw [hshorter last (by omega) (by omega)]
        · rfl
        · rw [hshorter inner (by omega) (by omega)]
        · exact congrArg (1 + ·) (hshorter (d :: inner) (by simp) (by simp; omega))

theorem ownText_append_stop (hlength : ownText (front ++ stop :: tail) ≤ front.length) :
    ownText (front ++ stop :: other) = ownText (front ++ stop :: tail) := by
  obtain ⟨⟨-, -, hindent, -⟩, -, hfeed, -⟩ := hstops.isStop.plain
  have htake : ∀ text, (front ++ stop :: text).takeWhile isIndent = front.takeWhile isIndent :=
    fun _ ↦ takeWhile_append_stop hindent
  have hdrop : ∀ text, (front ++ stop :: text).dropWhile isIndent =
      front.dropWhile isIndent ++ stop :: text := fun _ ↦ dropWhile_append_stop hindent
  have hsplit := congrArg List.length (List.takeWhile_append_dropWhile (p := isIndent) (l := front))
  rw [List.length_append] at hsplit
  cases hrest : front.dropWhile isIndent with
  | nil =>
    have hnil : ∀ text, (front ++ stop :: text).dropWhile isIndent = stop :: text :=
      fun text ↦ by rw [hdrop, hrest, List.nil_append]
    rw [ownText_of_cons (hnil _), htake] at hlength
    rw [hrest, List.length_nil] at hsplit
    rw [ownText_of_cons (hnil _), ownText_of_cons (hnil _), htake, htake]
    by_cases hslash : stop = '/'
    · obtain ⟨hnote, hother⟩ := hstops.note hslash
      rw [if_pos (.inr ⟨hslash, by rwa [hother]⟩), if_pos (.inr ⟨hslash, hnote⟩)]
    · rw [if_neg (by simp [hfeed, hslash])] at hlength
      omega
  | cons c rest =>
    have hcons : ∀ text, (front ++ stop :: text).dropWhile isIndent =
        c :: (rest ++ stop :: text) := fun text ↦ by rw [hdrop, hrest, List.cons_append]
    rw [ownText_of_cons (hcons _), htake] at hlength
    rw [hrest, List.length_cons] at hsplit
    rw [ownText_of_cons (hcons _), ownText_of_cons (hcons _), htake, htake,
      head?_append_stop rest other tail stop]
    split_ifs at hlength ⊢
    · rfl
    · rw [textLength_append_stop hstops rest (by omega)]

/-- The condition of `conditionLength_append_stop` with nothing in front of the stop. -/
theorem conditionLength_stop {passed last : Nat} (hlast : last ≤ passed) (inNote : Bool)
    (hlength : conditionLength passed last inNote (stop :: tail) ≤ passed) :
    StaysUnlessOpen passed last inNote [] (conditionLength passed last inNote (stop :: tail))
      (conditionLength passed last inNote (stop :: other)) := by
  obtain ⟨⟨-, -, hblank, -⟩, -, hfeed, hreturn, -⟩ := hstops.isStop.plain
  have hpassed := conditionLength_eq_or_lt hlast inNote (stop :: tail)
  cases inNote with
  | true => exact .inr (.inl ⟨by omega, .note⟩)
  | false =>
    by_cases hslash : stop = '/'
    · have hend : conditionLength passed last false (stop :: tail) = last := by omega
      exact .inl (by rw [hend, hstops.condition hslash passed last hlast hend])
    · simp only [conditionLength_line, hslash, hfeed, hreturn, hblank, false_and, if_false,
        Bool.false_eq_true, or_false] at hlength
      have hinside := conditionLength_eq_or_lt (Nat.le_refl (passed + 1)) false tail
      omega

/-- A condition that ends before a stop stays as it is, unless a comment behind it holds the stop. -/
theorem conditionLength_append_stop {passed last : Nat} (hlast : last ≤ passed) (inNote : Bool)
    (hlength : conditionLength passed last inNote (front ++ stop :: tail) ≤
      passed + front.length) :
    StaysUnlessOpen passed last inNote front
      (conditionLength passed last inNote (front ++ stop :: tail))
      (conditionLength passed last inNote (front ++ stop :: other)) := by
  obtain ⟨-, -, -, -, -, hstar, -⟩ := hstops.isStop.plain
  induction hn : front.length using Nat.strongRecOn generalizing front passed last inNote with
  | ind n ih =>
    subst hn
    cases front with
    | nil => exact conditionLength_stop hstops hlast inNote (by simpa using hlength)
    | cons c rest =>
      have hone := fun passed last inNote hlast hlength ↦
        @ih rest.length (Nat.lt_succ_self _) rest passed last hlast inNote hlength rfl
      have htwo := fun d inner passed last inNote (h : rest = d :: inner) hlast hlength ↦
        @ih inner.length (by rw [h, List.length_cons, List.length_cons]; omega) inner passed last
          hlast inNote hlength rfl
      have hhead := head?_append_stop rest other tail stop
      rw [List.cons_append, List.length_cons] at hlength
      rw [List.cons_append, List.cons_append]
      cases inNote with
      | true =>
        rw [conditionLength_note] at hlength
        rw [conditionLength_note, conditionLength_note, hhead]
        split_ifs at hlength ⊢ with hclose
        · obtain ⟨rfl, hclose⟩ := hclose
          cases rest with
          | nil =>
            -- The comment is closed by the stop, behind which the texts may differ.
            have hpassed := conditionLength_eq_or_lt (show last ≤ passed + 2 by omega) false tail
            simp only [List.nil_append, List.tail_cons, List.length_nil] at hlength ⊢
            exact .inr (.inl ⟨by omega, .inside nofun .note⟩)
          | cons d inner =>
            simp only [List.cons_append, List.tail_cons, List.length_cons] at hlength ⊢
            rw [List.cons_append, List.head?_cons, Option.some.injEq] at hclose
            subst hclose
            exact (htwo _ inner (passed + 2) last false rfl (by omega) (by omega)).pass .close
        · have hinside : ¬(c = '*' ∧ rest.head? = some '/') := by
            rintro ⟨rfl, hslash⟩
            cases rest with
            | nil => contradiction
            | cons d inner => exact hclose ⟨rfl, hslash⟩
          exact (hone (passed + 1) last true (by omega) (by omega)).pass (.inside hinside)
      | false =>
        rw [conditionLength_line] at hlength
        rw [conditionLength_line, conditionLength_line, hhead]
        split_ifs at hlength ⊢ with hline hnote hend hindent
        · exact .inl rfl
        · obtain ⟨rfl, hnote⟩ := hnote
          obtain ⟨inner, rfl⟩ := exists_cons_of_head? hstar hnote
          simp only [List.cons_append, List.tail_cons, List.length_cons] at hlength ⊢
          exact (htwo _ inner (passed + 2) last true rfl (by omega) (by omega)).pass .opens
        · exact .inl rfl
        · exact (hone (passed + 1) last false (by omega) (by omega)).pass (.indent hindent)
        · exact (hone (passed + 1) (passed + 1) false (by omega) (by omega)).take

/-! ### Whole directives -/

omit hstops in
theorem name_append_stop (hstop : IsStop stop) : name (front ++ stop :: tail) = name front := by
  obtain ⟨⟨-, -, hindent, halpha⟩, -⟩ := hstop.plain
  rw [name, dropWhile_append_stop hindent, takeWhile_append_stop halpha, name]

omit hstops in
theorem headLength_append_stop (hstop : IsStop stop) :
    headLength (front ++ stop :: tail) = headLength front := by
  rw [headLength, takeWhile_append_stop hstop.plain.1.2.2.1, name_append_stop front hstop,
    headLength]

theorem condition_append_stop
    (hlength : conditionLength 0 0 false (front ++ stop :: tail) ≤ front.length) :
    conditionLength 0 0 false (front ++ stop :: other) =
        conditionLength 0 0 false (front ++ stop :: tail) ∨
      Unclosed false (front.drop (conditionLength 0 0 false (front ++ stop :: tail))) := by
  rcases conditionLength_append_stop hstops front (Nat.le_refl 0) false (by omega) with
    heq | ⟨heq, hopen⟩ | ⟨-, hopen⟩
  · exact .inl heq
  · exact .inr (by rwa [heq, List.drop_zero])
  · exact .inr hopen

theorem tailLength_append_stop (name : String)
    (hlength : tailLength name (front ++ stop :: tail) ≤ front.length) :
    tailLength name (front ++ stop :: other) = tailLength name (front ++ stop :: tail) ∨
      Unclosed false (front.drop (tailLength name (front ++ stop :: tail))) := by
  unfold tailLength at hlength ⊢
  cases hrole : roleOf name <;> simp only [hrole] at hlength ⊢
  case split => exact condition_append_stop hstops front hlength
  case turn =>
    split_ifs at hlength ⊢
    · exact condition_append_stop hstops front hlength
    · exact .inl rfl
  case join => exact .inl trivial
  case line =>
    refine .inl ?_
    generalize htext : takesText name = text at hlength ⊢
    cases text with
    | false =>
      simpa using restLength_append_stop hstops front false (by simpa using hlength)
    | true =>
      simp only [if_true] at hlength ⊢
      have hown : ownText (front ++ stop :: tail) ≤ front.length := by omega
      rw [ownText_append_stop hstops front hown, List.drop_append_of_le_length hown,
        List.drop_append_of_le_length hown]
      rw [List.drop_append_of_le_length hown] at hlength
      rw [restLength_append_stop hstops _ false (by rw [List.length_drop]; omega)]

theorem length_append_stop (hlength : length (front ++ stop :: tail) ≤ front.length) :
    length (front ++ stop :: other) = length (front ++ stop :: tail) ∨
      Unclosed false (front.drop (length (front ++ stop :: tail))) := by
  have hhead := headLength_le front
  have hdrop : ∀ text, (front ++ stop :: text).drop (headLength front) =
      front.drop (headLength front) ++ stop :: text :=
    fun _ ↦ List.drop_append_of_le_length hhead
  simp only [length_eq, headLength_append_stop front hstops.isStop,
    name_append_stop front hstops.isStop, hdrop] at hlength ⊢
  rcases tailLength_append_stop hstops (front.drop (headLength front)) (name front)
    (by rw [List.length_drop]; omega) with heq | hopen
  · exact .inl (by rw [heq])
  · rw [List.drop_drop] at hopen
    exact .inr hopen

end Directive

/-! ### Lexemes -/

namespace Lexeme

theorem byteMarkLength_append_stop :
    byteMarkLength (front ++ stop :: other) = byteMarkLength (front ++ stop :: tail) := by
  obtain ⟨-, -, -, -, -, -, hbytes⟩ := hstops.isStop.plain
  rcases front with _ | ⟨c, _ | ⟨d, rest⟩⟩
  · simp [byteMarkLength, hbytes]
  · simp [byteMarkLength, hbytes]
  · simp only [List.cons_append]
    unfold byteMarkLength
    split <;> split <;> simp_all

theorem plain_append_stop (c : Char)
    (hlength : (plain c (front ++ stop :: tail)).2 ≤ front.length) :
    plain c (front ++ stop :: other) = plain c (front ++ stop :: tail) := by
  have hhead := head?_append_stop front tail other stop
  have hword := hstops.isStop.plain.1.2.1
  unfold plain at hlength ⊢
  rcases opening?_append_stop hstops (c :: front) with hopening | ⟨frame, length, hopening, hlong⟩
  · rw [List.cons_append, List.cons_append] at hopening
    rw [hopening, ← hhead]
    cases hframe : opening? (c :: (front ++ stop :: tail)) with
    | some opened =>
      simp only [hframe] at hlength ⊢
      have hliteral : literalLength [opened.1] (opened.2 - 1) (front ++ stop :: tail) ≤
        front.length := by omega
      rw [literalLength_append_stop hstops front hliteral,
        List.drop_append_of_le_length hliteral, List.drop_append_of_le_length hliteral,
        byteMarkLength_append_stop hstops]
    | none => simp only [takeWhile_append_stop hword]
  · -- A literal that is opened at the stop does not end before it.
    rw [List.cons_append] at hopening
    rw [List.length_cons] at hlong
    have hliteral := @lt_literalLength stop tail front frame [] (length - 1) (by omega)
    simp only [hopening] at hlength
    omega

/-- A lexeme that ends before a stop does so whatever stands behind the stop, unless it is a directive
and a comment behind it holds the stop. -/
theorem measure_append_stop (c : Char)
    (hlength : (measure c (front ++ stop :: tail)).2 ≤ front.length) :
    measure c (front ++ stop :: other) = measure c (front ++ stop :: tail) ∨
      Directive.Unclosed false (front.drop (measure c (front ++ stop :: tail)).2) := by
  obtain ⟨⟨hblank, -⟩, -, -, -, -, hstar, -⟩ := hstops.isStop.plain
  have hhead := head?_append_stop front tail other stop
  simp only [measure_eq, ← hhead] at hlength ⊢
  split_ifs at hlength ⊢ with hgap hdirective hcharacter hline hnote
  · exact .inl (by simp only [takeWhile_append_stop hblank])
  · simp only at hlength ⊢
    exact (Directive.length_append_stop hstops front hlength).imp_left
      (congrArg (Prod.mk Kind.directive))
  · exact .inl (by rw [literalLength_append_stop hstops front hlength])
  · exact .inl (by rw [takeWhile_append_within hlength])
  · obtain ⟨inner, rfl⟩ := exists_cons_of_head? hstar hnote.2
    simp only [List.cons_append, List.tail_cons, List.length_cons] at hlength ⊢
    exact .inl (by rw [noteLength_append_stop hstops inner (by omega)])
  · exact .inl (plain_append_stop hstops front c hlength)

end Lexeme

end Stop

/-! ### Rows of lexemes -/

namespace Lexeme

/-- In front of what follows it a text is read as some lexemes, none of which reaches beyond it. -/
inductive Splits (behind : List Char) : List Char → List Lexeme → Prop
  | nil : Splits behind [] []
  | cons {c : Char} {rest : List Char} {others : List Lexeme}
      (hlength : (measure c (rest ++ behind)).2 ≤ rest.length)
      (hothers : Splits behind (rest.drop (measure c (rest ++ behind)).2) others) :
      Splits behind (c :: rest) (⟨(measure c (rest ++ behind)).1,
        String.ofList (c :: rest.take (measure c (rest ++ behind)).2)⟩ :: others)

section Splits

variable {stop : Char} {text behind : List Char} {lexemes : List Lexeme}

theorem Splits.chars (hsplits : Splits behind text lexemes) :
    lexemes.flatMap Lexeme.chars = text := by
  induction hsplits with
  | nil => rfl
  | cons hlength _ ih =>
    rw [List.flatMap_cons, ih, Lexeme.chars, String.toList_ofList, List.cons_append,
      List.take_append_drop]

/-- Behind the text that is split reading goes on. -/
theorem Splits.ofChars_eq (hsplits : Splits behind text lexemes) :
    ofChars (text ++ behind) = lexemes ++ ofChars behind := by
  induction hsplits with
  | nil => rfl
  | cons hlength _ ih =>
    rw [List.cons_append, ofChars_cons, List.take_append_of_le_length hlength,
      List.drop_append_of_le_length hlength, ih, List.cons_append]

/-- The lexemes read first split the text that they are put together. -/
theorem splits_of_reads
    (hreads : lexemes <+: ofChars (lexemes.flatMap Lexeme.chars ++ stop :: behind)) :
    Splits (stop :: behind) (lexemes.flatMap Lexeme.chars) lexemes := by
  induction lexemes with
  | nil => exact .nil
  | cons lexeme others ih =>
    rw [List.flatMap_cons, List.append_assoc] at hreads
    rw [List.flatMap_cons]
    generalize hback : others.flatMap Lexeme.chars ++ stop :: behind = back at hreads ih
    have hlong : 0 < back.length := by
      rw [← hback, List.length_append, List.length_cons]
      omega
    cases hchars : lexeme.chars with
    | nil =>
      cases back with
      | nil => contradiction
      | cons c rest =>
        rw [hchars, List.nil_append, ofChars_cons] at hreads
        rw [(List.cons_prefix_cons.mp hreads).1, Lexeme.chars, String.toList_ofList] at hchars
        contradiction
    | cons c rest =>
      rw [hchars, List.cons_append, ofChars_cons] at hreads
      obtain ⟨hlexeme, hothers⟩ := List.cons_prefix_cons.mp hreads
      rw [hlexeme, Lexeme.chars, String.toList_ofList] at hchars
      have htake := List.tail_eq_of_cons_eq hchars
      have hlength : (measure c (rest ++ back)).2 = rest.length := by
        have hle := congrArg List.length htake
        rw [List.length_take, List.length_append] at hle
        omega
      rw [hlength, List.drop_left] at hothers
      have hcons := @Splits.cons (stop :: behind) c (rest ++ others.flatMap Lexeme.chars) others
      rw [List.append_assoc, hback, hlength, List.take_left, List.drop_left] at hcons
      rw [hlexeme, htake]
      exact hcons (by rw [List.length_append]; omega) (ih hothers)

theorem noteLength_of_unclosed (hstop : IsStop stop)
    (hopen : Directive.Unclosed true text) :
    text.length < noteLength (text ++ stop :: behind) ∨
      Directive.Unclosed false (text.drop (noteLength (text ++ stop :: behind))) := by
  obtain ⟨-, -, -, -, -, hstar, -⟩ := hstop.plain
  induction text with
  | nil =>
    refine .inl ?_
    rw [List.nil_append, noteLength_cons, if_neg fun h ↦ hstar h.1, List.length_nil]
    omega
  | cons c rest ih =>
    rw [List.cons_append, noteLength_cons]
    cases hopen with
    | close hrest => exact .inr (by simpa using hrest)
    | inside hclose hrest =>
      split_ifs with hstay
      · cases rest with
        | nil => exact .inl (by simp)
        | cons d inner => exact absurd hstay hclose
      · rw [Nat.add_comm, List.length_cons, List.drop_succ_cons]
        exact (ih hrest).imp_left Nat.succ_lt_succ

theorem isGap_of_isIndent {c : Char} (hindent : Directive.isIndent c = true) : isGap c = true := by
  rw [Directive.isIndent, Bool.and_eq_true] at hindent
  rw [isGap, hindent.1, Bool.true_or]

theorem unclosed_dropWhile (hopen : Directive.Unclosed false text) :
    Directive.Unclosed false (text.dropWhile isGap) := by
  induction text with
  | nil => exact hopen
  | cons c rest ih =>
    cases hopen with
    | opens hrest => exact .opens hrest
    | indent hindent hrest =>
      rw [List.dropWhile_cons_of_pos (isGap_of_isIndent hindent)]
      exact ih hrest

/-- No lexeme ends where a comment is open. -/
theorem Splits.not_unclosed (hstop : IsStop stop)
    (hsplits : Splits (stop :: behind) text lexemes) : ¬Directive.Unclosed false text := by
  induction hsplits with
  | nil => nofun
  | @cons c rest others hlength _ ih =>
    intro hopen
    refine ih ?_
    cases hopen with
    | @opens rest hrest =>
      have hmeasure : measure '/' ('*' :: rest ++ stop :: behind) =
        (.comment, 1 + noteLength (rest ++ stop :: behind)) := rfl
      rw [hmeasure, List.length_cons] at hlength
      rw [hmeasure, Nat.add_comm, List.drop_succ_cons]
      exact (noteLength_of_unclosed hstop hrest).resolve_left (by omega)
    | indent hindent hrest =>
      rw [measure_of_isGap (isGap_of_isIndent hindent), takeWhile_append_stop hstop.plain.1.1,
        drop_length_takeWhile]
      exact unclosed_dropWhile hrest

/-- What stands behind a stop has no part in how the text before it is split. -/
theorem Splits.append_stop {other : List Char} (hstops : Stops stop behind other)
    (hsplits : Splits (stop :: behind) text lexemes) : Splits (stop :: other) text lexemes := by
  induction hsplits with
  | nil => exact .nil
  | @cons c rest others hlength hothers ih =>
    have heq := (measure_append_stop hstops rest c hlength).resolve_right
      (hothers.not_unclosed hstops.isStop)
    rw [← heq] at hlength ih ⊢
    exact .cons hlength ih

/-- Lexemes that are read up to a stop are read as well in front of another text that starts with the
stop. -/
theorem ofChars_append_stop {other : List Char} {back : List Lexeme}
    (hstops : Stops stop behind other)
    (hreads : ofChars (lexemes.flatMap Lexeme.chars ++ stop :: behind) = lexemes ++ back) :
    ofChars (lexemes.flatMap Lexeme.chars ++ stop :: other) =
      lexemes ++ ofChars (stop :: other) := by
  have hprefix : lexemes <+: ofChars (lexemes.flatMap Lexeme.chars ++ stop :: behind) := by
    rw [hreads]
    exact List.prefix_append lexemes back
  exact ((splits_of_reads hprefix).append_stop hstops).ofChars_eq

end Splits

end Lexeme

end Conform.Source
