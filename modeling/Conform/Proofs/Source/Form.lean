import Conform.Proofs.Source.Boundary
import Mathlib.Data.List.Infix

/-!
Tokens with a content that is no code: character and string literals, comments and directives. A form
is what stands around such a content; a content that it admits makes a single lexeme with it, in front
of what follows (`Form.ofChars_append`). So a content may be replaced by another one in a source that
is read as some lexemes, and all other lexemes are read as before (`Form.ofChars_replace`).
-/

set_option autoImplicit false

namespace Conform.Source

open Lexeme

/-! ### Contents of literals -/

/-- What may stand in a string where a quote is written twice. -/
def Lexeme.isDoubled : List Char → Bool
  | [] => true
  | '"' :: '"' :: rest => isDoubled rest
  | c :: rest => c ≠ '"' && isDoubled rest

theorem literalLength_doubled {content : List Char} (hcontent : isDoubled content = true)
    {behind : List Char} (hbehind : behind.head? ≠ some '"') :
    literalLength [.doubled false] 0 (content ++ '"' :: behind) = content.length + 1 := by
  fun_induction isDoubled content with
  | case1 =>
    have hleave : advance (.doubled false) [] '"' behind = ([], 0) := by simp [advance, hbehind]
    rw [List.nil_append, literalLength, hleave]
    cases behind <;> rfl
  | case2 rest ih =>
    have hstay : ∀ text, advance (.doubled false) [] '"' ('"' :: text) = ([.doubled false], 1) :=
      fun _ ↦ rfl
    rw [List.cons_append, List.cons_append, literalLength, hstay]
    simp only [literalLength, ih hcontent, List.length_cons]
    omega
  | case3 c rest _ ih =>
    simp only [ne_eq, decide_not, Bool.and_eq_true, Bool.not_eq_true',
      decide_eq_false_iff_not] at hcontent
    have hstay : ∀ text, advance (.doubled false) [] c text = ([.doubled false], 0) :=
      fun _ ↦ by simp [advance, hcontent.1]
    rw [List.cons_append, literalLength, hstay]
    simp only [ih hcontent.2, List.length_cons]
    omega

theorem literalLength_skip (frames : List Frame) (front behind : List Char) :
    literalLength frames front.length (front ++ behind) =
      front.length + literalLength frames 0 behind := by
  induction front with
  | nil => rw [List.nil_append, List.length_nil, Nat.zero_add]
  | cons c rest ih =>
    rw [List.cons_append, List.length_cons, literalLength, ih]
    omega

/-- The quotes that are left to close a raw string close it. -/
theorem literalLength_closing (behind : List Char) {quotes seen left : Nat}
    (hquotes : seen + (left + 1) = quotes) :
    literalLength [.fenced quotes 0 seen 0] 0 (List.replicate (left + 1) '"' ++ behind) =
      left + 1 := by
  induction left generalizing seen with
  | zero =>
    have hleave : advance (.fenced quotes 0 seen 0) [] '"' behind = ([], 0) := by
      simp [advance, ← hquotes]
    rw [List.replicate_succ, List.replicate_zero, List.singleton_append, literalLength, hleave]
    cases behind <;> rfl
  | succ left ih =>
    have hstay : ∀ text, advance (.fenced quotes 0 seen 0) [] '"' text =
        ([.fenced quotes 0 (seen + 1) 0], 0) :=
      fun _ ↦ by simp [advance, ← hquotes]
    rw [List.replicate_succ, List.cons_append, literalLength, hstay]
    dsimp only
    rw [ih (by omega)]
    omega

/-- Assumes: a content in which as many quotes as open the string do not stand in a row, even with
those just passed, and that does not end with a quote. -/
theorem literalLength_fenced (behind : List Char) {quotes : Nat} (hquotes : 0 < quotes)
    {content : List Char} {seen : Nat}
    (hrow : ¬List.replicate quotes '"' <:+: List.replicate seen '"' ++ content)
    (hlast : (List.replicate seen '"' ++ content).getLast? ≠ some '"') :
    literalLength [.fenced quotes 0 seen 0] 0
      (content ++ (List.replicate quotes '"' ++ behind)) = content.length + quotes := by
  induction content generalizing seen with
  | nil =>
    cases seen with
    | zero =>
      obtain ⟨left, rfl⟩ : ∃ left, quotes = left + 1 := ⟨quotes - 1, by omega⟩
      rw [List.nil_append, literalLength_closing behind (Nat.zero_add _), List.length_nil,
        Nat.zero_add]
    | succ seen => simp [List.replicate_succ'] at hlast
  | cons c rest ih =>
    rw [List.cons_append, literalLength, List.length_cons]
    by_cases hc : c = '"'
    · subst hc
      have hcons : List.replicate seen '"' ++ '"' :: rest =
          List.replicate (seen + 1) '"' ++ rest := by
        rw [List.replicate_succ', List.append_assoc, List.singleton_append]
      rw [hcons] at hrow hlast
      have hseen : seen + 1 ≠ quotes := by
        rintro rfl
        exact hrow (List.prefix_append _ _).isInfix
      have hstay : ∀ text, advance (.fenced quotes 0 seen 0) [] '"' text =
          ([.fenced quotes 0 (seen + 1) 0], 0) := fun _ ↦ by simp [advance, hseen]
      rw [hstay]
      dsimp only
      rw [ih hrow hlast]
      omega
    · have hstay : ∀ text, advance (.fenced quotes 0 seen 0) [] c text =
          ([.fenced quotes 0 0 0], 0) := fun _ ↦ by simp [advance, hc]
      have hsuffix : rest <:+ List.replicate seen '"' ++ c :: rest :=
        (List.suffix_cons c rest).trans (List.suffix_append _ _)
      have hend : rest.getLast? ≠ some '"' := by
        intro heq
        refine hlast ?_
        rw [List.getLast?_append, List.getLast?_cons, heq]
        rfl
      rw [hstay]
      dsimp only
      rw [@ih 0 (fun hinside ↦ hrow (hinside.trans hsuffix.isInfix)) hend]
      omega

theorem opening?_doubled (behind : List Char) :
    opening? ('@' :: '"' :: behind) = some (.doubled false, 2) := by
  simp [opening?_eq]

theorem opening?_fenced {quotes : Nat} (hquotes : 3 ≤ quotes) {behind : List Char}
    (hbehind : behind.head? ≠ some '"') :
    opening? (List.replicate quotes '"' ++ behind) = some (.fenced quotes 0 0 0, quotes) := by
  have htake : (List.replicate quotes '"' ++ behind).takeWhile (· = '"') =
      List.replicate quotes '"' := by
    refine takeWhile_append_of_all (by simp) fun c hc ↦ ?_
    refine decide_eq_false fun heq ↦ hbehind ?_
    rw [← heq]
    exact hc
  obtain ⟨more, rfl⟩ : ∃ more, quotes = more + 1 := ⟨quotes - 1, by omega⟩
  have hdollars : (List.replicate (more + 1) '"' ++ behind).takeWhile (· = '$') = [] := by
    simp [List.replicate_succ]
  have hdrop : (List.replicate (more + 1) '"' ++ behind).dropWhile (· = '$') =
      List.replicate (more + 1) '"' ++ behind := by
    simp [List.replicate_succ]
  have hhead : (List.replicate (more + 1) '"' ++ behind).head? = some '"' := rfl
  simp only [opening?_eq, hdollars, hdrop, htake, hhead, List.length_replicate, List.length_nil,
    if_true, if_pos hquotes, Nat.zero_add]

namespace Lexeme

theorem measure_of_opening? {c : Char} {rest : List Char} {frame : Frame} {length : Nat}
    (hopening : opening? (c :: rest) = some (frame, length)) :
    measure c rest = (.literal, literalLength [frame] (length - 1) rest +
      byteMarkLength (rest.drop (literalLength [frame] (length - 1) rest))) := by
  have hplain : measure c rest = plain c rest := by
    rw [measure_eq]
    rcases head_of_opening? hopening with rfl | rfl | rfl <;>
      simp [show isGap '$' = false by decide, show isGap '@' = false by decide,
        show isGap '"' = false by decide]
  rw [hplain, plain, hopening]

/-- A string literal is as long as it is written, with its mark. -/
theorem measure_of_literalLength {c : Char} {text mark behind : List Char} {frame : Frame}
    {length : Nat} (hopening : opening? (c :: (text ++ (mark ++ behind))) = some (frame, length))
    (hlength : literalLength [frame] (length - 1) (text ++ (mark ++ behind)) = text.length)
    (hmark : byteMarkLength (mark ++ behind) = mark.length) :
    measure c (text ++ (mark ++ behind)) = (.literal, (text ++ mark).length) := by
  rw [measure_of_opening? hopening, hlength, List.drop_left, hmark, List.length_append]

/-! ### Comments -/

theorem noteLength_append {content : List Char} (hclose : ¬['*', '/'] <:+: content)
    (behind : List Char) : noteLength (content ++ '*' :: '/' :: behind) = content.length + 2 := by
  induction content with
  | nil => rfl
  | cons c rest ih =>
    rw [List.infix_cons_iff, not_or] at hclose
    have hstay : ¬(c = '*' ∧ (rest ++ '*' :: '/' :: behind).head? = some '/') := by
      rintro ⟨rfl, hslash⟩
      obtain ⟨inner, rfl⟩ := exists_cons_of_head? (by decide) hslash
      exact hclose.1 (by simp)
    rw [List.cons_append, noteLength_cons, if_neg hstay, ih hclose.2, List.length_cons]
    omega

end Lexeme

namespace Directive

/-- A condition passes over a comment behind it. -/
theorem conditionLength_append {content : List Char} (hclose : ¬['*', '/'] <:+: content)
    (passed last : Nat) (behind : List Char) :
    conditionLength passed last true (content ++ '*' :: '/' :: behind) =
      conditionLength (passed + content.length + 2) last false behind := by
  induction content generalizing passed with
  | nil => rfl
  | cons c rest ih =>
    rw [List.infix_cons_iff, not_or] at hclose
    have hstay : ¬(c = '*' ∧ (rest ++ '*' :: '/' :: behind).head? = some '/') := by
      rintro ⟨rfl, hslash⟩
      obtain ⟨inner, rfl⟩ := exists_cons_of_head? (by decide) hslash
      exact hclose.1 (by simp)
    rw [List.cons_append, conditionLength_note, if_neg hstay, ih hclose.2, List.length_cons]
    congr 1
    omega

/-- Whether a condition goes on behind blanks and comments does not depend on how long they are. -/
theorem conditionLength_eq_last {passed last : Nat} (hlast : last ≤ passed) {inNote : Bool}
    {cs : List Char} (hend : conditionLength passed last inNote cs = last) {other : Nat}
    (hother : last ≤ other) : conditionLength other last inNote cs = last := by
  fun_induction conditionLength passed last inNote cs generalizing other with
  | case1 => simp [conditionLength]
  | case2 passed last rest ih =>
    rw [conditionLength]
    exact ih (by omega) hend (by omega)
  | case3 passed last c rest hclose ih =>
    rw [conditionLength]
    · exact ih (by omega) hend (by omega)
    · exact hclose
  | case4 => simp [conditionLength]
  | case5 passed last rest ih =>
    rw [conditionLength]
    exact ih (by omega) hend (by omega)
  | case6 => simp_all [conditionLength]
  | case7 passed last c rest hline hnote hfeed ih =>
    have hindent : isIndent c = true := by
      by_contra hindent
      rw [if_neg hindent] at hend
      have hpassed := conditionLength_eq_or_lt (Nat.le_refl (passed + 1)) false rest
      omega
    simp only [hindent, if_true] at hend ih
    rw [conditionLength, if_neg hfeed, if_pos hindent]
    · exact ih (by omega) hend (by omega)
    · exact hline
    · exact hnote

end Directive

/-! ### Forms -/

/-- What stands around a content that is no code. A string literal may have a mark behind it, which
makes it a string of bytes; the head of a directive ends with its name. -/
inductive Form where
  | character
  | string (mark : List Char)
  | verbatim (mark : List Char)
  | raw (quotes : Nat) (mark : List Char)
  | lineNote
  | blockNote
  | directive (head : List Char)
  deriving DecidableEq

namespace Form

def kind : Form → Kind
  | lineNote | blockNote => .comment
  | directive _ => .directive
  | _ => .literal

/-- What stands before the content. -/
def lead : Form → List Char
  | character => ['\'']
  | string _ => ['"']
  | verbatim _ => ['@', '"']
  | raw quotes _ => List.replicate quotes '"'
  | lineNote => ['/', '/']
  | blockNote => ['/', '*']
  | directive head => '#' :: head

/-- What stands behind the content. The line end belongs to the content of a directive. -/
def trail : Form → List Char
  | character => ['\'']
  | string mark => '"' :: mark
  | verbatim mark => '"' :: mark
  | raw quotes mark => List.replicate quotes '"' ++ mark
  | blockNote => ['*', '/']
  | _ => []

def chars (form : Form) (content : List Char) : List Char :=
  form.lead ++ (content ++ form.trail)

def lexeme (form : Form) (content : List Char) : Lexeme :=
  ⟨form.kind, String.ofList (form.chars content)⟩

/-- Whether what follows a string, of which the mark is a part, does not go on with it. -/
def Closes (mark behind : List Char) : Prop :=
  (mark ++ behind).head? ≠ some '"' ∧ byteMarkLength (mark ++ behind) = mark.length

/-- Whether a content stands in a form as C# has it, in front of a text, and documents nothing. A
directive has to end with its content, whose start does not go on with its name: no block comment is
left open in it, and neither a backslash nor a slash at its end takes in what follows. -/
def Admits (content behind : List Char) : Form → Prop
  | character => isQuoted '\'' content = true
  | string mark => isQuoted '"' content = true ∧ Closes mark behind
  | verbatim mark => isDoubled content = true ∧ Closes mark behind
  | raw quotes mark =>
    3 ≤ quotes ∧ content ≠ [] ∧ content.head? ≠ some '"' ∧ content.getLast? ≠ some '"' ∧
      ¬List.replicate quotes '"' <:+: content ∧ Closes mark behind
  | lineNote =>
    content.head? ≠ some '/' ∧ (∀ c ∈ content, isLineEnd c = false) ∧
      ∀ c ∈ behind.head?, isLineEnd c = true
  | blockNote => content ≠ [] ∧ content.head? ≠ some '*' ∧ ¬['*', '/'] <:+: content
  | directive head =>
    Directive.name (head ++ content) = Directive.name head ∧
      Directive.length (head ++ (content ++ behind)) = (head ++ content).length

instance decidableCloses (mark behind : List Char) : Decidable (Closes mark behind) :=
  inferInstanceAs (Decidable (_ ∧ _))

instance decidableAdmits (content behind : List Char) :
    (form : Form) → Decidable (form.Admits content behind)
  | character => inferInstanceAs (Decidable (_ = _))
  | string _ => inferInstanceAs (Decidable (_ ∧ _))
  | verbatim _ => inferInstanceAs (Decidable (_ ∧ _))
  | raw _ _ => inferInstanceAs (Decidable (_ ∧ _))
  | lineNote => inferInstanceAs (Decidable (_ ∧ _))
  | blockNote => inferInstanceAs (Decidable (_ ∧ _))
  | directive _ => inferInstanceAs (Decidable (_ ∧ _))

variable {form : Form} {content behind : List Char}

section Strings

variable {mark : List Char} (hcloses : Closes mark behind)
include hcloses

theorem Closes.measure_string (hcontent : isQuoted '"' content = true) :
    measure '"' (content ++ '"' :: mark ++ behind) =
      (.literal, (content ++ '"' :: mark).length) := by
  obtain ⟨hquote, hmark⟩ := hcloses
  have hopening := opening?_string hcontent fun c hc heq ↦ hquote (heq ▸ hc)
  have hlength := literalLength_string hcontent (mark ++ behind)
  have hmeasure := @measure_of_literalLength '"' (content ++ ['"']) mark behind
  simp only [List.append_assoc, List.singleton_append] at hmeasure
  simp only [List.append_assoc, List.cons_append]
  exact hmeasure hopening (by rw [Nat.sub_self, hlength, List.length_append]; rfl) hmark

theorem Closes.measure_verbatim (hcontent : isDoubled content = true) :
    measure '@' ('"' :: (content ++ '"' :: mark) ++ behind) =
      (.literal, ('"' :: (content ++ '"' :: mark)).length) := by
  obtain ⟨hquote, hmark⟩ := hcloses
  have hlength := literalLength_skip [.doubled false] ['"'] (content ++ '"' :: (mark ++ behind))
  rw [literalLength_doubled hcontent hquote] at hlength
  have hmeasure := @measure_of_literalLength '@' ('"' :: (content ++ ['"'])) mark behind
  simp only [List.append_assoc, List.cons_append] at hmeasure
  simp only [List.append_assoc, List.cons_append]
  exact hmeasure (opening?_doubled _) (hlength.trans (by simp [Nat.add_comm])) hmark

/-- Assumes: a raw string as it is written between its rows of quotes. -/
theorem Closes.measure_raw {more : Nat} (hquotes : 3 ≤ more + 1) (hnil : content ≠ [])
    (hhead : content.head? ≠ some '"') (hlast : content.getLast? ≠ some '"')
    (hrow : ¬List.replicate (more + 1) '"' <:+: content) :
    measure '"' (List.replicate more '"' ++
        (content ++ (List.replicate (more + 1) '"' ++ mark)) ++ behind) =
      (.literal, (List.replicate more '"' ++
        (content ++ (List.replicate (more + 1) '"' ++ mark))).length) := by
  have hfirst : ∀ text, (content ++ text).head? ≠ some '"' := by
    intro text heq
    cases content with
    | nil => exact hnil rfl
    | cons c rest => exact hhead heq
  have hlength := literalLength_skip [.fenced (more + 1) 0 0 0] (List.replicate more '"')
    (content ++ (List.replicate (more + 1) '"' ++ (mark ++ behind)))
  rw [@literalLength_fenced _ _ (Nat.succ_pos more) content 0 hrow hlast,
    List.length_replicate] at hlength
  have hmeasure := @measure_of_literalLength '"'
    (List.replicate more '"' ++ (content ++ List.replicate (more + 1) '"')) mark behind
  simp only [List.append_assoc] at hmeasure ⊢
  exact hmeasure (opening?_fenced hquotes (hfirst _)) (hlength.trans (by simp)) hcloses.2

end Strings

/-- A content that is admitted makes a single lexeme. -/
theorem exists_measure (hcontent : form.Admits content behind) :
    ∃ c rest, form.chars content = c :: rest ∧
      measure c (rest ++ behind) = (form.kind, rest.length) := by
  cases form with
  | character =>
    refine ⟨'\'', content ++ ['\''], rfl, ?_⟩
    rw [List.append_assoc, List.singleton_append, measure_character hcontent]
    simp [kind]
  | string mark => exact ⟨'"', content ++ '"' :: mark, rfl, hcontent.2.measure_string hcontent.1⟩
  | verbatim mark =>
    exact ⟨'@', '"' :: (content ++ '"' :: mark), rfl, hcontent.2.measure_verbatim hcontent.1⟩
  | raw quotes mark =>
    obtain ⟨hquotes, hnil, hhead, hlast, hrow, hcloses⟩ := hcontent
    obtain ⟨more, rfl⟩ : ∃ more, quotes = more + 1 := ⟨quotes - 1, by omega⟩
    exact ⟨'"', _, rfl, hcloses.measure_raw hquotes hnil hhead hlast hrow⟩
  | lineNote =>
    obtain ⟨-, hline, hbehind⟩ := hcontent
    refine ⟨'/', '/' :: content, by simp [chars, lead, trail], ?_⟩
    rw [measure_comment hline hbehind]
    rfl
  | blockNote =>
    obtain ⟨-, -, hclose⟩ := hcontent
    refine ⟨'/', '*' :: (content ++ ['*', '/']), rfl, ?_⟩
    have hmeasure : measure '/' ('*' :: (content ++ ['*', '/']) ++ behind) =
        (.comment, 1 + noteLength (content ++ ['*', '/'] ++ behind)) := rfl
    rw [hmeasure, List.append_assoc, List.cons_append, List.singleton_append,
      noteLength_append hclose]
    simp [kind]
    omega
  | directive head =>
    obtain ⟨-, hlength⟩ := hcontent
    refine ⟨'#', head ++ content, by simp [chars, lead, trail], ?_⟩
    have hgap : isGap '#' = false := by decide
    rw [measure_eq, if_neg (by rw [hgap]; decide), if_pos rfl, List.append_assoc, hlength]
    rfl

theorem ofChars_append (hcontent : form.Admits content behind) :
    ofChars (form.chars content ++ behind) = form.lexeme content :: ofChars behind := by
  obtain ⟨c, rest, hchars, hmeasure⟩ := exists_measure hcontent
  rw [lexeme, hchars]
  exact ofChars_of_measure hmeasure

/-- To a reading of what stands in front, two contents of a form are the same. -/
theorem exists_stops {old new : List Char} (hold : form.Admits old behind)
    (hnew : form.Admits new behind) : ∃ stop tail other,
      form.chars old ++ behind = stop :: tail ∧ form.chars new ++ behind = stop :: other ∧
        Stops stop tail other := by
  cases form with
  | character =>
    exact ⟨'\'', _, _, rfl, rfl, .of_ne (by simp [IsStop]) (by decide) (by decide) _ _⟩
  | string => exact ⟨'"', _, _, rfl, rfl, .of_ne (by simp [IsStop]) (by decide) (by decide) _ _⟩
  | verbatim =>
    have hslash : '@' ≠ '/' := by decide
    exact ⟨'@', _, _, rfl, rfl, by simp [IsStop], fun _ ↦ ⟨rfl, rfl⟩, fun h ↦ absurd h hslash,
      fun h ↦ absurd h hslash⟩
  | raw quotes mark =>
    obtain ⟨more, rfl⟩ : ∃ more, quotes = more + 1 := ⟨quotes - 1, by have := hold.1; omega⟩
    exact ⟨'"', _, _, rfl, rfl, .of_ne (by simp [IsStop]) (by decide) (by decide) _ _⟩
  | lineNote =>
    have hat : '/' ≠ '@' := by decide
    exact ⟨'/', _, _, rfl, rfl, by simp [IsStop], fun h ↦ absurd h hat, fun _ ↦ ⟨.inl rfl, rfl⟩,
      fun _ _ _ _ _ ↦ rfl⟩
  | blockNote =>
    have hat : '/' ≠ '@' := by decide
    refine ⟨'/', _, _, rfl, rfl, by simp [IsStop], fun h ↦ absurd h hat, fun _ ↦ ⟨.inr rfl, rfl⟩, ?_⟩
    intro _ passed last hlast hend
    have hpass : ∀ content : List Char, ¬['*', '/'] <:+: content →
        Directive.conditionLength passed last false
          ('/' :: '*' :: (content ++ ['*', '/'] ++ behind)) =
        Directive.conditionLength (passed + 2 + content.length + 2) last false behind := by
      intro content hclose
      rw [Directive.conditionLength_line, if_neg (by simp), if_pos ⟨rfl, rfl⟩, List.append_assoc]
      exact Directive.conditionLength_append hclose _ _ _
    exact (hpass new hnew.2.2).trans (Directive.conditionLength_eq_last (by omega)
      ((hpass old hold.2.2).symm.trans hend) (by omega))
  | directive => exact ⟨'#', _, _, rfl, rfl, .of_ne (by simp [IsStop]) (by decide) (by decide) _ _⟩

/-- Assumes: a source that is read as some lexemes, one of them of a given form. With another content
in that form it is read as the same lexemes, but for that one. -/
theorem ofChars_replace {source : List Char} {front back : List Lexeme} {old new : List Char}
    (hsource : ofChars source = front ++ form.lexeme old :: back)
    (hold : form.Admits old (back.flatMap Lexeme.chars))
    (hnew : form.Admits new (back.flatMap Lexeme.chars)) :
    ofChars (front.flatMap Lexeme.chars ++ (form.chars new ++ back.flatMap Lexeme.chars)) =
      front ++ form.lexeme new :: back := by
  have hback := @ofChars_suffix source (front ++ [form.lexeme old]) back (by simpa using hsource)
  have hchars := flatMap_chars_ofChars source
  obtain ⟨stop, tail, other, hstop, hother, hstops⟩ := exists_stops hold hnew
  have hwhole : front.flatMap Lexeme.chars ++ stop :: tail = source := by
    rw [← hstop, ← hchars, hsource]
    simp [lexeme, Lexeme.chars]
  rw [hother, ofChars_append_stop hstops (hwhole ▸ hsource), ← hother, ofChars_append hnew, hback]

end Form

end Conform.Source
