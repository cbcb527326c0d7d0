import Conform.Proofs.Source.Row
import Mathlib.Tactic.SplitIfs

/-!
How long lexemes are, character by character: the opening mark of a string by cases on its first
characters, comments and the parts of a directive by what stands first (`Lexeme.measure_eq`,
`Directive.length_eq`). Sources are read lexeme by lexeme, so behind some lexemes the rest of them is
read (`Lexeme.ofChars_suffix`).
-/

set_option autoImplicit false

namespace Conform.Source

theorem drop_length_takeWhile (p : Char → Bool) (cs : List Char) :
    cs.drop (cs.takeWhile p).length = cs.dropWhile p := by
  induction cs with
  | nil => rfl
  | cons c rest ih => cases hc : p c <;> simp [hc, ih]

/-! ### Literals -/

theorem opening?_eq (cs : List Char) :
    opening? cs =
      let dollars := (cs.takeWhile (· = '$')).length
      let rest := cs.dropWhile (· = '$')
      let quotes := (rest.takeWhile (· = '"')).length
      if rest.head? = some '"' then
        if 3 ≤ quotes then some (.fenced quotes dollars 0 0, dollars + quotes)
        else some (.plain (dollars != 0), dollars + 1)
      else if rest.head? = some '@' ∧ rest.tail.head? = some '"' then
        some (.doubled (dollars != 0), dollars + 2)
      else if rest.head? = some '@' ∧ rest.tail.head? = some '$' ∧ rest.tail.tail.head? = some '"'
      then some (.doubled true, dollars + 3)
      else none := by
  unfold opening?
  dsimp only
  rcases cs.dropWhile (fun c ↦ decide (c = '$')) with _ | ⟨c, rest⟩
  · rfl
  by_cases hquote : c = '"'
  · simp [hquote]
  by_cases hat : c = '@'
  · rcases rest with _ | ⟨d, rest⟩
    · simp [hat]
    by_cases hsecond : d = '"'
    · simp [hat, hsecond]
    by_cases hdollar : d = '$'
    · rcases rest with _ | ⟨e, rest⟩
      · simp [hat, hdollar]
      · by_cases hthird : e = '"' <;> simp [hat, hdollar, hthird]
    · simp [hat, hsecond, hdollar]
  · simp [hquote, hat]

/-- Only dollars, quotes and at signs start a string. -/
theorem head_of_opening? {c : Char} {rest : List Char} {opened : Frame × Nat}
    (hopening : opening? (c :: rest) = some opened) : c = '$' ∨ c = '@' ∨ c = '"' := by
  by_cases hdollar : c = '$'
  · exact .inl hdollar
  · simp only [opening?_eq, List.dropWhile_cons, hdollar, decide_false, Bool.false_eq_true, if_false,
      List.head?_cons, Option.some.injEq] at hopening
    by_cases hquote : c = '"'
    · exact .inr (.inr hquote)
    · by_cases hat : c = '@'
      · exact .inr (.inl hat)
      · simp [hquote, hat] at hopening

/-! ### Comments -/

theorem Lexeme.noteLength_cons (c : Char) (rest : List Char) :
    noteLength (c :: rest) =
      if c = '*' ∧ rest.head? = some '/' then 2 else 1 + noteLength rest := by
  rcases rest with _ | ⟨d, rest⟩
  · simp [noteLength]
  · by_cases hstar : c = '*' <;> by_cases hslash : d = '/' <;> simp [noteLength, hstar, hslash]

namespace Lexeme

/-- The measure of a lexeme that is neither blank nor comment, directive or character. -/
def plain (c : Char) (rest : List Char) : Kind × Nat :=
  match opening? (c :: rest) with
  | some (frame, length) =>
    let length := literalLength [frame] (length - 1) rest
    (.literal, length + byteMarkLength (rest.drop length))
  | none =>
    if isWordPart c || c = '@' then (.word, (rest.takeWhile isWordPart).length)
    else if (rest.head?.map (isPair c)).getD false then (.mark, 1)
    else (.mark, 0)

theorem measure_eq (c : Char) (rest : List Char) :
    measure c rest =
      if isGap c then (.blank, (rest.takeWhile isGap).length)
      else if c = '#' then (.directive, Directive.length rest)
      else if c = '\'' then (.literal, literalLength [.character] 0 rest)
      else if c = '/' ∧ rest.head? = some '/' then
        (.comment, (rest.takeWhile (!isLineEnd ·)).length)
      else if c = '/' ∧ rest.head? = some '*' then (.comment, 1 + noteLength rest.tail)
      else plain c rest := by
  unfold measure
  by_cases hnote : c = '/'
  · subst hnote
    rcases rest with _ | ⟨d, rest⟩
    · rfl
    · by_cases hslash : d = '/'
      · subst hslash
        rfl
      · by_cases hstar : d = '*'
        · subst hstar
          rfl
        · cases hopening : opening? ('/' :: d :: rest) <;> simp [hslash, hstar, plain, hopening]
  · cases hopening : opening? (c :: rest) <;> simp [hnote, plain, hopening]

end Lexeme

/-! ### Directives -/

namespace Directive

theorem lineLength_cons (c : Char) (rest : List Char) :
    lineLength (c :: rest) = if c = '\n' then 1 else 1 + lineLength rest := by
  by_cases hfeed : c = '\n'
  · simp [lineLength, hfeed]
  · simp only [lineLength, List.takeWhile_cons, ne_eq, hfeed, not_false_eq_true, decide_true,
      if_true, if_false, List.length_take, List.length_cons]
    omega

theorem restLength_note (c : Char) (rest : List Char) :
    restLength true (c :: rest) =
      if c = '*' ∧ rest.head? = some '/' then 2 + restLength false rest.tail
      else 1 + restLength true rest := by
  rcases rest with _ | ⟨d, rest⟩
  · simp [restLength]
  · by_cases hstar : c = '*' <;> by_cases hslash : d = '/' <;> simp [restLength, hstar, hslash]

theorem restLength_line (c : Char) (rest : List Char) :
    restLength false (c :: rest) =
      if c = '\n' then 1
      else if c = '/' ∧ rest.head? = some '/' then 2 + lineLength rest.tail
      else if c = '/' ∧ rest.head? = some '*' then 2 + restLength true rest.tail
      else 1 + restLength false rest := by
  by_cases hfeed : c = '\n'
  · simp [restLength, hfeed]
  rcases rest with _ | ⟨d, rest⟩
  · simp [restLength, hfeed]
  · by_cases hnote : c = '/' <;> by_cases hslash : d = '/' <;> by_cases hstar : d = '*' <;>
      simp [restLength, hfeed, hnote, hslash, hstar]

theorem textLength_cons (c : Char) (rest : List Char) :
    textLength (c :: rest) =
      if c = '\n' then 0
      else if c = '\\' ∧ rest.head? = some '\n' then 2 + textLength rest.tail
      else if c = '\\' ∧ rest.head? = some '\r' ∧ rest.tail.head? = some '\n' then
        3 + textLength rest.tail.tail
      else if c = '/' ∧ rest.head? = some '*' then 0
      else if c = '/' ∧ rest ≠ [] then 2 + textLength rest.tail
      else 1 + textLength rest := by
  by_cases hfeed : c = '\n'
  · simp [textLength, hfeed]
  by_cases hback : c = '\\'
  · subst hback
    rcases rest with _ | ⟨d, _ | ⟨e, rest⟩⟩
    · simp [textLength]
    · by_cases hline : d = '\n' <;> simp [textLength, hline]
    · by_cases hline : d = '\n'
      · simp [textLength, hline]
      · by_cases hreturn : d = '\r' <;> by_cases hend : e = '\n' <;>
          simp [textLength, hline, hreturn, hend]
  · by_cases hslash : c = '/'
    · subst hslash
      rcases rest with _ | ⟨d, rest⟩
      · simp [textLength]
      · by_cases hstar : d = '*' <;> simp [textLength, hstar]
    · simp [textLength, hfeed, hback, hslash]

theorem ownText_of_cons {cs : List Char} {c : Char} {rest : List Char}
    (hrest : cs.dropWhile isIndent = c :: rest) :
    ownText cs = (cs.takeWhile isIndent).length +
      if c = '\n' ∨ c = '/' ∧ (rest.head? = some '/' ∨ rest.head? = some '*') then 0
      else 1 + textLength rest := by
  unfold ownText
  simp only [drop_length_takeWhile, hrest]
  by_cases hfeed : c = '\n'
  · simp [hfeed]
  by_cases hnote : c = '/'
  · subst hnote
    rcases rest with _ | ⟨d, rest⟩
    · simp [Nat.add_assoc]
    · by_cases hslash : d = '/' <;> by_cases hstar : d = '*' <;> simp [hslash, hstar, Nat.add_assoc]
  · simp [hfeed, hnote, Nat.add_assoc]

theorem conditionLength_note (passed last : Nat) (c : Char) (rest : List Char) :
    conditionLength passed last true (c :: rest) =
      if c = '*' ∧ rest.head? = some '/' then conditionLength (passed + 2) last false rest.tail
      else conditionLength (passed + 1) last true rest := by
  rcases rest with _ | ⟨d, rest⟩
  · simp [conditionLength]
  · by_cases hstar : c = '*' <;> by_cases hslash : d = '/' <;>
      simp [conditionLength, hstar, hslash]

theorem conditionLength_line (passed last : Nat) (c : Char) (rest : List Char) :
    conditionLength passed last false (c :: rest) =
      if c = '/' ∧ rest.head? = some '/' then last
      else if c = '/' ∧ rest.head? = some '*' then conditionLength (passed + 2) last true rest.tail
      else if c = '\n' ∨ c = '\r' then last
      else conditionLength (passed + 1) (if isIndent c then last else passed + 1) false rest := by
  rcases rest with _ | ⟨d, rest⟩
  · simp [conditionLength]
  · by_cases hnote : c = '/' <;> by_cases hslash : d = '/' <;> by_cases hstar : d = '*' <;>
      simp [conditionLength, hnote, hslash, hstar]

/-- A condition is as long as it was, or it reaches beyond what has been passed. -/
theorem conditionLength_eq_or_lt {passed last : Nat} (hlast : last ≤ passed) (inNote : Bool)
    (cs : List Char) : conditionLength passed last inNote cs = last ∨
      passed < conditionLength passed last inNote cs := by
  fun_induction conditionLength passed last inNote cs with
  | case1 => exact .inl rfl
  | case2 passed last rest ih => have := ih (by omega); omega
  | case3 passed last c rest _ ih => have := ih (by omega); omega
  | case4 => exact .inl rfl
  | case5 passed last rest ih => have := ih (by omega); omega
  | case6 => exact .inl rfl
  | case7 passed last c rest _ _ hend ih =>
    generalize hnext : (if isIndent c then last else passed + 1) = next at ih ⊢
    have hbounds : next = last ∨ next = passed + 1 := by rw [← hnext]; split <;> simp
    have := ih (by omega)
    omega

/-- The length up to the end of the name. -/
def headLength (cs : List Char) : Nat :=
  (cs.takeWhile isIndent).length + (name cs).length

theorem headLength_le (cs : List Char) : headLength cs ≤ cs.length := by
  have hsplit := congrArg List.length (List.takeWhile_append_dropWhile (p := isIndent) (l := cs))
  have hname := (List.takeWhile_prefix Char.isAlpha (l := cs.dropWhile isIndent)).length_le
  rw [List.length_append] at hsplit
  rw [headLength, name, String.length_ofList]
  omega

/-- The length of what belongs to a directive of a given name behind that name. -/
def tailLength (name : String) (behind : List Char) : Nat :=
  match roleOf name with
  | .split => conditionLength 0 0 false behind
  | .turn => if name = "elif" then conditionLength 0 0 false behind else 0
  | .join => 0
  | .line =>
    let own := if takesText name then ownText behind else 0
    own + restLength false (behind.drop own)

theorem length_eq (cs : List Char) :
    length cs = headLength cs + tailLength (name cs) (cs.drop (headLength cs)) := by
  unfold length tailLength headLength
  cases hrole : roleOf (name cs) <;> simp only [hrole]
  case turn => split <;> rfl
  case join => rfl
  case line => rw [Nat.add_assoc]

end Directive

/-! ### Rows of lexemes -/

namespace Lexeme

theorem ofChars_cons (c : Char) (rest : List Char) :
    ofChars (c :: rest) =
      ⟨(measure c rest).1, String.ofList (c :: rest.take (measure c rest).2)⟩ ::
        ofChars (rest.drop (measure c rest).2) := by
  rw [ofChars]

theorem flatMap_chars_ofChars (cs : List Char) : (ofChars cs).flatMap Lexeme.chars = cs :=
  flatMap_text_ofChars cs

/-- Behind some lexemes the rest of them is read. -/
theorem ofChars_suffix {source : List Char} {front back : List Lexeme}
    (hsource : ofChars source = front ++ back) : ofChars (back.flatMap Lexeme.chars) = back := by
  induction front generalizing source with
  | nil =>
    rw [List.nil_append] at hsource
    rw [← hsource, flatMap_chars_ofChars, hsource]
  | cons lexeme front ih =>
    cases source with
    | nil =>
      rw [ofChars] at hsource
      contradiction
    | cons c rest =>
      rw [ofChars_cons] at hsource
      exact ih (List.cons.inj hsource).2

end Lexeme

end Conform.Source
