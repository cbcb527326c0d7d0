import Conform.Source.Lexeme
import Mathlib.Logic.Basic

/-!
Lexemes read back from the text they are written as. A written lexeme stands before a text if
nothing of that text runs into it (`Lexeme.Stands`); this is a matter of the first character of the
text. It is then the first lexeme of the whole (`Lexeme.ofChars_append`), so a row of written
lexemes each of which stands before the next is read lexeme by lexeme.
-/

set_option autoImplicit false

namespace Conform.Source

namespace Lexeme

-- What holds of the characters of a text is decided along the text, not over all characters.
instance (priority := high) decidableForallMem (p : Char → Prop) [DecidablePred p]
    (text : List Char) : Decidable (∀ c ∈ text, p c) :=
  List.decidableBAll p text

instance (priority := high) decidableForallHead (p : Char → Prop) [DecidablePred p]
    (head : Option Char) : Decidable (∀ c ∈ head, p c) :=
  Option.decidableForallMem head

/-- Characters that are marks of their own: operators, brackets and separators. -/
def isMarkChar (c : Char) : Bool :=
  !isGap c && !isWordPart c && !(['#', '\'', '"', '$', '@'].contains c)

/-- What may stand between two quotes: no line end, and a quote only behind a backslash. -/
def isQuoted (quote : Char) : List Char → Bool
  | [] => true
  | '\\' :: c :: rest => !isLineEnd c && isQuoted quote rest
  | c :: rest => c ≠ quote && c ≠ '\\' && !isLineEnd c && isQuoted quote rest

/-- An identifier, a keyword or a number. -/
def isWholeWord : List Char → Bool
  | [] => false
  | c :: rest => (isWordPart c || c = '@' && !rest.isEmpty) && rest.all isWordPart

/-- A lexeme as it is written in front of a text that does not run into it. -/
inductive Stands : Lexeme → List Char → Prop
  | blank {text behind : List Char} (htext : text ≠ []) (hgap : ∀ c ∈ text, isGap c = true)
    (hbehind : ∀ c ∈ behind.head?, isGap c = false) :
    Stands ⟨.blank, String.ofList text⟩ behind
  | comment {text behind : List Char} (hline : ∀ c ∈ text, isLineEnd c = false)
    (hbehind : ∀ c ∈ behind.head?, isLineEnd c = true) :
    Stands ⟨.comment, String.ofList ('/' :: '/' :: text)⟩ behind
  | word {text behind : List Char} (htext : isWholeWord text = true)
    (hbehind : ∀ c ∈ behind.head?, isWordPart c = false) :
    Stands ⟨.word, String.ofList text⟩ behind
  | string {content behind : List Char} (hcontent : isQuoted '"' content = true)
    (hbehind : ∀ c ∈ behind.head?, isWordPart c = false ∧ c ≠ '"') :
    Stands ⟨.literal, String.ofList ('"' :: (content ++ ['"']))⟩ behind
  | character {content behind : List Char} (hcontent : isQuoted '\'' content = true) :
    Stands ⟨.literal, String.ofList ('\'' :: (content ++ ['\'']))⟩ behind
  | mark {c : Char} {behind : List Char} (hmark : isMarkChar c = true)
    (hpair : ∀ d ∈ behind.head?, isPair c d = false)
    (hnote : ∀ d ∈ behind.head?, c = '/' → d ≠ '/' ∧ d ≠ '*') :
    Stands ⟨.mark, String.ofList [c]⟩ behind
  | pair {c d : Char} {behind : List Char} (hmark : isMarkChar c = true)
    (hpair : isPair c d = true) :
    Stands ⟨.mark, String.ofList [c, d]⟩ behind

/-- A mark that starts neither a pair nor a comment stands before everything. -/
theorem stands_alone {c : Char} (hmark : isMarkChar c = true)
    (halone : c ∉ "=!<>+-*/%&|^:".toList) (behind : List Char) :
    Stands ⟨.mark, String.ofList [c]⟩ behind := by
  have hpair : ∀ d, isPair c d = false := by
    intro d
    simp_all [isPair]
  have hslash : c ≠ '/' := by
    rintro rfl
    exact halone (by decide)
  exact .mark hmark (fun d _ ↦ hpair d) fun _ _ h ↦ absurd h hslash

theorem takeWhile_append_of_all {p : Char → Bool} {front behind : List Char}
    (hfront : ∀ c ∈ front, p c = true) (hbehind : ∀ c ∈ behind.head?, p c = false) :
    (front ++ behind).takeWhile p = front := by
  rw [List.takeWhile_append_of_pos hfront]
  cases behind with
  | nil => simp
  | cons c rest => simp [hbehind c rfl]

/-! ### Literals -/

/-- Assumes: a frame that only a quote leaves and in which a backslash takes the next character with
it. What is quoted is passed over up to the closing quote. -/
theorem literalLength_quoted {frame : Frame} {quote : Char}
    (hescape : ∀ rest, advance frame [] '\\' rest = ([frame], 1))
    (hleave : ∀ rest, advance frame [] quote rest = ([], 0))
    (hstay : ∀ c rest, c ≠ quote → c ≠ '\\' → advance frame [] c rest = ([frame], 0))
    {content : List Char} (hcontent : isQuoted quote content = true) (behind : List Char) :
    literalLength [frame] 0 (content ++ quote :: behind) = content.length + 1 := by
  fun_induction isQuoted quote content with
  | case1 =>
    rw [List.nil_append, literalLength, hleave]
    cases behind <;> rfl
  | case2 c rest ih =>
    rw [Bool.and_eq_true] at hcontent
    rw [List.cons_append, literalLength, hescape]
    simp only [List.cons_append, literalLength, ih hcontent.2, List.length_cons]
    omega
  | case3 c rest _ ih =>
    simp only [ne_eq, decide_not, Bool.and_eq_true, Bool.not_eq_true',
      decide_eq_false_iff_not] at hcontent
    obtain ⟨⟨⟨hquote, hslash⟩, -⟩, hrest⟩ := hcontent
    rw [List.cons_append, literalLength, hstay c _ hquote hslash]
    simp only [ih hrest, List.length_cons]
    omega

theorem literalLength_string {content : List Char} (hcontent : isQuoted '"' content = true)
    (behind : List Char) :
    literalLength [.plain false] 0 (content ++ '"' :: behind) = content.length + 1 := by
  refine literalLength_quoted (fun _ ↦ rfl) (fun _ ↦ rfl) (fun c rest hquote hslash ↦ ?_) hcontent _
  simp [advance, hquote, hslash]

theorem literalLength_character {content : List Char} (hcontent : isQuoted '\'' content = true)
    (behind : List Char) :
    literalLength [.character] 0 (content ++ '\'' :: behind) = content.length + 1 := by
  refine literalLength_quoted (fun _ ↦ rfl) (fun _ ↦ rfl) (fun c rest hquote hslash ↦ ?_) hcontent _
  simp [advance, hquote, hslash]

/-- A plain string opens with one quote. -/
theorem opening?_string {content behind : List Char} (hcontent : isQuoted '"' content = true)
    (hbehind : ∀ c ∈ behind.head?, c ≠ '"') :
    opening? ('"' :: (content ++ '"' :: behind)) = some (.plain false, 1) := by
  have hquotes : (('"' :: (content ++ '"' :: behind)).takeWhile (· = '"')).length < 3 := by
    cases content with
    | nil =>
      cases behind with
      | nil => decide
      | cons d rest => simp [hbehind d rfl]
    | cons c rest =>
      have hquote : c ≠ '"' := by
        intro heq
        subst heq
        simp [isQuoted] at hcontent
      simp [hquote]
  have hdollars : ('"' :: (content ++ '"' :: behind)).takeWhile (· = '$') = [] := by simp
  have hdrop : ('"' :: (content ++ '"' :: behind)).dropWhile (· = '$') =
      '"' :: (content ++ '"' :: behind) := by simp
  unfold opening?
  simp only [hdollars, hdrop]
  rw [if_neg (Nat.not_le.mpr hquotes)]
  rfl

theorem opening?_eq_none {c : Char} {rest : List Char} (hdollar : c ≠ '$') (hquote : c ≠ '"')
    (hverbatim : c = '@' → ∀ d ∈ rest.head?, d ≠ '$' ∧ d ≠ '"') : opening? (c :: rest) = none := by
  unfold opening?
  simp only [List.takeWhile_cons, List.dropWhile_cons, hdollar, decide_false,
    Bool.false_eq_true, if_false]
  split
  case h_1 heq =>
    obtain ⟨rfl, rfl⟩ := List.cons.inj heq
    exact absurd rfl (hverbatim rfl '$' rfl).1
  case h_2 heq =>
    obtain ⟨rfl, rfl⟩ := List.cons.inj heq
    exact absurd rfl (hverbatim rfl '"' rfl).2
  case h_3 heq => exact absurd (List.cons.inj heq).1 hquote
  case h_4 => rfl

/-! ### Single lexemes -/

section Measure

variable {c : Char} {rest : List Char}

theorem measure_of_isGap (hgap : isGap c = true) :
    measure c rest = (.blank, (rest.takeWhile isGap).length) := by
  unfold measure
  simp only [hgap, if_true]

theorem toNat_of_isAlphanum (halphanum : c.isAlphanum = true) : 48 ≤ c.toNat ∧ c.toNat ≤ 122 := by
  delta Char.isAlphanum Char.isAlpha Char.isUpper Char.isLower Char.isDigit at halphanum
  simp only [Bool.or_eq_true, Bool.and_eq_true, decide_eq_true_eq, ge_iff_le,
    UInt32.le_iff_toNat_le] at halphanum
  simp at halphanum
  omega

theorem isGap_eq_false_of_toNat (hlow : 33 ≤ c.toNat) (hhigh : c.toNat ≤ 126) :
    isGap c = false := by
  have hne : c ≠ '\uFEFF' := by
    rintro rfl
    exact absurd hhigh (by decide)
  simp only [isGap, Text.isBlank, hne]
  simp
  omega

theorem isGap_eq_false_of_isWordPart (hword : isWordPart c = true) : isGap c = false := by
  simp only [isWordPart, Bool.or_eq_true, decide_eq_true_eq, Bool.and_eq_true,
    Bool.not_eq_true'] at hword
  rcases hword with ((halphanum | rfl) | rfl) | ⟨-, hgap⟩
  · have hbounds := toNat_of_isAlphanum halphanum
    exact isGap_eq_false_of_toNat (by omega) (by omega)
  · decide
  · decide
  · exact hgap

theorem notMem_of_isWordPart (hword : isWordPart c = true) :
    c ∉ ['#', '\'', '/', '$', '"', '@'] := by
  intro hmem
  simp only [List.mem_cons, List.not_mem_nil, or_false] at hmem
  rcases hmem with rfl | rfl | rfl | rfl | rfl | rfl <;> revert hword <;> decide

theorem measure_of_isWordPart (hword : isWordPart c = true) :
    measure c rest = (.word, (rest.takeWhile isWordPart).length) := by
  have hgap := isGap_eq_false_of_isWordPart hword
  have hspecial := notMem_of_isWordPart hword
  simp only [List.mem_cons, List.not_mem_nil, or_false, not_or] at hspecial
  obtain ⟨hsharp, htick, hslash, hdollar, hquote, hat⟩ := hspecial
  have hopening := @opening?_eq_none c rest hdollar hquote (fun h ↦ absurd h hat)
  unfold measure
  simp only [hgap, hsharp, htick, Bool.false_eq_true, if_false]
  split
  · exact absurd rfl hslash
  · exact absurd rfl hslash
  · simp only [hopening, hword, Bool.true_or, if_true]

theorem measure_verbatim {behind : List Char} (hrest : rest ≠ [])
    (hword : ∀ c ∈ rest, isWordPart c = true) :
    measure '@' (rest ++ behind) = (.word, ((rest ++ behind).takeWhile isWordPart).length) := by
  have hopening : opening? ('@' :: (rest ++ behind)) = none := by
    refine opening?_eq_none (by decide) (by decide) fun _ d hd ↦ ?_
    obtain ⟨c, tail, rfl⟩ := List.exists_cons_of_ne_nil hrest
    obtain rfl : c = d := Option.some.inj hd
    have hspecial := notMem_of_isWordPart (hword c List.mem_cons_self)
    simp only [List.mem_cons, List.not_mem_nil, or_false, not_or] at hspecial
    exact ⟨hspecial.2.2.2.1, hspecial.2.2.2.2.1⟩
  have hgap : isGap '@' = false := by decide
  unfold measure
  simp only [hgap, Bool.false_eq_true, if_false, Char.reduceEq, hopening, decide_true, Bool.or_true,
    if_true]
  rfl

theorem measure_of_isMarkChar (hmark : isMarkChar c = true)
    (hnote : ∀ d ∈ rest.head?, c = '/' → d ≠ '/' ∧ d ≠ '*') :
    measure c rest = (.mark, if (rest.head?.map (isPair c)).getD false then 1 else 0) := by
  simp only [isMarkChar, Bool.and_eq_true, Bool.not_eq_true', List.contains_eq_mem,
    decide_eq_false_iff_not, List.mem_cons, List.not_mem_nil, or_false, not_or] at hmark
  obtain ⟨⟨hgap, hword⟩, hsharp, htick, hquote, hdollar, hat⟩ := hmark
  have hopening := @opening?_eq_none c rest hdollar hquote (fun h ↦ absurd h hat)
  unfold measure
  simp only [hgap, hsharp, htick, Bool.false_eq_true, if_false]
  split
  · exact absurd rfl (hnote _ rfl rfl).1
  · exact absurd rfl (hnote _ rfl rfl).2
  · simp only [hopening, hword, hat, decide_false, Bool.or_self, Bool.false_eq_true, if_false]
    split <;> rfl

theorem isGap_eq_false_of_isMarkChar (hmark : isMarkChar c = true) : isGap c = false := by
  simp only [isMarkChar, Bool.and_eq_true, Bool.not_eq_true'] at hmark
  exact hmark.1.1

theorem exists_cons_of_isWholeWord {text : List Char} (htext : isWholeWord text = true) :
    ∃ c tail, text = c :: tail ∧ (isWordPart c = true ∨ c = '@' ∧ tail ≠ []) ∧
      ∀ d ∈ tail, isWordPart d = true := by
  cases text with
  | nil => contradiction
  | cons c tail =>
    simp only [isWholeWord, Bool.and_eq_true, Bool.or_eq_true, decide_eq_true_eq,
      Bool.not_eq_true', List.isEmpty_eq_false_iff, List.all_eq_true] at htext
    exact ⟨c, tail, rfl, htext⟩

theorem isGap_head_of_isWholeWord {text : List Char} (htext : isWholeWord text = true) :
    ∃ c tail, text = c :: tail ∧ isGap c = false := by
  obtain ⟨c, tail, rfl, hword | ⟨rfl, -⟩, -⟩ := exists_cons_of_isWholeWord htext
  · exact ⟨c, tail, rfl, isGap_eq_false_of_isWordPart hword⟩
  · exact ⟨'@', tail, rfl, by decide⟩

theorem measure_string {content behind : List Char} (hcontent : isQuoted '"' content = true)
    (hbehind : ∀ c ∈ behind.head?, isWordPart c = false ∧ c ≠ '"') :
    measure '"' (content ++ '"' :: behind) = (.literal, content.length + 1) := by
  have hopening := opening?_string hcontent fun c hc ↦ (hbehind c hc).2
  have hlength := literalLength_string hcontent behind
  have hdrop : (content ++ '"' :: behind).drop (content.length + 1) = behind := by simp
  have hmark : byteMarkLength behind = 0 := by
    unfold byteMarkLength
    split
    · exact absurd (hbehind _ rfl).1 (by decide)
    · exact absurd (hbehind _ rfl).1 (by decide)
    · rfl
  have hgap : isGap '"' = false := by decide
  unfold measure
  simp only [hgap, Bool.false_eq_true, if_false, Char.reduceEq, hopening, Nat.sub_self, hlength,
    hdrop, hmark, Nat.add_zero]
  rfl

theorem measure_character {content behind : List Char} (hcontent : isQuoted '\'' content = true) :
    measure '\'' (content ++ '\'' :: behind) = (.literal, content.length + 1) := by
  have hgap : isGap '\'' = false := by decide
  unfold measure
  simp only [hgap, Bool.false_eq_true, if_false, Char.reduceEq, if_true,
    literalLength_character hcontent]

theorem measure_comment {text behind : List Char} (hline : ∀ c ∈ text, isLineEnd c = false)
    (hbehind : ∀ c ∈ behind.head?, isLineEnd c = true) :
    measure '/' ('/' :: text ++ behind) = (.comment, text.length + 1) := by
  have htake : ('/' :: text ++ behind).takeWhile (!isLineEnd ·) = '/' :: text := by
    refine takeWhile_append_of_all (fun c hc ↦ ?_) fun c hc ↦ by rw [hbehind c hc, Bool.not_true]
    rcases List.mem_cons.mp hc with rfl | hc
    · decide
    · rw [hline c hc, Bool.not_false]
  have hgap : isGap '/' = false := by decide
  unfold measure
  rw [List.cons_append] at htake
  simp only [List.cons_append, htake, hgap, Bool.false_eq_true, if_false, Char.reduceEq,
    List.length_cons]

end Measure

/-- The length of a lexeme that stands before a text is measured right. -/
theorem Stands.exists_measure {lexeme : Lexeme} {behind : List Char}
    (hstands : lexeme.Stands behind) :
    ∃ c tail, lexeme.text = String.ofList (c :: tail) ∧
      measure c (tail ++ behind) = (lexeme.kind, tail.length) := by
  cases hstands with
  | @blank text _ htext hgap hbehind =>
    obtain ⟨c, tail, rfl⟩ := List.exists_cons_of_ne_nil htext
    rw [List.forall_mem_cons] at hgap
    refine ⟨c, tail, rfl, ?_⟩
    rw [measure_of_isGap hgap.1, takeWhile_append_of_all hgap.2 hbehind]
  | @comment text _ hline hbehind =>
    exact ⟨'/', '/' :: text, rfl, measure_comment hline hbehind⟩
  | @word text _ htext hbehind =>
    obtain ⟨c, tail, rfl, hc, htail⟩ := exists_cons_of_isWholeWord htext
    refine ⟨c, tail, rfl, ?_⟩
    rcases hc with hword | ⟨rfl, hne⟩
    · rw [measure_of_isWordPart hword, takeWhile_append_of_all htail hbehind]
    · rw [measure_verbatim hne htail, takeWhile_append_of_all htail hbehind]
  | @string content _ hcontent hbehind =>
    refine ⟨'"', content ++ ['"'], rfl, ?_⟩
    rw [List.append_assoc, List.singleton_append, measure_string hcontent hbehind]
    simp
  | @character content _ hcontent =>
    refine ⟨'\'', content ++ ['\''], rfl, ?_⟩
    rw [List.append_assoc, List.singleton_append, measure_character hcontent]
    simp
  | @mark c _ hmark hpair hnote =>
    refine ⟨c, [], rfl, ?_⟩
    rw [List.nil_append, measure_of_isMarkChar hmark hnote]
    cases behind with
    | nil => rfl
    | cons d rest => simp [hpair d rfl]
  | @pair c d _ hmark hpair =>
    refine ⟨c, [d], rfl, ?_⟩
    have hnote : ∀ e ∈ ([d] ++ behind).head?, c = '/' → e ≠ '/' ∧ e ≠ '*' := by
      rintro e he rfl
      obtain rfl : d = e := Option.some.inj he
      have hequal : d = '=' := by simpa [isPair] using hpair
      subst hequal
      decide
    rw [measure_of_isMarkChar hmark hnote]
    simp [hpair]

/-- Only the first character of a text matters. -/
theorem Stands.congr {lexeme : Lexeme} {behind other : List Char}
    (hhead : behind.head? = other.head?) (hstands : lexeme.Stands behind) :
    lexeme.Stands other := by
  cases hstands with
  | blank htext hgap hbehind => exact .blank htext hgap (hhead ▸ hbehind)
  | comment hline hbehind => exact .comment hline (hhead ▸ hbehind)
  | word htext hbehind => exact .word htext (hhead ▸ hbehind)
  | string hcontent hbehind => exact .string hcontent (hhead ▸ hbehind)
  | character hcontent => exact .character hcontent
  | mark hmark hpair hnote => exact .mark hmark (hhead ▸ hpair) (hhead ▸ hnote)
  | pair hmark hpair => exact .pair hmark hpair

/-- A lexeme that is no blank starts with none. -/
theorem Stands.isGap_head {lexeme : Lexeme} {behind : List Char} (hstands : lexeme.Stands behind)
    (hkind : lexeme.kind ≠ .blank) :
    ∃ c tail, lexeme.text.toList = c :: tail ∧ isGap c = false := by
  cases hstands with
  | blank => exact absurd rfl hkind
  | comment => exact ⟨_, _, String.toList_ofList, by decide⟩
  | @word text _ htext =>
    obtain ⟨c, tail, rfl, hgap⟩ := isGap_head_of_isWholeWord htext
    exact ⟨c, tail, String.toList_ofList, hgap⟩
  | string => exact ⟨_, _, String.toList_ofList, by decide⟩
  | character => exact ⟨_, _, String.toList_ofList, by decide⟩
  | mark hmark => exact ⟨_, _, String.toList_ofList, isGap_eq_false_of_isMarkChar hmark⟩
  | pair hmark => exact ⟨_, _, String.toList_ofList, isGap_eq_false_of_isMarkChar hmark⟩

/-- A lexeme that is measured right is read first. -/
theorem ofChars_of_measure {kind : Kind} {c : Char} {rest behind : List Char}
    (hmeasure : measure c (rest ++ behind) = (kind, rest.length)) :
    ofChars (c :: rest ++ behind) = ⟨kind, String.ofList (c :: rest)⟩ :: ofChars behind := by
  rw [List.cons_append, ofChars, hmeasure]
  dsimp only
  rw [List.take_left, List.drop_left]

/-- A lexeme that stands before a text is read first. -/
theorem ofChars_append {lexeme : Lexeme} {behind : List Char} (hstands : lexeme.Stands behind) :
    ofChars (lexeme.text.toList ++ behind) = lexeme :: ofChars behind := by
  obtain ⟨c, tail, htext, hmeasure⟩ := hstands.exists_measure
  obtain ⟨kind, text⟩ := lexeme
  subst htext
  rw [String.toList_ofList]
  exact ofChars_of_measure hmeasure

end Lexeme
end Conform.Source
