import Conform.Source.Course

/-!
What is looked at behind a word. A sign keeps the text of the token behind a word, and of that text
no more is looked at than a glance: if a literal starts there, that it starts with this character.
Phrases and courses go on in the same way behind a sign and behind its glance (`Course.step_glance`),
so the content of a literal has no part in how a word in front of it is read.
-/

set_option autoImplicit false

namespace Conform.Source

/-- The characters that a literal may start with. -/
def opensLiteral (c : Char) : Bool :=
  ['"', '\'', '@', '$'].contains c

/-- What is looked at of a text: of a literal the first character, else all of it. -/
def glance (text : String) : String :=
  if (text.toList.head?.map opensLiteral).getD false then String.ofList (text.toList.take 1)
  else text

theorem head?_glance (text : String) : (glance text).toList.head? = text.toList.head? := by
  unfold glance
  split
  · rw [String.toList_ofList]
    cases text.toList <;> rfl
  · rfl

theorem glance_of_opensLiteral {text : String} {c : Char} {rest : List Char}
    (htext : text.toList = c :: rest) (hopens : opensLiteral c = true) :
    glance text = String.ofList [c] := by
  unfold glance
  rw [htext, List.head?_cons, Option.map_some, Option.getD_some, if_pos hopens]
  rfl

/-- Assumes: a text that no literal starts with. -/
theorem glance_eq_iff (other : String)
    (hother : (other.toList.head?.map opensLiteral).getD false = false) (text : String) :
    glance text = other ↔ text = other := by
  by_cases hopens : (text.toList.head?.map opensLiteral).getD false = true
  · refine iff_of_false (fun heq ↦ ?_) fun heq ↦ ?_
    · rw [← head?_glance, heq, hother] at hopens
      contradiction
    · rw [heq, hother] at hopens
      contradiction
  · rw [glance, if_neg hopens]

namespace Sign

/-- The sign with a glance at what follows a word. -/
def glance : Sign → Sign
  | word text next => word text (Source.glance next)
  | sign => sign

/-- Signs that look the same are the same, or words before texts that look the same. -/
theorem eq_or_word_of_glance_eq {sign other : Sign} (hglance : sign.glance = other.glance) :
    sign = other ∨ ∃ text next behind, sign = word text next ∧ other = word text behind ∧
      Source.glance next = Source.glance behind := by
  cases sign with
  | word text next =>
    cases other with
    | word other behind =>
      obtain ⟨rfl, hnext⟩ := word.inj hglance
      exact .inr ⟨text, next, behind, rfl, rfl, hnext⟩
    | _ => cases hglance
  | _ =>
    cases other with
    | word => cases hglance
    | _ => exact .inl hglance

end Sign

namespace Phrase

variable (phrase : Phrase) (text next : String)

@[simp] theorem startsWith_glance (test : Char → Bool) :
    startsWith test (glance next) = startsWith test next := by
  rw [startsWith, startsWith, head?_glance]

@[simp] theorem leadsOn_glance : leadsOn text (glance next) = leadsOn text next := by
  rw [leadsOn, leadsOn, startsWith_glance]

theorem openWord_glance : phrase.openWord text (glance next) = phrase.openWord text next := by
  simp only [openWord, startsWith_glance, leadsOn_glance, glance_eq_iff "(" (by decide)]

theorem closedWord?_glance :
    phrase.closedWord? text (glance next) = phrase.closedWord? text next := by
  simp only [closedWord?, ne_eq, glance_eq_iff "(" (by decide),
    glance_eq_iff "\x7b" (by decide)]

theorem afterWord?_glance : phrase.afterWord? text (glance next) = phrase.afterWord? text next := by
  simp only [afterWord?, openWord_glance, closedWord?_glance]

theorem next?_glance (sign : Sign) : phrase.next? sign.glance = phrase.next? sign := by
  cases sign with
  | word text next => exact phrase.afterWord?_glance text next
  | _ => rfl

end Phrase

namespace Course

variable (course : Course)

theorem startPhase?_glance (phase : Phase) (text next : String) :
    startPhase? phase text (glance next) = startPhase? phase text next := by
  simp only [startPhase?, glance_eq_iff ":" (by decide),
    glance_eq_iff "(" (by decide), glance_eq_iff "\x7b" (by decide),
    glance_eq_iff "foreach" (by decide), glance_eq_iff "using" (by decide)]

theorem begin_glance (sign : Sign) : course.begin sign.glance = course.begin sign := by
  cases sign with
  | word text next =>
    have hnext := (Phrase.start course.content).next?_glance (.word text next)
    rw [Sign.glance] at hnext ⊢
    simp only [begin, startPhase?_glance, hnext]
  | _ => rfl

theorem advance_glance (sign : Sign) : course.advance sign.glance = course.advance sign := by
  cases sign with
  | word text next =>
    have hbegin := fun course : Course ↦ course.begin_glance (.word text next)
    have hnext := fun phrase : Phrase ↦ phrase.next?_glance (.word text next)
    simp only [Sign.glance] at hbegin hnext ⊢
    simp only [advance, hbegin, hnext, reduceCtorEq]
  | _ => rfl

theorem step_glance (sign : Sign) (rest : Forest) :
    course.step sign.glance rest = course.step sign rest := by
  cases sign with
  | word text next => exact course.advance_glance (.word text next)
  | _ => rfl

end Course

end Conform.Source
