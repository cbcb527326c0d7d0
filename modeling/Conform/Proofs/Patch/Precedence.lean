import Conform.Patch.Build
import Mathlib.Data.List.Forall2
import Mathlib.Data.List.Nodup

/-!
Which local states and transitions a patch goes by. Of each name only the first local state counts,
and of that its expression, its behaviours and the first transition of each name: local states that
agree on these have the same patch for every document, and only the names of its states are asked
for (`ofMachine?_congr_of_agree`). So the order of local states and of their transitions has no say,
nor have later ones of a name, nor states that the document does not have (`firstsCount`).
-/

set_option autoImplicit false

namespace Conform

/-! ### The first item of a key -/

section Keyed

variable {α κ : Type} [DecidableEq κ] {key : α → κ} {items others front more back : List α}
  {wanted : κ}

/-- Neighbours of different keys are not both wanted, so they may change places. -/
theorem find?_key_perm (hperm : items.Perm others) (hnodup : (items.map key).Nodup) :
    items.find? (key · = wanted) = others.find? (key · = wanted) := by
  induction hperm with
  | nil => rfl
  | cons item hrest ih =>
    rw [List.map_cons, List.nodup_cons] at hnodup
    rw [List.find?_cons, List.find?_cons, ih hnodup.2]
  | swap other item rest =>
    have hne : key item ≠ key other := by
      rw [List.map_cons, List.map_cons, List.nodup_cons] at hnodup
      exact fun hsame ↦ hnodup.1 (hsame ▸ List.mem_cons_self)
    simp only [List.find?_cons]
    by_cases hitem : key item = wanted
    · have hother : key other ≠ wanted := fun hother ↦ hne (hitem.trans hother.symm)
      simp [hitem, hother]
    · simp [hitem]
  | trans hfirst _ ihfirst ihsecond =>
    exact (ihfirst hnodup).trans (ihsecond ((hfirst.map key).nodup hnodup))

theorem find?_key_eq_none (hwanted : ∀ item ∈ more, key item ≠ wanted) :
    more.find? (key · = wanted) = none := by
  rw [List.find?_eq_none]
  intro item hmem
  simpa using hwanted item hmem

/-- Items whose keys have occurred are not the first of any. -/
theorem find?_key_append (hoccurred : ∀ item ∈ more, key item ∈ items.map key) :
    (items ++ more).find? (key · = wanted) = items.find? (key · = wanted) := by
  rw [List.find?_append]
  cases hfind : items.find? (key · = wanted) with
  | some item => rw [Option.some_or]
  | none =>
    rw [Option.none_or]
    apply find?_key_eq_none
    rintro item hmem rfl
    obtain ⟨earlier, hearlier, hkey⟩ := List.mem_map.mp (hoccurred item hmem)
    exact absurd hkey (by simpa using List.find?_eq_none.mp hfind earlier hearlier)

theorem find?_key_insert (hwanted : ∀ item ∈ more, key item ≠ wanted) :
    (front ++ more ++ back).find? (key · = wanted) = (front ++ back).find? (key · = wanted) := by
  rw [List.find?_append, List.find?_append, List.find?_append, find?_key_eq_none hwanted,
    Option.or_none]

/-- Items that stand in for others of the same key do so for the first of each key. -/
theorem rel_find?_key {related : α → α → Prop}
    (hitems : List.Forall₂ (fun item other ↦ key other = key item ∧ related item other)
      items others) :
    Option.Rel related (items.find? (key · = wanted)) (others.find? (key · = wanted)) := by
  induction hitems with
  | nil => exact .none
  | @cons item other items others hfirst hrest ih =>
    obtain ⟨hkey, hrelated⟩ := hfirst
    by_cases hwanted : key item = wanted
    · rw [List.find?_cons_of_pos (by simpa using hwanted),
        List.find?_cons_of_pos (by simpa [hkey] using hwanted)]
      exact .some hrelated
    · rw [List.find?_cons_of_neg (by simpa using hwanted),
        List.find?_cons_of_neg (by simpa [hkey] using hwanted)]
      exact ih

end Keyed

/-! ### States that agree -/

/-- States that say the same about a state of a document. -/
structure State.Agrees (state other : State) : Prop where
  assignTo : state.assignTo = other.assignTo
  behaviours : state.behaviours = other.behaviours
  transitions : ∀ name, state.transition? name = other.transition? name

namespace State

variable {state other : State}

theorem Agrees.refl (state : State) : Agrees state state :=
  ⟨rfl, rfl, fun _ ↦ rfl⟩

theorem agrees_withTransitions {transitions : List Transition}
    (hsame : ∀ name, transitions.find? (·.name = name) = state.transition? name) :
    Agrees state { state with transitions := transitions } :=
  ⟨rfl, rfl, fun name ↦ (hsame name).symm⟩

/-- Having transitions at all is a matter of finding one. -/
theorem transitions_eq_nil_iff (state : State) :
    state.transitions = [] ↔ ∀ name, state.transition? name = none := by
  constructor
  · intro hnil name
    rw [transition?, hnil, List.find?_nil]
  · intro hnone
    cases htransitions : state.transitions with
    | nil => rfl
    | cons first rest =>
      have hfirst := hnone first.name
      rw [transition?, htransitions, List.find?_cons_of_pos (by simp)] at hfirst
      cases hfirst

theorem Agrees.isEmpty_transitions (hagree : Agrees state other) :
    state.transitions.isEmpty = other.transitions.isEmpty := by
  rw [Bool.eq_iff_iff, List.isEmpty_iff, List.isEmpty_iff, transitions_eq_nil_iff,
    transitions_eq_nil_iff]
  simp only [hagree.transitions]

end State

/-- A document has a state of a name. -/
def Document.HasState (document : Json) (name : String) : Prop :=
  ∃ items, items? document "states" = some items ∧ ∃ found ∈ items, name? found = some name

namespace Patch

/-- The first local state of a name is missing in both lists, or there in both and says the same. -/
def AgreeOn (states others : List State) (name : String) : Prop :=
  Option.Rel State.Agrees (states.find? (·.name = name)) (others.find? (·.name = name))

section Agree

variable {state other : State} {states others : List State} {document : Json}

theorem agreeOn_of_find?_eq {name : String}
    (hfind : states.find? (·.name = name) = others.find? (·.name = name)) :
    AgreeOn states others name := by
  rw [AgreeOn, hfind]
  cases others.find? (·.name = name) with
  | none => exact .none
  | some state => exact .some (State.Agrees.refl state)

theorem ofTransitions_congr_of_agrees (hagree : state.Agrees other) (path : String) (position : Nat)
    (items : List Json) :
    ofTransitions state path position items = ofTransitions other path position items := by
  have htransitions : state.transition? = other.transition? := funext hagree.transitions
  induction items generalizing position with
  | nil => rfl
  | cons found rest ih => rw [ofTransitions, ofTransitions, htransitions, ih]

theorem ofState_congr_of_agrees (hagree : state.Agrees other) (path : String) (found : Json) :
    ofState state path found = ofState other path found := by
  rw [ofState, ofState, hagree.assignTo, hagree.behaviours, hagree.isEmpty_transitions,
    ofTransitions_congr_of_agrees hagree]

theorem rel_match? {found : Json}
    (hagree : ∀ name, Document.name? found = some name → AgreeOn states others name) :
    Option.Rel State.Agrees (match? states found) (match? others found) := by
  rw [match?, match?]
  cases hname : Document.name? found with
  | none => exact .none
  | some name => exact hagree name hname

theorem ofStates_congr_of_agree (position : Nat) {items : List Json}
    (hagree : ∀ found ∈ items, ∀ name, Document.name? found = some name →
      AgreeOn states others name) :
    ofStates states position items = ofStates others position items := by
  induction items generalizing position with
  | nil => rfl
  | cons found rest ih =>
    rw [List.forall_mem_cons] at hagree
    obtain ⟨hfound, hrest⟩ := hagree
    rw [ofStates, ofStates, ih (position + 1) hrest]
    congr 1
    have hmatch := rel_match? hfound
    generalize match? states found = mine at hmatch
    generalize match? others found = theirs at hmatch
    cases hmatch with
    | none => rfl
    | some hstate => exact ofState_congr_of_agrees hstate _ found

/-- Local states that agree on the names of a document's states have the same patch for it. -/
theorem ofMachine?_congr_of_agree
    (hagree : ∀ name, Document.HasState document name → AgreeOn states others name) :
    ofMachine? states document = ofMachine? others document := by
  rw [ofMachine?, ofMachine?]
  cases hitems : Document.items? document "states" with
  | none => rfl
  | some items =>
    rw [Option.map_some, Option.map_some]
    congr 1
    exact ofStates_congr_of_agree 0 fun found hfound name hname ↦
      hagree name ⟨items, hitems, found, hfound, hname⟩

theorem ofMachine?_congr_of_find? (document : Json)
    (hfind : ∀ name, states.find? (·.name = name) = others.find? (·.name = name)) :
    ofMachine? states document = ofMachine? others document :=
  ofMachine?_congr_of_agree fun name _ ↦ agreeOn_of_find?_eq (hfind name)

/-- Other transitions among which the first of each name are the same change no patch. -/
theorem ofMachine?_congr_of_transitions (document : Json)
    (hstates : List.Forall₂ (fun state other ↦ ∃ transitions,
      (∀ name, transitions.find? (·.name = name) = state.transition? name) ∧
        other = { state with transitions := transitions }) states others) :
    ofMachine? states document = ofMachine? others document := by
  apply ofMachine?_congr_of_agree
  intro name _
  refine rel_find?_key (hstates.imp ?_)
  rintro state other ⟨transitions, hsame, rfl⟩
  exact ⟨rfl, State.agrees_withTransitions hsame⟩

end Agree

/-! ### First entries count -/

/-- What of local states has a say in their patch for a document. -/
structure FirstsCount (document : Json) : Prop where
  /-- The first state of each name, and in it the first transition of each name. -/
  firsts : ∀ states others, (∀ name, AgreeOn states others name) →
    ofMachine? states document = ofMachine? others document
  /-- And of the names those alone that the document has states of. -/
  known : ∀ states others, (∀ name, Document.HasState document name → AgreeOn states others name) →
    ofMachine? states document = ofMachine? others document
  permuted : ∀ states others, states.Perm others → (states.map State.name).Nodup →
    ofMachine? states document = ofMachine? others document
  appended : ∀ states more, (∀ state ∈ more, state.name ∈ states.map State.name) →
    ofMachine? (states ++ more) document = ofMachine? states document
  unknown : ∀ front more back, (∀ state ∈ more, ¬ Document.HasState document state.name) →
    ofMachine? (front ++ more ++ back) document = ofMachine? (front ++ back) document
  /-- In any of the states. -/
  transitionsPermuted : ∀ states others, List.Forall₂ (fun state other ↦ ∃ transitions,
      state.transitions.Perm transitions ∧ (state.transitions.map Transition.name).Nodup ∧
        other = { state with transitions := transitions }) states others →
    ofMachine? states document = ofMachine? others document
  /-- In any of the states. -/
  transitionsAppended : ∀ states others, List.Forall₂ (fun state other ↦ ∃ more,
      (∀ transition ∈ more, transition.name ∈ state.transitions.map Transition.name) ∧
        other = { state with transitions := state.transitions ++ more }) states others →
    ofMachine? states document = ofMachine? others document

theorem firstsCount (document : Json) : FirstsCount document := by
  constructor
  · intro states others hagree
    exact ofMachine?_congr_of_agree fun name _ ↦ hagree name
  · intro states others hagree
    exact ofMachine?_congr_of_agree hagree
  · intro states others hperm hnodup
    exact ofMachine?_congr_of_find? document fun name ↦ find?_key_perm hperm hnodup
  · intro states more hoccurred
    exact ofMachine?_congr_of_find? document fun name ↦ find?_key_append hoccurred
  · intro front more back hunknown
    apply ofMachine?_congr_of_agree
    intro name hhas
    apply agreeOn_of_find?_eq
    exact find?_key_insert fun state hmem hname ↦ hunknown state hmem (hname ▸ hhas)
  · intro states others hstates
    refine ofMachine?_congr_of_transitions document (hstates.imp ?_)
    rintro state other ⟨transitions, hperm, hnodup, rfl⟩
    exact ⟨transitions, fun name ↦ (find?_key_perm hperm hnodup).symm, rfl⟩
  · intro states others hstates
    refine ofMachine?_congr_of_transitions document (hstates.imp ?_)
    rintro state other ⟨more, hoccurred, rfl⟩
    exact ⟨state.transitions ++ more, fun name ↦ find?_key_append hoccurred, rfl⟩

end Patch

end Conform
