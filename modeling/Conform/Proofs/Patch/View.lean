import Conform.Proofs.Patch.Alignment

/-!
What is read of a document. Of a whole document the makers of patches look at its name, at its kind
and at the names of its states and transitions in their places, and at nothing else
(`ofMachine?_congr`). None of the patches they make, carried out on any document whatever, changes
what is seen there (`view_of_apply`): a patch never moves the places that another patch goes by.
-/

set_option autoImplicit false

namespace Conform

open Json

/-! ### Views -/

/-- What is read of a state: its name, and the names of its transitions in their places. -/
@[ext]
structure StateView where
  name : Option String
  transitions : Option (List (Option String))

/-- What is read of a document. -/
@[ext]
structure View where
  name : Option String
  kind : Option String
  states : Option (List StateView)

namespace Document

def transitionNames? (value : Json) : Option (List (Option String)) :=
  value.asArray?.map (·.map name?)

def stateView (value : Json) : StateView :=
  ⟨name? value, (value.get? "transitions").bind transitionNames?⟩

def stateViews? (value : Json) : Option (List StateView) :=
  value.asArray?.map (·.map stateView)

def view (document : Json) : View :=
  ⟨name? document, instanceOf? document, (document.get? "states").bind stateViews?⟩

theorem map_name?_items? (value : Json) :
    (items? value "transitions").map (·.map name?) = (stateView value).transitions := by
  rw [items?, stateView]
  cases value.get? "transitions" <;> rfl

theorem map_stateView_items? (document : Json) :
    (items? document "states").map (·.map stateView) = (view document).states := by
  rw [items?, view]
  cases document.get? "states" <;> rfl

end Document

/-! ### Patches go by views -/

namespace Patch

open Document

theorem ofTransitions_congr (state : State) (path : String) (position : Nat)
    {items others : List Json} (hnames : items.map name? = others.map name?) :
    ofTransitions state path position items = ofTransitions state path position others := by
  induction items generalizing position others with
  | nil =>
    rw [List.map_nil, eq_comm, List.map_eq_nil_iff] at hnames
    rw [hnames]
  | cons found rest ih =>
    obtain ⟨other, others, rfl, hname, hrest⟩ := List.map_eq_cons_iff.mp hnames.symm
    rw [ofTransitions, ofTransitions, hname, ih (position + 1) hrest.symm]

theorem ofState_congr (state : State) (path : String) {found other : Json}
    (hview : stateView found = stateView other) :
    ofState state path found = ofState state path other := by
  have hnames : (items? found "transitions").map (·.map name?) =
      (items? other "transitions").map (·.map name?) := by
    rw [map_name?_items?, map_name?_items?, hview]
  have hitems : ((items? found "transitions").getD []).map name? =
      ((items? other "transitions").getD []).map name? := by
    cases hfound : items? found "transitions" <;> cases hother : items? other "transitions" <;>
      simp_all
  rw [ofState, ofState, ofTransitions_congr state path 0 hitems]

theorem ofStates_congr (states : List State) (position : Nat) {items others : List Json}
    (hviews : items.map stateView = others.map stateView) :
    ofStates states position items = ofStates states position others := by
  induction items generalizing position others with
  | nil =>
    rw [List.map_nil, eq_comm, List.map_eq_nil_iff] at hviews
    rw [hviews]
  | cons found rest ih =>
    obtain ⟨other, others, rfl, hview, hrest⟩ := List.map_eq_cons_iff.mp hviews.symm
    have hname : name? other = name? found := congrArg StateView.name hview
    rw [ofStates, ofStates, match?, match?, hname, ih (position + 1) hrest.symm]
    congr 1
    cases (name? found).bind fun name ↦ states.find? (·.name = name) with
    | none => rfl
    | some state => exact ofState_congr state _ hview.symm

/-- Documents that look alike have the same patch for a state machine. -/
theorem ofMachine?_congr (states : List State) {document other : Json}
    (hview : view document = view other) :
    ofMachine? states document = ofMachine? states other := by
  have hviews : (items? document "states").map (·.map stateView) =
      (items? other "states").map (·.map stateView) := by
    rw [map_stateView_items?, map_stateView_items?, hview]
  rw [ofMachine?, ofMachine?]
  cases hitems : items? document "states" <;> cases hothers : items? other "states" <;>
    rw [hitems, hothers] at hviews <;> simp only [Option.map_none, Option.map_some, reduceCtorEq,
      Option.some.injEq] at hviews ⊢
  exact ofStates_congr states 0 hviews

end Patch

/-! ### What patches keep -/

namespace Json

section Put

variable {value : Json} {rest place : Location}

/-- Writing below a member changes that member of an object at most. -/
theorem get?_put_member {key : String} (new : Json)
    (hplace : Pointer.resolve? value (Pointer.ofLocation (.member key :: rest)) = some place) :
    (∀ other, other ≠ key → (value.put place new).get? other = value.get? other) ∧
      ((value.put place new).get? key = value.get? key ∨
        ∃ inner below, value.get? key = some inner ∧
          Pointer.resolve? inner (Pointer.ofLocation rest) = some below ∧
          (value.put place new).get? key = some (inner.put below new)) := by
  obtain ⟨taken, inner, below, htaken, hinner, hbelow, rfl⟩ :=
    Pointer.exists_of_resolve?_ofLocation_cons hplace
  rw [put_cons hinner]
  cases value with
  | object members =>
    rw [Pointer.step?, Pointer.plainToken, String.ofList_toList, Option.some.injEq] at htaken
    subst htaken
    exact ⟨fun other hother ↦ member?_setMember_of_ne hother _ members,
      .inr ⟨inner, below, hinner, hbelow, member?_setMember_self key _ members⟩⟩
  | array items => cases taken <;> exact ⟨fun _ _ ↦ rfl, .inl rfl⟩
  | _ => simp [Pointer.step?] at htaken

/-- Writing below a position changes the item at that position of an array at most. -/
theorem asArray?_put_item {position : Nat} (new : Json)
    (hplace : Pointer.resolve? value (Pointer.ofLocation (.item position :: rest)) = some place) :
    (value.put place new).asArray? = value.asArray? ∨
      ∃ items inner below, value.asArray? = some items ∧ items[position]? = some inner ∧
        Pointer.resolve? inner (Pointer.ofLocation rest) = some below ∧
        (value.put place new).asArray? = some (items.set position (inner.put below new)) := by
  obtain ⟨taken, inner, below, htaken, hinner, hbelow, rfl⟩ :=
    Pointer.exists_of_resolve?_ofLocation_cons hplace
  rw [put_cons hinner]
  cases value with
  | object members => cases taken <;> exact .inl rfl
  | array items =>
    rw [Pointer.step?, Pointer.plainToken, Pointer.position?_toDigits, Option.map_some,
      Option.some.injEq] at htaken
    subst htaken
    exact .inr ⟨items, inner, below, rfl, hinner, hbelow, rfl⟩
  | _ => simp [Pointer.step?] at htaken

end Put

/-- Wherever the pointer of a location leads in a value, writing there keeps what is seen of the
value. -/
def Keeps {β : Type} (seen : Json → β) (location : Location) : Prop :=
  ∀ value place new, Pointer.resolve? value (Pointer.ofLocation location) = some place →
    seen (value.put place new) = seen value

section Keeps

variable {β : Type} {rest : Location} {key other : String}

theorem Keeps.items {seen : Json → β} (hrest : Keeps seen rest) (position : Nat) :
    Keeps (fun value ↦ value.asArray?.map (·.map seen)) (.item position :: rest) := by
  intro value place new hplace
  rcases asArray?_put_item new hplace with
    hsame | ⟨items, inner, below, hitems, hinner, hbelow, hput⟩
  · simp only [hsame]
  · have hseen : seen (inner.put below new) = seen inner := hrest inner below new hbelow
    obtain ⟨hposition, rfl⟩ := List.getElem?_eq_some_iff.mp hinner
    simp only [hitems, hput, Option.map_some, List.map_set, hseen, Option.some.injEq]
    rw [← List.getElem_map seen (h := by simpa using hposition), List.set_getElem_self]

theorem Keeps.under {seen : Json → Option β} (hrest : Keeps seen rest) (key : String) :
    Keeps (fun value ↦ (value.get? key).bind seen) (.member key :: rest) := by
  intro value place new hplace
  rcases (get?_put_member new hplace).2 with
    hsame | ⟨inner, below, hinner, hbelow, hput⟩
  · simp only [hsame]
  · simp only [hinner, hput, Option.bind_some]
    exact hrest inner below new hbelow

theorem keeps_of_ne (hne : other ≠ key) (seen : Json → Option β) (rest : Location) :
    Keeps (fun value ↦ (value.get? other).bind seen) (.member key :: rest) := by
  intro value place new hplace
  simp only [(get?_put_member new hplace).1 other hne]

end Keeps

end Json

namespace Patch

open Json Document

theorem keeps_stateView {location : Location}
    (hname : Keeps name? location)
    (htransitions : Keeps (fun value ↦ (value.get? "transitions").bind transitionNames?) location) :
    Keeps stateView location := fun value place new hplace ↦
  StateView.ext (hname value place new hplace) (htransitions value place new hplace)

theorem keeps_view {location : Location} (hname : Keeps name? location)
    (hkind : Keeps instanceOf? location)
    (hstates : Keeps (fun value ↦ (value.get? "states").bind stateViews?) location) :
    Keeps view location := fun value place new hplace ↦
  View.ext (hname value place new hplace) (hkind value place new hplace)
    (hstates value place new hplace)

/-- Every one of some edits keeps what is seen of a value, whatever value it meets. -/
def AllKeep {β : Type} (seen : Json → β) (edits : List Edit) : Prop :=
  ∀ edit ∈ edits, Keeps seen edit.location

theorem allKeep_itemEdits {β : Type} {seen : Json → β} {edits : Json → List Edit}
    (hedits : ∀ item, AllKeep seen (edits item)) (position : Nat) (items : List Json) :
    AllKeep (fun value ↦ value.asArray?.map (·.map seen)) (itemEdits edits position items) := by
  induction items generalizing position with
  | nil => exact List.forall_mem_nil _
  | cons item rest ih =>
    intro edit hedit
    rw [itemEdits, List.mem_append, List.mem_map] at hedit
    rcases hedit with ⟨inner, hinner, rfl⟩ | hrest
    · exact (hedits item inner hinner).items position
    · exact ih (position + 1) edit hrest

theorem allKeep_transitionEdits (state : State) (found : Json) :
    AllKeep name? (transitionEdits state found) := by
  intro edit hedit
  rw [transitionEdits] at hedit
  split at hedit
  · rw [List.mem_singleton] at hedit
    exact hedit ▸ keeps_of_ne (by decide) _ _
  · exact absurd hedit List.not_mem_nil

theorem allKeep_stateEdits (state : State) (found : Json) :
    AllKeep stateView (stateEdits state found) := by
  intro edit hedit
  rw [stateEdits, List.mem_append, List.mem_append, List.mem_singleton, List.mem_map] at hedit
  rcases hedit with rfl | hlisted | ⟨inner, hinner, rfl⟩
  · exact keeps_stateView (keeps_of_ne (by decide) _ _) (keeps_of_ne (by decide) _ _)
  · rw [behaviourEdits] at hlisted
    split at hlisted
    · exact absurd hlisted List.not_mem_nil
    · rw [List.mem_singleton] at hlisted
      exact hlisted ▸ keeps_stateView (keeps_of_ne (by decide) _ _) (keeps_of_ne (by decide) _ _)
  · exact keeps_stateView (keeps_of_ne (by decide) _ _)
      ((allKeep_itemEdits (allKeep_transitionEdits state) _ _ inner hinner).under "transitions")

theorem allKeep_machineEdits (states : List State) (found : Json) :
    AllKeep stateView (machineEdits states found) := by
  rw [machineEdits]
  split
  · exact allKeep_stateEdits _ found
  · exact List.forall_mem_nil _

/-- A patch that changes nothing of what is seen of a document. -/
def Unseen (changes : Patch) : Prop :=
  ∃ edits, changes = ofEdits edits ∧ AllKeep view edits

theorem Unseen.append {first second : Patch} (hfirst : Unseen first) (hsecond : Unseen second) :
    Unseen (first ++ second) := by
  obtain ⟨edits, rfl, hedits⟩ := hfirst
  obtain ⟨others, rfl, hothers⟩ := hsecond
  exact ⟨edits ++ others, (ofEdits_append edits others).symm,
    List.forall_mem_append.mpr ⟨hedits, hothers⟩⟩

theorem unseen_nil : Unseen [] :=
  ⟨[], rfl, List.forall_mem_nil _⟩

section Fields

variable {key path : String} (hpath : path = Pointer.ofLocation [.member key])
  (hkey : key ∉ ["name", "instanceOf", "states"])
include hpath hkey

/-- Of the members of a document only three are seen. -/
theorem unseen_replaceAt (value : Json) : Unseen [replaceAt path value] := by
  simp only [List.mem_cons, List.not_mem_nil, or_false, not_or] at hkey
  obtain ⟨hname, hkind, hstates⟩ := hkey
  refine ⟨[⟨[.member key], value⟩], ?_, List.forall_mem_singleton.mpr ?_⟩
  · rw [hpath]
    rfl
  · exact keeps_view (keeps_of_ne (Ne.symm hname) _ _) (keeps_of_ne (Ne.symm hkind) _ _)
      (keeps_of_ne (Ne.symm hstates) _ _)

theorem unseen_replaceSome {α : Type} (items : List α) (value : List α → Json) :
    Unseen (replaceSome path items value) := by
  rw [replaceSome]
  split
  · exact unseen_nil
  · exact unseen_replaceAt hpath hkey _

end Fields

theorem unseen_ofApplication (record : Application) : Unseen (ofApplication record) := by
  have hexpression : Unseen (if record.expression.isEmpty then []
      else [replaceAt "/expression" (.string record.expression)]) := by
    split
    · exact unseen_nil
    · exact @unseen_replaceAt "expression" _ (by decide) (by decide) _
  exact hexpression.append (@unseen_replaceSome "behaviourNamespaces" _ (by decide) (by decide) ..)

theorem unseen_ofEntity (record : Entity) : Unseen (ofEntity record) := by
  refine (Unseen.append ?_ ?_).append ?_
  · exact @unseen_replaceSome "entityBehaviours" _ (by decide) (by decide) ..
  · exact @unseen_replaceSome "dataBehaviours" _ (by decide) (by decide) ..
  · exact @unseen_replaceSome "behaviourNamespaces" _ (by decide) (by decide) ..

theorem unseen_ofStates (states : List State) (items : List Json) :
    Unseen (ofStates states 0 items) := by
  refine ⟨_, ofStates_eq states 0 items, fun edit hedit ↦ ?_⟩
  obtain ⟨inner, hinner, rfl⟩ := List.mem_map.mp hedit
  exact keeps_view (keeps_of_ne (by decide) _ _) (keeps_of_ne (by decide) _ _)
    ((allKeep_itemEdits (allKeep_machineEdits states) 0 items inner hinner).under "states")

/-- An unseen patch keeps the view of every document that it applies to. -/
theorem view_of_apply {changes : Patch} (hunseen : Unseen changes) {document result : Json}
    (hresult : apply changes document = .ok result) : view result = view document := by
  obtain ⟨edits, rfl, hedits⟩ := hunseen
  rw [apply_eq_ok_iff] at hresult
  induction edits generalizing document with
  | nil => exact congrArg view (Option.some.inj hresult).symm
  | cons edit rest ih =>
    rw [AllKeep, List.forall_mem_cons] at hedits
    rw [result?_ofEdits_cons, Option.bind_eq_some_iff] at hresult
    obtain ⟨place, hplace, hresult⟩ := hresult
    rw [ih hedits.2 hresult, hedits.1 document place edit.value hplace]

end Patch

end Conform
