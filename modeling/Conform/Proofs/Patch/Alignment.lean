import Conform.Patch.Build
import Conform.Proofs.Json.Mapping
import Conform.Proofs.Patch.Edit

/-!
What the patch for a state machine does to the document it was built from. The patch goes by
positions, and the document changes under it while it is carried out; the alignment of a document
says the same by names, in one pass: each state that a local state has the name of takes over its
expression, its behaviours if there are any, and the expressions of its transitions, and all else
stays where and what it was (`alignMachine`). The patch applies exactly if the document has every
field that the alignment changes (`HasFields`), and then its result is the alignment
(`apply_ofMachine?`).
-/

set_option autoImplicit false

namespace Conform.Patch

open Json

/-! ### The alignment of a document -/

/-- A transition of a document, with the expression of the local transition of its name. -/
def alignTransition (state : State) (found : Json) : Json :=
  match (Document.name? found).bind state.transition? with
  | some transition => found.mapUnder "expression" fun _ ↦ .string transition.expression
  | none => found

/-- A state of a document, with what a local state says about it. -/
def alignState (state : State) (found : Json) : Json :=
  let assigned := found.mapUnder "assignToExpression" fun _ ↦ .string state.assignTo
  let listed :=
    if state.behaviours = [] then assigned
    else assigned.mapUnder "behaviours" fun _ ↦ .ofStrings state.behaviours
  listed.mapUnder "transitions" (mapItems (alignTransition state))

/-- A document, with what local states say about its states. -/
def alignMachine (states : List State) (document : Json) : Json :=
  document.mapUnder "states" <| mapItems fun found ↦
    match (Document.name? found).bind fun name ↦ states.find? (·.name = name) with
    | some state => alignState state found
    | none => found

/-- A transition that a local state has the name of has an expression. -/
def HasTransitionFields (state : State) (found : Json) : Prop :=
  ∀ name transition, Document.name? found = some name → state.transition? name = some transition →
    (found.get? "expression").isSome

/-- A state has the fields that a local state says something about. -/
def HasStateFields (state : State) (found : Json) : Prop :=
  (found.get? "assignToExpression").isSome ∧
    (state.behaviours ≠ [] → (found.get? "behaviours").isSome) ∧
    ∀ transitions, Document.items? found "transitions" = some transitions →
      ∀ inner ∈ transitions, HasTransitionFields state inner

/-- Every state that a local state has the name of has the fields that the first local state of that
name says something about. -/
def HasFields (states : List State) (document : Json) : Prop :=
  ∀ items, Document.items? document "states" = some items → ∀ found ∈ items, ∀ name state,
    Document.name? found = some name → states.find? (·.name = name) = some state →
      HasStateFields state found

/-! ### The edits behind a patch -/

def transitionEdits (state : State) (found : Json) : List Edit :=
  match (Document.name? found).bind state.transition? with
  | some transition => [⟨[.member "expression"], .string transition.expression⟩]
  | none => []

def behaviourEdits (state : State) : List Edit :=
  if state.behaviours.isEmpty then []
  else [⟨[.member "behaviours"], .ofStrings state.behaviours⟩]

def stateEdits (state : State) (found : Json) : List Edit :=
  [⟨[.member "assignToExpression"], .string state.assignTo⟩] ++ (behaviourEdits state ++
    (itemEdits (transitionEdits state) 0
      ((Document.items? found "transitions").getD [])).map (Edit.below [.member "transitions"]))

def machineEdits (states : List State) (found : Json) : List Edit :=
  match match? states found with
  | some state => stateEdits state found
  | none => []

theorem ofLocation_item (position : Nat) :
    Pointer.ofLocation [.item position] = "/" ++ position.repr := by
  rw [Nat.repr_eq_ofList_toDigits, Pointer.ofLocation, List.flatMap_cons, List.flatMap_nil,
    List.append_nil]
  exact @String.ofList_append ['/'] _

theorem pointer_transition (front : Location) (position : Nat) :
    Pointer.ofLocation front ++ "/transitions/" ++ position.repr ++ "/expression" =
      Pointer.ofLocation
        (front ++ [.member "transitions"] ++ [.item position] ++ [.member "expression"]) := by
  have htransitions : Pointer.ofLocation [.member "transitions"] = "/transitions" := by decide
  have hexpression : Pointer.ofLocation [.member "expression"] = "/expression" := by decide
  have hsplit : "/transitions/" = "/transitions" ++ "/" := by decide
  rw [Pointer.ofLocation_append, Pointer.ofLocation_append, Pointer.ofLocation_append,
    ofLocation_item, htransitions, hexpression, hsplit]
  simp only [String.append_assoc]

theorem pointer_state (position : Nat) :
    "/states/" ++ position.repr = Pointer.ofLocation ([.member "states"] ++ [.item position]) := by
  have hstates : Pointer.ofLocation [.member "states"] = "/states" := by decide
  have hsplit : "/states/" = "/states" ++ "/" := by decide
  rw [Pointer.ofLocation_append, ofLocation_item, hstates, hsplit, String.append_assoc]

theorem ofTransitions_eq (state : State) (front : Location) (position : Nat) (items : List Json) :
    ofTransitions state (Pointer.ofLocation front) position items =
      ofEdits ((itemEdits (transitionEdits state) position items).map
        (Edit.below (front ++ [.member "transitions"]))) := by
  induction items generalizing position with
  | nil => rfl
  | cons found rest ih =>
    rw [ofTransitions, itemEdits, List.map_append, ofEdits_append, ih, transitionEdits]
    congr 1
    cases (Document.name? found).bind state.transition? with
    | none => rfl
    | some transition =>
      simp only [pointer_transition, ofEdits, List.map_cons, List.map_nil, Edit.below,
        Edit.operation, List.append_assoc]

theorem transitionEdits_of_nil {state : State} (hnil : state.transitions = []) (found : Json) :
    transitionEdits state found = [] := by
  rw [transitionEdits]
  cases Document.name? found <;> simp [State.transition?, hnil]

theorem ofState_eq (state : State) (front : Location) (found : Json) :
    ofState state (Pointer.ofLocation front) found =
      ofEdits ((stateEdits state found).map (Edit.below front)) := by
  have hassign : Pointer.ofLocation [.member "assignToExpression"] = "/assignToExpression" := by
    decide
  have hbehaviours : Pointer.ofLocation [.member "behaviours"] = "/behaviours" := by decide
  have hlisted : replaceSome (Pointer.ofLocation front ++ "/behaviours") state.behaviours
      Json.ofStrings = ofEdits ((behaviourEdits state).map (Edit.below front)) := by
    rw [replaceSome, behaviourEdits, ← hbehaviours, ← Pointer.ofLocation_append]
    split <;> rfl
  have htransitions : (if state.transitions.isEmpty then []
      else ofTransitions state (Pointer.ofLocation front) 0
        ((Document.items? found "transitions").getD [])) =
      ofEdits (((itemEdits (transitionEdits state) 0
        ((Document.items? found "transitions").getD [])).map
          (Edit.below [.member "transitions"])).map (Edit.below front)) := by
    split_ifs with hempty
    · rw [itemEdits_of_nil (transitionEdits_of_nil (List.isEmpty_iff.mp hempty))]
      rfl
    · rw [ofTransitions_eq, Edit.map_below_below]
  rw [ofState, stateEdits, hlisted, htransitions, ← hassign, ← Pointer.ofLocation_append,
    List.map_append, List.map_append, ofEdits_append, ofEdits_append]
  rfl

theorem ofStates_eq (states : List State) (position : Nat) (items : List Json) :
    ofStates states position items =
      ofEdits ((itemEdits (machineEdits states) position items).map
        (Edit.below [.member "states"])) := by
  induction items generalizing position with
  | nil => rfl
  | cons found rest ih =>
    rw [ofStates, itemEdits, List.map_append, ofEdits_append, ih, machineEdits]
    congr 1
    cases match? states found with
    | none => rfl
    | some state =>
      simp only [pointer_state, ofState_eq, Edit.map_below_below]

/-! ### Results of the edits -/

theorem result?_member_eq_some_iff {members : List (String × Json)} {name : String}
    {value result : Json} :
    result? (ofEdits [⟨[.member name], value⟩]) (.object members) = some result ↔
      ((Json.object members).get? name).isSome ∧
        result = (Json.object members).mapUnder name fun _ ↦ value := by
  rw [result?_member, get?, mapUnder]
  cases hmember : member? name members with
  | none => simp
  | some old => simp [mapMember_of_member? hmember, eq_comm]

section Items

variable {edits : Json → List Edit} {fits : Json → Prop} {align : Json → Json}

/-- Assumes: the edits of every item apply exactly if the item fits, and align it then. The edits of
all items of an array apply exactly if all of them fit, and align each then. -/
theorem result?_itemEdits_eq_some_iff
    (hitem : ∀ item result, result? (ofEdits (edits item)) item = some result ↔
      fits item ∧ result = align item) (items : List Json) (result : Json) :
    result? (ofEdits (itemEdits edits 0 items)) (.array items) = some result ↔
      (∀ item ∈ items, fits item) ∧ result = .array (items.map align) := by
  have hall : ∀ results, (items.mapM fun item ↦ result? (ofEdits (edits item)) item) =
      some results ↔ (∀ item ∈ items, fits item) ∧ results = items.map align := by
    induction items with
    | nil => intro results; simp [eq_comm]
    | cons item rest ih =>
      intro results
      simp only [List.mapM_cons, Option.bind_eq_bind, Option.bind_eq_some_iff, hitem, ih,
        List.forall_mem_cons, List.map_cons]
      constructor
      · rintro ⟨_, ⟨hfits, rfl⟩, _, ⟨hrest, rfl⟩, hresults⟩
        exact ⟨⟨hfits, hrest⟩, (Option.some.inj hresults).symm⟩
      · rintro ⟨⟨hfits, hrest⟩, rfl⟩
        exact ⟨_, ⟨hfits, rfl⟩, _, ⟨hrest, rfl⟩, rfl⟩
  rw [result?_itemEdits, Option.map_eq_some_iff]
  constructor
  · rintro ⟨results, hresults, rfl⟩
    obtain ⟨hfits, rfl⟩ := (hall results).mp hresults
    exact ⟨hfits, rfl⟩
  · rintro ⟨hfits, rfl⟩
    exact ⟨_, (hall _).mpr ⟨hfits, rfl⟩, rfl⟩

/-- The same for the array under a name of a document; without such an array nothing changes. -/
theorem result?_itemsUnder_eq_some_iff
    (hitem : ∀ item result, result? (ofEdits (edits item)) item = some result ↔
      fits item ∧ result = align item) (name : String) (document result : Json) :
    result? (ofEdits ((itemEdits edits 0 ((Document.items? document name).getD [])).map
        (Edit.below [.member name]))) document = some result ↔
      (∀ items, Document.items? document name = some items → ∀ item ∈ items, fits item) ∧
        result = document.mapUnder name (mapItems align) := by
  cases hitems : Document.items? document name with
  | none =>
    rw [mapUnder_mapItems_of_none hitems]
    simp [itemEdits, ofEdits, result?_nil_eq_some_iff]
  | some items =>
    have harray := get?_eq_array_of_items? hitems
    rw [Option.getD_some, result?_below (at?_member harray), Option.map_eq_some_iff,
      mapUnder_eq_put harray]
    simp only [result?_itemEdits_eq_some_iff hitem, Option.some.injEq, forall_eq', mapItems]
    constructor
    · rintro ⟨_, ⟨hfits, rfl⟩, rfl⟩
      exact ⟨hfits, rfl⟩
    · rintro ⟨hfits, rfl⟩
      exact ⟨_, ⟨hfits, rfl⟩, rfl⟩

end Items

theorem result?_transitionEdits_eq_some_iff (state : State) (found result : Json) :
    result? (ofEdits (transitionEdits state found)) found = some result ↔
      HasTransitionFields state found ∧ result = alignTransition state found := by
  rw [transitionEdits, alignTransition]
  cases hmatch : (Document.name? found).bind state.transition? with
  | none =>
    have hfields : HasTransitionFields state found := by
      intro name transition hname htransition
      rw [hname, Option.bind_some, htransition] at hmatch
      contradiction
    rw [and_iff_right hfields]
    exact result?_nil_eq_some_iff
  | some transition =>
    obtain ⟨name, hname, htransition⟩ := Option.bind_eq_some_iff.mp hmatch
    obtain ⟨members, rfl⟩ := exists_object_of_name? hname
    have hfields : HasTransitionFields state (.object members) ↔
        ((Json.object members).get? "expression").isSome := by
      constructor
      · intro hfields
        exact hfields name transition hname htransition
      · intro hexpression _ _ _ _
        exact hexpression
    rw [hfields]
    exact result?_member_eq_some_iff

theorem result?_behaviourEdits_eq_some_iff (state : State) (members : List (String × Json))
    (result : Json) :
    result? (ofEdits (behaviourEdits state)) (.object members) = some result ↔
      (state.behaviours ≠ [] → ((Json.object members).get? "behaviours").isSome) ∧
        result = if state.behaviours = [] then .object members
          else (Json.object members).mapUnder "behaviours" fun _ ↦ .ofStrings state.behaviours := by
  rw [behaviourEdits]
  by_cases hempty : state.behaviours = []
  · rw [hempty, if_pos List.isEmpty_nil, if_pos rfl, and_iff_right (fun h ↦ absurd rfl h)]
    exact result?_nil_eq_some_iff
  · rw [if_neg (by simpa using hempty), if_neg hempty, result?_member_eq_some_iff]
    simp [hempty]

/-- The edits of a state apply one after the other, and none of them touches what a later one
looks at. -/
theorem result?_stateEdits_eq_some_iff (state : State) (members : List (String × Json))
    (result : Json) :
    result? (ofEdits (stateEdits state (.object members))) (.object members) = some result ↔
      HasStateFields state (.object members) ∧ result = alignState state (.object members) := by
  let assigned := mapMember "assignToExpression" (fun _ ↦ .string state.assignTo) members
  let listed := if state.behaviours = [] then Json.object assigned
    else (Json.object assigned).mapUnder "behaviours" fun _ ↦ .ofStrings state.behaviours
  have hbehaviours : (Json.object assigned).get? "behaviours" =
      (Json.object members).get? "behaviours" := member?_mapMember_of_ne (by decide) _ members
  have htransitions : Document.items? listed "transitions" =
      Document.items? (.object members) "transitions" := by
    have hassigned : Document.items? (.object assigned) "transitions" =
        Document.items? (.object members) "transitions" :=
      items?_mapUnder_of_ne (by decide) _ (.object members)
    rw [← hassigned]
    by_cases hempty : state.behaviours = []
    · exact congrArg (Document.items? · "transitions") (if_pos hempty)
    · exact (congrArg (Document.items? · "transitions") (if_neg hempty)).trans
        (items?_mapUnder_of_ne (by decide) _ _)
  rw [stateEdits, ofEdits_append, ofEdits_append, result?_append, Option.bind_eq_some_iff,
    HasStateFields, ← htransitions, ← hbehaviours]
  simp only [result?_member_eq_some_iff, result?_append, Option.bind_eq_some_iff]
  constructor
  · rintro ⟨_, ⟨hassign, rfl⟩, _, hlisted, hresult⟩
    obtain ⟨hlist, rfl⟩ := (result?_behaviourEdits_eq_some_iff state assigned _).mp hlisted
    obtain ⟨hinner, rfl⟩ := (result?_itemsUnder_eq_some_iff
      (result?_transitionEdits_eq_some_iff state) "transitions" listed _).mp hresult
    exact ⟨⟨hassign, hlist, hinner⟩, rfl⟩
  · rintro ⟨⟨hassign, hlist, hinner⟩, rfl⟩
    exact ⟨_, ⟨hassign, rfl⟩, listed,
      (result?_behaviourEdits_eq_some_iff state assigned _).mpr ⟨hlist, rfl⟩,
      (result?_itemsUnder_eq_some_iff (result?_transitionEdits_eq_some_iff state) "transitions"
        listed _).mpr ⟨hinner, rfl⟩⟩

theorem result?_machineEdits_eq_some_iff (states : List State) (found result : Json) :
    result? (ofEdits (machineEdits states found)) found = some result ↔
      (∀ name state, Document.name? found = some name →
        states.find? (·.name = name) = some state → HasStateFields state found) ∧
      result = match (Document.name? found).bind fun name ↦ states.find? (·.name = name) with
        | some state => alignState state found
        | none => found := by
  rw [machineEdits, match?]
  cases hmatch : (Document.name? found).bind fun name ↦ states.find? (·.name = name) with
  | none =>
    have hfields : ∀ name state, Document.name? found = some name →
        states.find? (·.name = name) = some state → HasStateFields state found := by
      intro name state hname hstate
      rw [hname, Option.bind_some, hstate] at hmatch
      contradiction
    rw [and_iff_right hfields]
    exact result?_nil_eq_some_iff
  | some state =>
    obtain ⟨name, hname, hstate⟩ := Option.bind_eq_some_iff.mp hmatch
    obtain ⟨members, rfl⟩ := exists_object_of_name? hname
    rw [result?_stateEdits_eq_some_iff]
    refine and_congr_left fun _ ↦ ?_
    constructor
    · intro hfields other _ hother hfound
      rw [hother, Option.bind_some, hfound, Option.some.injEq] at hmatch
      rwa [hmatch]
    · intro hfields
      exact hfields name state hname hstate

/-! ### The patch -/

theorem result?_ofMachine?_eq_some_iff {states : List State} {document : Json} {changes : Patch}
    (hchanges : ofMachine? states document = some changes) (result : Json) :
    result? changes document = some result ↔
      HasFields states document ∧ result = alignMachine states document := by
  rw [ofMachine?, Option.map_eq_some_iff] at hchanges
  obtain ⟨items, hitems, rfl⟩ := hchanges
  have hunder := result?_itemsUnder_eq_some_iff (result?_machineEdits_eq_some_iff states) "states"
    document result
  rw [hitems, Option.getD_some, ← ofStates_eq, ← hitems] at hunder
  exact hunder

/-- The patch for a state machine applies to the document it was built from exactly if that has
every field addressed, and makes the alignment of the document then. -/
theorem apply_ofMachine? {states : List State} {document : Json} {changes : Patch}
    (hchanges : ofMachine? states document = some changes) :
    ((∃ result, apply changes document = .ok result) ↔ HasFields states document) ∧
      ∀ result, apply changes document = .ok result → result = alignMachine states document := by
  simp only [apply_eq_ok_iff, result?_ofMachine?_eq_some_iff hchanges]
  constructor
  · constructor
    · rintro ⟨_, hfields, _⟩
      exact hfields
    · intro hfields
      exact ⟨_, hfields, rfl⟩
  · rintro _ ⟨_, hresult⟩
    exact hresult

/-- Two local states of one name, of which the first counts. -/
def draftStates : List State :=
  [⟨"Draft", "owner", ["Notify"], [⟨"close", "return;"⟩, ⟨"close", "go();"⟩]⟩,
    ⟨"Draft", "", [], []⟩]

/-- A machine whose first state has no name, and whose others share one. -/
def draftMachine : Json :=
  .object [("states", .array [
    .null,
    .object [("name", .string "Draft"), ("assignToExpression", .string ""), ("behaviours", .null)],
    .object [("name", .string "Draft"), ("assignToExpression", .null), ("behaviours", .array []),
      ("transitions", .array [
        .null, .object [("expression", .null), ("name", .string "close")]])]])]

/-- Both drafts take over what the first local state says, in the place where they stand. -/
theorem apply_ofMachine?_draft :
    ofMachine? draftStates draftMachine = some [
      replaceAt "/states/1/assignToExpression" (.string "owner"),
      replaceAt "/states/1/behaviours" (.array [.string "Notify"]),
      replaceAt "/states/2/assignToExpression" (.string "owner"),
      replaceAt "/states/2/behaviours" (.array [.string "Notify"]),
      replaceAt "/states/2/transitions/1/expression" (.string "return;")] ∧
    ∃ changes, ofMachine? draftStates draftMachine = some changes ∧
      apply changes draftMachine = .ok (alignMachine draftStates draftMachine) ∧
      HasFields draftStates draftMachine := by
  have happly := @apply_ofMachine? draftStates draftMachine _ rfl
  exact ⟨rfl, _, rfl, rfl, happly.1.mp ⟨_, rfl⟩⟩

end Conform.Patch
