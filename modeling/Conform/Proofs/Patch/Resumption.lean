import Conform.Proofs.Patch.View
import Mathlib.Data.List.Pairwise

/-!
Patches that are begun and not finished. The edits for a state machine are all at members of objects
that stand in the document (`Edit.Stands`), and no two of them at one place or one below the other.
Such edits may be carried out in any order and any number of times: after some of them the whole
patch makes what it makes of the document at first (`result?_of_sublist`). Since the makers of
patches see nothing of what these edits change, the patch that is built anew is the same one
(`ofMachine?_resumed`).
-/

set_option autoImplicit false

namespace Conform.Patch

open Json

/-! ### Edits of members that stand in a document -/

/-- The edit sets a member of an object that stands in the document, whether the object has a member
of that name or not. -/
def Edit.Stands (document : Json) (edit : Edit) : Prop :=
  ∃ front name members, edit.location = front ++ [.member name] ∧
    document.at? front = some (.object members)

/-- The document with all values of some edits written, as far as their places exist. -/
def putAll (edits : List Edit) (document : Json) : Json :=
  edits.foldl (fun made edit ↦ made.put edit.location edit.value) document

section Stands

variable {document : Json} {edit : Edit} {edits part : List Edit} {other : Location}

theorem Edit.Stands.below {inner : Json} {front : Location}
    (hinner : document.at? front = some inner) (hstands : edit.Stands inner) :
    (edit.below front).Stands document := by
  obtain ⟨back, name, members, hlocation, hobject⟩ := hstands
  refine ⟨front ++ back, name, members, ?_, ?_⟩
  · rw [Edit.below, hlocation, List.append_assoc]
  · rw [at?_append hinner, hobject]

/-- The pointer of an edit that stands leads to its place, if there is such a member. -/
theorem Edit.Stands.resolve? (hstands : edit.Stands document) :
    Pointer.resolve? document (Pointer.ofLocation edit.location) =
      (document.at? edit.location).map fun _ ↦ edit.location := by
  obtain ⟨front, name, members, hlocation, hobject⟩ := hstands
  have hmember : document.at? (front ++ [.member name]) = member? name members := by
    rw [at?_append hobject, at?_cons]
    exact Option.bind_fun_some (member? name members)
  rw [hlocation, Pointer.resolve?_ofLocation_append hobject, hmember,
    Pointer.resolve?_ofLocation_member]
  cases member? name members <;> rfl

/-- Writing elsewhere, or at the very place, leaves the object where the member is set. -/
theorem Edit.Stands.put (hstands : edit.Stands document)
    (hother : edit.location = other ∨ Apart edit.location other) (new : Json) :
    edit.Stands (document.put other new) := by
  obtain ⟨front, name, members, hlocation, hobject⟩ := hstands
  rw [hlocation] at hother
  suffices hkept : ∃ kept, (document.put other new).at? front = some (.object kept) by
    obtain ⟨kept, hkept⟩ := hkept
    exact ⟨front, name, kept, hlocation, hkept⟩
  clear hlocation
  rcases hother with rfl | hapart
  · rw [put_append hobject, at?_put_self hobject]
    cases hmember : member? name members with
    | none => exact ⟨members, by rw [put_cons_of_none (by exact hmember)]⟩
    | some old => exact ⟨_, by rw [put_cons (by exact hmember)]; rfl⟩
  -- Along the front the writing goes the same way until it parts from it.
  induction front generalizing document other with
  | nil =>
    rw [at?_nil, Option.some.injEq] at hobject
    subst hobject
    cases hapart with
    | fork hne _ rest =>
      rename_i step
      cases hchild : child? (.object members) step with
      | none => exact ⟨members, by rw [put_cons_of_none hchild, at?_nil]⟩
      | some child =>
        rw [put_cons hchild]
        cases step <;> exact ⟨_, rfl⟩
    | along step hrest => cases hrest
  | cons step front ih =>
    rw [at?_cons, Option.bind_eq_some_iff] at hobject
    obtain ⟨child, hchild, hobject⟩ := hobject
    cases hapart with
    | fork hne _ rest =>
      refine ⟨members, ?_⟩
      rw [at?_cons, child?_put_of_ne hne, hchild, Option.bind_some, hobject]
    | along _ hrest =>
      obtain ⟨kept, hkept⟩ := ih hobject hrest
      refine ⟨kept, ?_⟩
      rw [put_cons hchild, at?_cons, child?_setChild_self hchild, Option.bind_some, hkept]

theorem isSome_at?_put (hother : edit.location = other ∨ Apart edit.location other)
    (document new : Json) :
    ((document.put other new).at? edit.location).isSome =
      (document.at? edit.location).isSome := by
  rcases hother with rfl | hapart
  · cases hat : document.at? edit.location with
    | none => rw [put_of_none hat, hat]
    | some inner => rw [at?_put_self hat, Option.isSome_some, Option.isSome_some]
  · rw [at?_put_of_apart hapart]

end Stands

/-! ### Edits apart -/

/-- No two of some edits are at one place or one below the other. -/
def AllApart (edits : List Edit) : Prop :=
  edits.Pairwise fun edit other ↦ Apart edit.location other.location

section Resumed

variable {document : Json} {edits part : List Edit}

theorem putAll_cons (edit : Edit) (rest : List Edit) (document : Json) :
    putAll (edit :: rest) document = putAll rest (document.put edit.location edit.value) := rfl

theorem putAll_put {location : Location} (hapart : ∀ edit ∈ edits, Apart location edit.location)
    (document new : Json) :
    putAll edits (document.put location new) = (putAll edits document).put location new := by
  induction edits generalizing document with
  | nil => rfl
  | cons edit rest ih =>
    rw [List.forall_mem_cons] at hapart
    rw [putAll_cons, putAll_cons, put_comm hapart.1, ih hapart.2]

/-- Edits apart, written after some of them, make what they make by themselves. -/
theorem putAll_sublist (hapart : AllApart edits) (hpart : part.Sublist edits) (document : Json) :
    putAll edits (putAll part document) = putAll edits document := by
  induction hpart generalizing document with
  | slnil => rfl
  | cons edit hrest ih =>
    obtain ⟨hedit, hrests⟩ := List.pairwise_cons.mp hapart
    rw [putAll_cons, putAll_cons, ← putAll_put fun other hother ↦ hedit other (hrest.subset hother),
      ih hrests]
  | cons_cons edit hrest ih =>
    obtain ⟨hedit, hrests⟩ := List.pairwise_cons.mp hapart
    rw [putAll_cons, putAll_cons, putAll_cons,
      ← putAll_put fun other hother ↦ hedit other (hrest.subset hother), put_put, ih hrests]

/-- What is kept of all places of some edits when other of these edits are written. -/
theorem putAll_keeps (kept : Json → Edit → Prop)
    (hput : ∀ edit other : Edit, edit.location = other.location ∨
      Apart edit.location other.location → ∀ document, kept document edit →
        kept (document.put other.location other.value) edit)
    (hapart : AllApart edits) (hpart : part ⊆ edits)
    (hkept : ∀ edit ∈ edits, kept document edit) :
    ∀ edit ∈ edits, kept (putAll part document) edit := by
  induction part generalizing document with
  | nil => exact hkept
  | cons other rest ih =>
    rw [List.cons_subset] at hpart
    refine ih hpart.2 fun edit hedit ↦ hput edit other ?_ document (hkept edit hedit)
    by_cases hsame : edit = other
    · exact .inl (congrArg Edit.location hsame)
    · have hsymm : Std.Symm fun edit other : Edit ↦ Apart edit.location other.location :=
        ⟨fun _ _ h ↦ h.symm⟩
      exact .inr (hapart.forall hedit hpart.1 hsame)

/-- Edits apart that stand in a document apply exactly if all their places exist, and all their
values are written then. -/
theorem result?_eq_some_iff (hapart : AllApart edits)
    (hstands : ∀ edit ∈ edits, edit.Stands document) (result : Json) :
    result? (ofEdits edits) document = some result ↔
      (∀ edit ∈ edits, (document.at? edit.location).isSome) ∧ result = putAll edits document := by
  induction edits generalizing document with
  | nil => simpa [ofEdits, putAll] using result?_nil_eq_some_iff
  | cons edit rest ih =>
    obtain ⟨hedit, hrest⟩ := List.pairwise_cons.mp hapart
    rw [List.forall_mem_cons] at hstands
    rw [result?_ofEdits_cons, hstands.1.resolve?, List.forall_mem_cons, putAll_cons]
    cases hat : document.at? edit.location with
    | none => simp
    | some inner =>
      have hothers : ∀ other ∈ rest, other.Stands (document.put edit.location edit.value) :=
        fun other hother ↦ (hstands.2 other hother).put (.inr (hedit other hother).symm) edit.value
      have hplaces : (∀ other ∈ rest,
          ((document.put edit.location edit.value).at? other.location).isSome) ↔
            ∀ other ∈ rest, (document.at? other.location).isSome :=
        forall₂_congr fun other hother ↦ by
          rw [isSome_at?_put (.inr (hedit other hother).symm)]
      rw [Option.map_some, Option.bind_some, ih hrest hothers, hplaces]
      simp

/-- Edits apart that stand in a document make the same of it after some of them. -/
theorem result?_of_sublist (hapart : AllApart edits)
    (hstands : ∀ edit ∈ edits, edit.Stands document) (hpart : part.Sublist edits) {result : Json}
    (hresult : result? (ofEdits part) document = some result) :
    result? (ofEdits edits) result = result? (ofEdits edits) document := by
  have hparts : ∀ edit ∈ part, edit.Stands document := fun edit hedit ↦
    hstands edit (hpart.subset hedit)
  obtain ⟨-, rfl⟩ := (result?_eq_some_iff (hapart.sublist hpart) hparts result).mp hresult
  have hkept := putAll_keeps (fun made edit ↦ edit.Stands made)
    (fun _ other hother _ hedit ↦ hedit.put hother other.value) hapart hpart.subset hstands
  have hplaces : ∀ edit ∈ edits, ((putAll part document).at? edit.location).isSome =
      (document.at? edit.location).isSome :=
    putAll_keeps (fun made edit ↦
        (made.at? edit.location).isSome = (document.at? edit.location).isSome)
      (fun _ other hother made hmade ↦ (isSome_at?_put hother made other.value).trans hmade)
      hapart hpart.subset fun _ _ ↦ rfl
  ext final
  rw [result?_eq_some_iff hapart hkept, result?_eq_some_iff hapart hstands,
    putAll_sublist hapart hpart, forall₂_congr fun edit hedit ↦ by rw [hplaces edit hedit]]

/-- Edits apart that stand in a document, carried out on what they have made of it, change nothing. -/
theorem apply_ofEdits_again (hapart : AllApart edits)
    (hstands : ∀ edit ∈ edits, edit.Stands document) {result : Json}
    (hresult : apply (ofEdits edits) document = .ok result) :
    apply (ofEdits edits) result = .ok result := by
  rw [apply_eq_ok_iff] at hresult ⊢
  rw [result?_of_sublist hapart hstands (List.Sublist.refl _) hresult, hresult]

end Resumed

/-! ### The edits for a state machine -/

theorem AllApart.below {edits : List Edit} (hapart : AllApart edits) (front : Location) :
    AllApart (edits.map (Edit.below front)) :=
  List.pairwise_map.mpr (hapart.imp fun h ↦ h.append front)

/-- Edits of items lie at the positions of the items. -/
theorem exists_position_of_mem_itemEdits {edits : Json → List Edit} {position : Nat}
    {items : List Json} {edit : Edit} (hedit : edit ∈ itemEdits edits position items) :
    ∃ found rest, position ≤ found ∧ edit.location = .item found :: rest := by
  induction items generalizing position with
  | nil => exact absurd hedit List.not_mem_nil
  | cons item others ih =>
    rw [itemEdits, List.mem_append, List.mem_map] at hedit
    rcases hedit with ⟨inner, -, rfl⟩ | hrest
    · exact ⟨position, inner.location, Nat.le_refl _, rfl⟩
    · obtain ⟨found, rest, hfound, hlocation⟩ := ih hrest
      exact ⟨found, rest, Nat.le_of_succ_le hfound, hlocation⟩

theorem allApart_itemEdits {edits : Json → List Edit} (hedits : ∀ item, AllApart (edits item))
    (position : Nat) (items : List Json) : AllApart (itemEdits edits position items) := by
  induction items generalizing position with
  | nil => exact List.Pairwise.nil
  | cons item rest ih =>
    refine List.pairwise_append.mpr ⟨(hedits item).below _, ih (position + 1), ?_⟩
    intro edit hedit other hother
    obtain ⟨inner, -, rfl⟩ := List.mem_map.mp hedit
    obtain ⟨found, below, hfound, hlocation⟩ := exists_position_of_mem_itemEdits hother
    have hne : Step.item position ≠ .item found := fun h ↦ by
      injection h
      omega
    rw [hlocation]
    exact .fork hne inner.location below

theorem stands_itemEdits {edits : Json → List Edit}
    (hedits : ∀ item, ∀ edit ∈ edits item, edit.Stands item) (front items : List Json) :
    ∀ edit ∈ itemEdits edits front.length items, edit.Stands (.array (front ++ items)) := by
  induction items generalizing front with
  | nil => exact List.forall_mem_nil _
  | cons item rest ih =>
    intro edit hedit
    rw [itemEdits, List.mem_append, List.mem_map] at hedit
    rcases hedit with ⟨inner, hinner, rfl⟩ | hrest
    · refine (hedits item inner hinner).below ?_
      simp [at?_cons, child?]
    · have hbehind := ih (front ++ [item])
      rw [List.length_append, List.length_singleton, List.append_assoc] at hbehind
      exact hbehind edit hrest

/-- The edits of the items of the array under a name stand in a document that has such an array. -/
theorem stands_itemsUnder {edits : Json → List Edit}
    (hedits : ∀ item, ∀ edit ∈ edits item, edit.Stands item) (name : String) (document : Json) :
    ∀ edit ∈ (itemEdits edits 0 ((Document.items? document name).getD [])).map
      (Edit.below [.member name]), edit.Stands document := by
  intro edit hedit
  obtain ⟨inner, hinner, rfl⟩ := List.mem_map.mp hedit
  cases hitems : Document.items? document name with
  | none =>
    rw [hitems] at hinner
    exact absurd hinner List.not_mem_nil
  | some items =>
    rw [hitems, Option.getD_some] at hinner
    exact (stands_itemEdits hedits [] items inner hinner).below
      (at?_member (get?_eq_array_of_items? hitems))

theorem stands_member (name : String) (value : Json) (members : List (String × Json)) :
    Edit.Stands (.object members) ⟨[.member name], value⟩ :=
  ⟨[], name, members, rfl, rfl⟩

theorem allApart_transitionEdits (state : State) (found : Json) :
    AllApart (transitionEdits state found) := by
  rw [transitionEdits]
  split
  · exact List.pairwise_singleton _ _
  · exact List.Pairwise.nil

theorem stands_transitionEdits (state : State) (found : Json) :
    ∀ edit ∈ transitionEdits state found, edit.Stands found := by
  rw [transitionEdits]
  split
  case h_1 hmatch =>
    obtain ⟨name, hname, -⟩ := Option.bind_eq_some_iff.mp hmatch
    obtain ⟨members, rfl⟩ := exists_object_of_name? hname
    exact List.forall_mem_singleton.mpr (stands_member _ _ members)
  case h_2 => exact List.forall_mem_nil _

theorem mem_behaviourEdits {state : State} {edit : Edit} (hedit : edit ∈ behaviourEdits state) :
    edit = ⟨[.member "behaviours"], .ofStrings state.behaviours⟩ := by
  rw [behaviourEdits] at hedit
  split at hedit
  · exact absurd hedit List.not_mem_nil
  · exact List.mem_singleton.mp hedit

theorem allApart_stateEdits (state : State) (found : Json) : AllApart (stateEdits state found) := by
  have hassign : Step.member "assignToExpression" ≠ .member "behaviours" ∧
      Step.member "assignToExpression" ≠ .member "transitions" := by decide
  have hlisted : Step.member "behaviours" ≠ .member "transitions" := by decide
  have hbehaviours : AllApart (behaviourEdits state) := by
    rw [behaviourEdits]
    split
    · exact List.Pairwise.nil
    · exact List.pairwise_singleton _ _
  refine List.pairwise_append.mpr ⟨List.pairwise_singleton _ _, List.pairwise_append.mpr
    ⟨hbehaviours, (allApart_itemEdits (allApart_transitionEdits state) _ _).below _, ?_⟩, ?_⟩
  · intro edit hedit other hother
    obtain ⟨inner, -, rfl⟩ := List.mem_map.mp hother
    rw [mem_behaviourEdits hedit]
    exact .fork hlisted _ _
  · intro edit hedit other hother
    rw [List.mem_singleton.mp hedit]
    rcases List.mem_append.mp hother with hother | hother
    · rw [mem_behaviourEdits hother]
      exact .fork hassign.1 _ _
    · obtain ⟨inner, -, rfl⟩ := List.mem_map.mp hother
      exact .fork hassign.2 _ _

theorem stands_stateEdits (state : State) (members : List (String × Json)) :
    ∀ edit ∈ stateEdits state (.object members), edit.Stands (.object members) := by
  intro edit hedit
  rw [stateEdits, List.mem_append, List.mem_append, List.mem_singleton] at hedit
  rcases hedit with rfl | hlisted | hinner
  · exact stands_member _ _ members
  · rw [mem_behaviourEdits hlisted]
    exact stands_member _ _ members
  · exact stands_itemsUnder (stands_transitionEdits state) "transitions" _ edit hinner

theorem allApart_machineEdits (states : List State) (found : Json) :
    AllApart (machineEdits states found) := by
  rw [machineEdits]
  split
  · exact allApart_stateEdits _ found
  · exact List.Pairwise.nil

theorem stands_machineEdits (states : List State) (found : Json) :
    ∀ edit ∈ machineEdits states found, edit.Stands found := by
  rw [machineEdits, match?]
  split
  case h_1 hmatch =>
    obtain ⟨name, hname, -⟩ := Option.bind_eq_some_iff.mp hmatch
    obtain ⟨members, rfl⟩ := exists_object_of_name? hname
    exact stands_stateEdits _ members
  case h_2 => exact List.forall_mem_nil _

/-! ### Patches built anew -/

/-- Assumes: a patch for a state machine. It carries out edits apart that stand in the document. -/
theorem exists_edits_of_ofMachine? {states : List State} {document : Json} {changes : Patch}
    (hchanges : ofMachine? states document = some changes) :
    ∃ edits, changes = ofEdits edits ∧ AllApart edits ∧ ∀ edit ∈ edits, edit.Stands document := by
  rw [ofMachine?, Option.map_eq_some_iff] at hchanges
  obtain ⟨items, hitems, rfl⟩ := hchanges
  have hstands := stands_itemsUnder (stands_machineEdits states) "states" document
  rw [hitems, Option.getD_some] at hstands
  exact ⟨_, ofStates_eq states 0 items,
    (allApart_itemEdits (allApart_machineEdits states) 0 items).below _, hstands⟩

theorem Unseen.sublist {changes part : Patch} (hunseen : Unseen changes)
    (hpart : part.Sublist changes) : Unseen part := by
  obtain ⟨edits, rfl, hedits⟩ := hunseen
  obtain ⟨chosen, hchosen, rfl⟩ := List.sublist_map_iff.mp hpart
  exact ⟨chosen, rfl, fun edit hedit ↦ hedits edit (hchosen.subset hedit)⟩

theorem unseen_ofMachine? {states : List State} {document : Json} {changes : Patch}
    (hchanges : ofMachine? states document = some changes) : Unseen changes := by
  rw [ofMachine?, Option.map_eq_some_iff] at hchanges
  obtain ⟨items, -, rfl⟩ := hchanges
  exact unseen_ofStates states items

/-- Assumes: some of the operations of a patch for a state machine, in order, that apply to the
document. Every patch for the state machine that is then built anew is the patch for the document at
first; the patch begun goes on to what it makes of the document at first; and once it is finished it
may be built and carried out again without any change. -/
theorem ofMachine?_resumed {states : List State} {document result : Json} {changes part : Patch}
    (hchanges : ofMachine? states document = some changes) (hpart : part.Sublist changes)
    (hresult : apply part document = .ok result) :
    (∀ others, ofMachine? others result = ofMachine? others document) ∧
      (∀ final, apply changes result = .ok final ↔ apply changes document = .ok final) ∧
      ∀ final, apply changes document = .ok final →
        ofMachine? states final = some changes ∧ apply changes final = .ok final := by
  have hunseen := unseen_ofMachine? hchanges
  obtain ⟨edits, rfl, hapart, hstands⟩ := exists_edits_of_ofMachine? hchanges
  -- The edits are the same however many of them have been carried out, all of them included.
  have hagain : ∀ {part : Patch} {result : Json}, part.Sublist (ofEdits edits) →
      apply part document = .ok result →
        result? (ofEdits edits) result = result? (ofEdits edits) document := by
    intro part result hpart hresult
    obtain ⟨chosen, hchosen, rfl⟩ := List.sublist_map_iff.mp hpart
    exact result?_of_sublist hapart hstands hchosen (apply_eq_ok_iff.mp hresult)
  refine ⟨fun others ↦ ?_, fun final ↦ ?_, fun final hfinal ↦ ⟨?_, ?_⟩⟩
  · exact ofMachine?_congr others (view_of_apply (hunseen.sublist hpart) hresult)
  · rw [apply_eq_ok_iff, apply_eq_ok_iff, hagain hpart hresult]
  · rw [ofMachine?_congr states (view_of_apply hunseen hfinal), hchanges]
  · rw [apply_eq_ok_iff, hagain (List.Sublist.refl _) hfinal]
    exact apply_eq_ok_iff.mp hfinal

/-- Of the patch for two drafts of one name only the second and the last operation are carried out
before it is built anew, for other local states too. -/
theorem ofMachine?_resumed_draft :
    let part := [replaceAt "/states/1/behaviours" (.array [.string "Notify"]),
      replaceAt "/states/2/transitions/1/expression" (.string "return;")]
    ∃ changes result, ofMachine? draftStates draftMachine = some changes ∧
      part.Sublist changes ∧ apply part draftMachine = .ok result ∧
      ofMachine? draftStates result = some changes ∧
      ofMachine? draftStates.tail result = ofMachine? draftStates.tail draftMachine ∧
      apply changes result = .ok (alignMachine draftStates draftMachine) ∧
      apply changes (alignMachine draftStates draftMachine) =
        .ok (alignMachine draftStates draftMachine) := by
  intro part
  have hpart : part.Sublist (ofStates draftStates 0
      ((Document.items? draftMachine "states").getD [])) :=
    .cons _ (.cons_cons _ (.cons _ (.cons _ (.cons_cons _ .slnil))))
  have hresumed := @ofMachine?_resumed draftStates draftMachine _ _ part rfl hpart rfl
  exact ⟨_, _, rfl, hpart, rfl, hresumed.1 _, hresumed.1 _, (hresumed.2.1 _).mpr rfl,
    (hresumed.2.2 _ rfl).2⟩

end Conform.Patch
