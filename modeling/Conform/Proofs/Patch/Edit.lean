import Conform.Patch.Apply
import Conform.Proofs.Json.Pointer

/-!
Patches as edits of locations. A patch that replaces values by the pointers of locations acts on
locations alone: edits that all lie below one location change the value there as they would by
themselves (`result?_below`), and edits of the items of an array change each item by itself
(`result?_itemEdits`). So what a patch does to a document is read off its edits, part by part.
-/

set_option autoImplicit false

namespace Conform.Patch

open Json

/-! ### Results -/

/-- The document that a patch makes, if it meets no fault. -/
def result? (changes : Patch) (document : Json) : Option Json :=
  (apply changes document).toOption

theorem apply_eq_ok_iff {changes : Patch} {document result : Json} :
    apply changes document = .ok result ↔ result? changes document = some result := by
  unfold result?
  cases apply changes document <;> simp [Except.toOption]

theorem apply_cons (operation : Operation) (rest : Patch) (document : Json) :
    apply (operation :: rest) document = (operation.apply document).bind (apply rest) := by
  unfold apply
  rw [run]
  cases operation.apply document <;> rfl

theorem result?_nil (document : Json) : result? [] document = some document := rfl

theorem result?_nil_eq_some_iff {document result : Json} :
    result? [] document = some result ↔ result = document := by
  rw [result?_nil, Option.some.injEq, eq_comm]

theorem result?_cons (operation : Operation) (rest : Patch) (document : Json) :
    result? (operation :: rest) document =
      (operation.apply document).toOption.bind (result? rest) := by
  rw [result?, apply_cons]
  cases operation.apply document <;> rfl

theorem result?_append (first second : Patch) (document : Json) :
    result? (first ++ second) document = (result? first document).bind (result? second) := by
  induction first generalizing document with
  | nil => rfl
  | cons operation rest ih =>
    rw [List.cons_append, result?_cons, result?_cons]
    cases (operation.apply document).toOption with
    | none => rfl
    | some next => exact ih next

theorem toOption_replace (path : String) (value document : Json) :
    (replace path value document).toOption =
      (Pointer.resolve? document path).map (document.put · value) := by
  unfold replace
  cases Pointer.resolve? document path <;> rfl

/-! ### Edits -/

/-- A value to be put at a location. -/
structure Edit where
  location : Location
  value : Json

namespace Edit

/-- The operation that carries an edit out. -/
def operation (edit : Edit) : Operation :=
  replaceAt (Pointer.ofLocation edit.location) edit.value

/-- The same edit inside a value that stands at a location. -/
def below (front : Location) (edit : Edit) : Edit :=
  ⟨front ++ edit.location, edit.value⟩

theorem map_below_below (front back : Location) (edits : List Edit) :
    (edits.map (below back)).map (below front) = edits.map (below (front ++ back)) := by
  rw [List.map_map]
  refine List.map_congr_left fun edit _ ↦ ?_
  rw [Function.comp_apply, below, below, below, List.append_assoc]

end Edit

/-- The patch that carries edits out. -/
def ofEdits (edits : List Edit) : Patch :=
  edits.map Edit.operation

theorem ofEdits_append (first second : List Edit) :
    ofEdits (first ++ second) = ofEdits first ++ ofEdits second :=
  List.map_append

theorem result?_ofEdits_cons (edit : Edit) (rest : List Edit) (document : Json) :
    result? (ofEdits (edit :: rest)) document =
      (Pointer.resolve? document (Pointer.ofLocation edit.location)).bind fun location ↦
        result? (ofEdits rest) (document.put location edit.value) := by
  change result? (edit.operation :: ofEdits rest) document = _
  rw [result?_cons]
  change (replace _ _ document).toOption.bind _ = _
  rw [toOption_replace, Option.bind_map]
  rfl

/-- An edit of a member finds the member or fails. -/
theorem result?_member (members : List (String × Json)) (name : String) (value : Json) :
    result? (ofEdits [⟨[.member name], value⟩]) (.object members) =
      (member? name members).map fun _ ↦ .object (setMember name value members) := by
  rw [result?_ofEdits_cons, Pointer.resolve?_ofLocation_member]
  cases hmember : member? name members with
  | none => rfl
  | some old =>
    have hchild : child? (.object members) (.member name) = some old := hmember
    simp only [Option.map_some, Option.bind_some]
    rw [put_cons hchild, put_nil]
    rfl

/-- Edits below a location that exists change the value there, and no other. -/
theorem result?_below {document inner : Json} {front : Location}
    (hinner : document.at? front = some inner) (edits : List Edit) :
    result? (ofEdits (edits.map (Edit.below front))) document =
      (result? (ofEdits edits) inner).map (document.put front) := by
  induction edits generalizing document inner with
  | nil => exact congrArg some (put_at? hinner).symm
  | cons edit rest ih =>
    rw [List.map_cons, result?_ofEdits_cons, result?_ofEdits_cons]
    change (Pointer.resolve? document (Pointer.ofLocation (front ++ edit.location))).bind _ = _
    rw [Pointer.resolve?_ofLocation_append hinner]
    cases Pointer.resolve? inner (Pointer.ofLocation edit.location) with
    | none => rfl
    | some location =>
      simp only [Option.map_some, Option.bind_some]
      rw [put_append hinner]
      change result? (ofEdits (rest.map (Edit.below front)))
        (document.put front (inner.put location edit.value)) = _
      rw [ih (at?_put_self hinner _)]
      congr 1
      funext new
      exact put_put document front (inner.put location edit.value) new

/-! ### Edits of the items of an array -/

/-- The edits that each item of an array asks for; those given stand at `position` and after. -/
def itemEdits (edits : Json → List Edit) (position : Nat) : List Json → List Edit
  | [] => []
  | item :: rest =>
    (edits item).map (Edit.below [.item position]) ++ itemEdits edits (position + 1) rest

theorem itemEdits_of_nil {edits : Json → List Edit} (hnil : ∀ item, edits item = [])
    (position : Nat) (items : List Json) : itemEdits edits position items = [] := by
  induction items generalizing position with
  | nil => rfl
  | cons item rest ih => rw [itemEdits, hnil, ih, List.map_nil, List.nil_append]

theorem result?_itemEdits_behind (edits : Json → List Edit) (front items : List Json) :
    result? (ofEdits (itemEdits edits front.length items)) (.array (front ++ items)) =
      (items.mapM fun item ↦ result? (ofEdits (edits item)) item).map fun results ↦
        .array (front ++ results) := by
  induction items generalizing front with
  | nil => rfl
  | cons item rest ih =>
    have hitem : at? (.array (front ++ item :: rest)) [.item front.length] = some item := by
      simp [at?_cons, child?]
    rw [itemEdits, ofEdits_append, result?_append, result?_below hitem, List.mapM_cons]
    cases result? (ofEdits (edits item)) item with
    | none => rfl
    | some result =>
      have hput : put (.array (front ++ item :: rest)) [.item front.length] result =
          .array ((front ++ [result]) ++ rest) := by
        have hchild : child? (.array (front ++ item :: rest)) (.item front.length) = some item := by
          simp [child?]
        rw [put_cons hchild, put_nil, setChild, List.set_append_right _ _ (Nat.le_refl _),
          Nat.sub_self, List.set_cons_zero, List.append_assoc, List.singleton_append]
      have hlength : front.length + 1 = (front ++ [result]).length := by simp
      rw [Option.map_some, Option.bind_some, hput, hlength, ih]
      simp only [List.append_assoc, List.singleton_append]
      cases rest.mapM fun item ↦ result? (ofEdits (edits item)) item <;> rfl

/-- Edits of the items of an array change each item by itself. -/
theorem result?_itemEdits (edits : Json → List Edit) (items : List Json) :
    result? (ofEdits (itemEdits edits 0 items)) (.array items) =
      (items.mapM fun item ↦ result? (ofEdits (edits item)) item).map .array :=
  result?_itemEdits_behind edits [] items

end Conform.Patch
