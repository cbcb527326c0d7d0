import Conform.Document
import Conform.Proofs.Json.Location

/-!
Changing a value in place: what stands under a name of an object, or each item of an array. Nothing
is added, taken away or moved; where the name or the array is missing the value stays what it is, and
where the name is there the change is a writing at its location (`mapUnder_eq_put`).
-/

set_option autoImplicit false

namespace Conform.Json

/-- Changes what stands under a name where there is such a member. Names and their order stay. -/
def mapMember (name : String) (change : Json → Json) : List (String × Json) → List (String × Json)
  | [] => []
  | (key, value) :: rest =>
    if key = name then (key, change value) :: rest else (key, value) :: mapMember name change rest

/-- Changes what stands under a name of an object. -/
def mapUnder (name : String) (change : Json → Json) : Json → Json
  | object members => object (mapMember name change members)
  | other => other

/-- Changes each item of an array in its place. -/
def mapItems (change : Json → Json) : Json → Json
  | array items => array (items.map change)
  | other => other

theorem mapMember_of_member? {name : String} {old : Json} {members : List (String × Json)}
    (hold : member? name members = some old) (change : Json → Json) :
    mapMember name change members = setMember name (change old) members := by
  induction members with
  | nil => simp [member?] at hold
  | cons entry rest ih =>
    obtain ⟨key, inner⟩ := entry
    by_cases hkey : key = name
    · rw [member?, if_pos hkey, Option.some.injEq] at hold
      rw [mapMember, if_pos hkey, setMember, if_pos hkey, hold, hkey]
    · rw [member?, if_neg hkey] at hold
      rw [mapMember, if_neg hkey, setMember, if_neg hkey, ih hold]

theorem mapMember_of_none {name : String} {members : List (String × Json)}
    (hnone : member? name members = none) (change : Json → Json) :
    mapMember name change members = members := by
  induction members with
  | nil => rfl
  | cons entry rest ih =>
    obtain ⟨key, inner⟩ := entry
    by_cases hkey : key = name
    · rw [member?, if_pos hkey] at hnone
      contradiction
    · rw [member?, if_neg hkey] at hnone
      rw [mapMember, if_neg hkey, ih hnone]

theorem member?_mapMember_of_ne {name other : String} (hne : other ≠ name) (change : Json → Json)
    (members : List (String × Json)) :
    member? other (mapMember name change members) = member? other members := by
  cases hmember : member? name members with
  | none => rw [mapMember_of_none hmember]
  | some old => rw [mapMember_of_member? hmember, member?_setMember_of_ne hne]

theorem get?_mapUnder_of_ne {name other : String} (hne : other ≠ name) (change : Json → Json)
    (document : Json) : (document.mapUnder name change).get? other = document.get? other := by
  cases document with
  | object members => exact member?_mapMember_of_ne hne change members
  | _ => rfl

theorem items?_mapUnder_of_ne {name other : String} (hne : other ≠ name) (change : Json → Json)
    (document : Json) :
    Document.items? (document.mapUnder name change) other = Document.items? document other := by
  rw [Document.items?, get?_mapUnder_of_ne hne, Document.items?]

theorem exists_object_of_get? {document inner : Json} {name : String}
    (hinner : document.get? name = some inner) :
    ∃ members, document = .object members ∧ member? name members = some inner := by
  cases document with
  | object members => exact ⟨members, rfl, hinner⟩
  | _ => simp [get?] at hinner

theorem exists_object_of_name? {document : Json} {name : String}
    (hname : Document.name? document = some name) : ∃ members, document = .object members := by
  rw [Document.name?, Document.text?, Option.bind_eq_some_iff] at hname
  obtain ⟨inner, hinner, -⟩ := hname
  obtain ⟨members, hmembers, -⟩ := exists_object_of_get? hinner
  exact ⟨members, hmembers⟩

/-- Changing what stands under a name that is there is writing the changed value there. -/
theorem mapUnder_eq_put {document inner : Json} {name : String}
    (hinner : document.get? name = some inner) (change : Json → Json) :
    document.mapUnder name change = document.put [.member name] (change inner) := by
  obtain ⟨members, rfl, hmember⟩ := exists_object_of_get? hinner
  have hchild : child? (.object members) (.member name) = some inner := hmember
  rw [mapUnder, mapMember_of_member? hmember, put_cons hchild, put_nil, setChild]

theorem at?_member {document inner : Json} {name : String}
    (hinner : document.get? name = some inner) : document.at? [.member name] = some inner := by
  obtain ⟨members, rfl, hmember⟩ := exists_object_of_get? hinner
  rw [at?_cons, child?, hmember]
  rfl

theorem get?_eq_array_of_items? {document : Json} {name : String} {items : List Json}
    (hitems : Document.items? document name = some items) :
    document.get? name = some (.array items) := by
  rw [Document.items?, Option.bind_eq_some_iff] at hitems
  obtain ⟨inner, hinner, harray⟩ := hitems
  cases inner with
  | array others =>
    rw [asArray?, Option.some.injEq] at harray
    rw [hinner, harray]
  | _ => simp [asArray?] at harray

theorem mapUnder_mapItems_of_none {document : Json} {name : String}
    (hnone : Document.items? document name = none) (change : Json → Json) :
    document.mapUnder name (mapItems change) = document := by
  cases document with
  | object members =>
    rw [mapUnder]
    cases hmember : member? name members with
    | none => rw [mapMember_of_none hmember]
    | some inner =>
      cases inner with
      | array items =>
        simp [Document.items?, get?, hmember, asArray?] at hnone
      | _ =>
        rw [mapMember_of_member? hmember]
        exact congrArg object (setMember_of_member? hmember)
  | _ => rfl

end Conform.Json
