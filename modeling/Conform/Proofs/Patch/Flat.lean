import Conform.Proofs.Patch.Resumption
import Mathlib.Data.List.Forall2

/-!
Flat patches: each operation replaces one member of the document itself. The patches for entities
and for application behaviours are flat (`ofEntity_eq`, `ofApplication_eq`). A flat patch applies
exactly to the objects that have all members it names, and changes nothing but these, each in its
place (`sparse_ofFields`); carried out on what it has made it changes nothing at all
(`apply_ofFields_again`).
-/

set_option autoImplicit false

namespace Conform.Patch

open Json

/-! ### Sparse patches -/

/-- A member that has kept its name, and its value too unless it is one of those named. -/
def KeptBut (named : String → Prop) (old new : String × Json) : Prop :=
  new.1 = old.1 ∧ (¬ named old.1 → new = old)

/-- A patch that applies to an object with all members it names. It leaves every member in its
place and changes just those it names, to the values it holds for them. -/
structure Sparse (changes : Patch) : Prop where
  applies_iff : ∀ document, (∃ result, apply changes document = .ok result) ↔
    changes = [] ∨ ∃ members, document = .object members ∧
      ∀ key, "/" ++ key ∈ changes.paths → (member? key members).isSome
  unchanged : changes = [] → ∀ document result, apply changes document = .ok result →
    result = document
  changed : ∀ members result, apply changes (.object members) = .ok result → ∃ final,
    result = .object final ∧
      List.Forall₂ (KeptBut fun key ↦ "/" ++ key ∈ changes.paths) members final ∧
      ∀ operation ∈ changes, ∀ key, operation.path = "/" ++ key →
        member? key final = some operation.value

/-! ### Members -/

/-- The members of an object with new values for some names. -/
def setFields (fields members : List (String × Json)) : List (String × Json) :=
  fields.foldl (fun made field ↦ setMember field.1 field.2 made) members

section Members

variable {named : String → Prop} {name other : String} {value : Json}
  {fields members made : List (String × Json)}

theorem keptBut_refl (entry : String × Json) : KeptBut named entry entry :=
  ⟨rfl, fun _ ↦ rfl⟩

theorem isSome_member?_setMember (hname : (member? name members).isSome) (other : String)
    (value : Json) :
    (member? other (setMember name value members)).isSome = (member? other members).isSome := by
  by_cases hother : other = name
  · rw [hother, member?_setMember_self, hname, Option.isSome_some]
  · rw [member?_setMember_of_ne hother]

/-- Setting a member that is there and is one of those named changes no other. -/
theorem keptBut_setMember (hkept : List.Forall₂ (KeptBut named) members made) (hnamed : named name)
    (hname : (member? name made).isSome) (value : Json) :
    List.Forall₂ (KeptBut named) members (setMember name value made) := by
  induction hkept with
  | nil => cases hname
  | @cons old new members made hentry hrest ih =>
    obtain ⟨key, inner⟩ := new
    by_cases hkey : key = name
    · rw [setMember, if_pos hkey]
      refine .cons ⟨hkey.symm.trans hentry.1, fun hnot ↦ absurd ?_ hnot⟩ hrest
      rwa [← hentry.1, hkey]
    · rw [member?, if_neg hkey] at hname
      rw [setMember, if_neg hkey]
      exact .cons hentry (ih hname)

theorem keptBut_setFields (hkept : List.Forall₂ (KeptBut named) members made)
    (hfields : ∀ field ∈ fields, named field.1 ∧ (member? field.1 made).isSome) :
    List.Forall₂ (KeptBut named) members (setFields fields made) := by
  induction fields generalizing made with
  | nil => exact hkept
  | cons field rest ih =>
    obtain ⟨⟨hnamed, hname⟩, hrest⟩ := List.forall_mem_cons.mp hfields
    refine ih (keptBut_setMember hkept hnamed hname field.2) fun other hother ↦ ?_
    rw [isSome_member?_setMember hname]
    exact hrest other hother

theorem member?_setFields_of_notMem (hname : name ∉ fields.map Prod.fst) :
    member? name (setFields fields members) = member? name members := by
  induction fields generalizing members with
  | nil => rfl
  | cons field rest ih =>
    rw [List.map_cons, List.mem_cons, not_or] at hname
    exact (ih hname.2).trans (member?_setMember_of_ne hname.1 _ _)

theorem member?_setFields_of_mem (hfields : (fields.map Prod.fst).Nodup)
    (hmem : (name, value) ∈ fields) : member? name (setFields fields members) = some value := by
  induction fields generalizing members with
  | nil => cases hmem
  | cons field rest ih =>
    rw [List.map_cons, List.nodup_cons] at hfields
    rw [setFields, List.foldl_cons]
    rcases List.mem_cons.mp hmem with rfl | hrest
    · exact (member?_setFields_of_notMem hfields.1).trans (member?_setMember_self ..)
    · exact ih hfields.2 hrest

end Members

/-! ### Flat patches -/

def fieldEdits (fields : List (String × Json)) : List Edit :=
  fields.map fun field ↦ ⟨[.member field.1], field.2⟩

/-- The patch that replaces members of a document. -/
def ofFields (fields : List (String × Json)) : Patch :=
  ofEdits (fieldEdits fields)

/-- A name that a pointer writes as it is, and that is no position in an array. -/
def IsPlain (name : String) : Prop :=
  Pointer.ofLocation [.member name] = "/" ++ name ∧ Pointer.position? name.toList = none

instance (name : String) : Decidable (IsPlain name) :=
  inferInstanceAs (Decidable (_ ∧ _))

section Fields

variable {fields : List (String × Json)} {document result : Json}

theorem ofFields_append (first second : List (String × Json)) :
    ofFields (first ++ second) = ofFields first ++ ofFields second := by
  rw [ofFields, fieldEdits, List.map_append, ofEdits_append]
  rfl

theorem ofFields_eq_nil_iff : ofFields fields = [] ↔ fields = [] := by
  simp [ofFields, ofEdits, fieldEdits]

theorem mem_ofFields_iff (hplain : ∀ field ∈ fields, IsPlain field.1) {operation : Operation} :
    operation ∈ ofFields fields ↔
      ∃ key value, (key, value) ∈ fields ∧ operation = replaceAt ("/" ++ key) value := by
  simp only [ofFields, ofEdits, fieldEdits, List.map_map, List.mem_map, Prod.exists]
  refine exists₂_congr fun key value ↦ and_congr_right fun hmem ↦ ?_
  rw [Function.comp_apply, Edit.operation, (hplain _ hmem).1, eq_comm]

theorem paths_ofFields (hplain : ∀ field ∈ fields, IsPlain field.1) :
    (ofFields fields).paths = (fields.map Prod.fst).map ("/" ++ ·) := by
  simp only [paths, ofFields, ofEdits, fieldEdits, List.map_map]
  exact List.map_congr_left fun field hmem ↦ (hplain field hmem).1

theorem mem_paths_ofFields_iff (hplain : ∀ field ∈ fields, IsPlain field.1) {key : String} :
    "/" ++ key ∈ (ofFields fields).paths ↔ key ∈ fields.map Prod.fst := by
  rw [paths_ofFields hplain]
  exact List.mem_map_of_injective fun _ _ ↦ (String.append_right_inj "/").mp

theorem result?_ofFields_object (fields members : List (String × Json)) (result : Json) :
    result? (ofFields fields) (.object members) = some result ↔
      (∀ field ∈ fields, (member? field.1 members).isSome) ∧
        result = .object (setFields fields members) := by
  induction fields generalizing members with
  | nil =>
    simp only [List.not_mem_nil, false_implies, implies_true, true_and]
    exact result?_nil_eq_some_iff
  | cons field rest ih =>
    have hsplit : ofFields (field :: rest) =
        ofEdits [⟨[.member field.1], field.2⟩] ++ ofFields rest := rfl
    rw [hsplit, result?_append, result?_member, List.forall_mem_cons]
    cases hmember : member? field.1 members with
    | none => simp
    | some old =>
      have hname : (member? field.1 members).isSome := by simp [hmember]
      simp only [Option.map_some, Option.bind_some, ih, isSome_member?_setMember hname,
        Option.isSome_some, true_and]
      rfl

/-- A pointer that is one plain name leads nowhere but into an object. -/
theorem exists_object_of_resolve? {name : String} (hplain : IsPlain name) {place : Location}
    (hplace : Pointer.resolve? document (Pointer.ofLocation [.member name]) = some place) :
    ∃ members, document = .object members := by
  obtain ⟨taken, _, _, htaken, -⟩ := Pointer.exists_of_resolve?_ofLocation_cons hplace
  cases document with
  | object members => exact ⟨members, rfl⟩
  | array items => simp [Pointer.step?, Pointer.plainToken, hplain.2] at htaken
  | _ => simp [Pointer.step?] at htaken

theorem exists_object_of_result? (hplain : ∀ field ∈ fields, IsPlain field.1)
    (hfields : fields ≠ []) (hresult : result? (ofFields fields) document = some result) :
    ∃ members, document = .object members := by
  obtain ⟨field, rest, rfl⟩ := List.exists_cons_of_ne_nil hfields
  have hcons : ofFields (field :: rest) =
    ofEdits (⟨[.member field.1], field.2⟩ :: fieldEdits rest) := rfl
  rw [hcons, result?_ofEdits_cons, Option.bind_eq_some_iff] at hresult
  obtain ⟨place, hplace, -⟩ := hresult
  exact exists_object_of_resolve? (hplain field List.mem_cons_self) hplace

/-- Assumes: members of different names, which are plain. -/
theorem sparse_ofFields (hnodup : (fields.map Prod.fst).Nodup)
    (hplain : ∀ field ∈ fields, IsPlain field.1) : Sparse (ofFields fields) where
  applies_iff := by
    intro document
    simp only [apply_eq_ok_iff, mem_paths_ofFields_iff hplain, ofFields_eq_nil_iff]
    constructor
    · rintro ⟨result, hresult⟩
      refine or_iff_not_imp_left.mpr fun hfields ↦ ?_
      obtain ⟨members, rfl⟩ := exists_object_of_result? hplain hfields hresult
      refine ⟨members, rfl, fun key hkey ↦ ?_⟩
      obtain ⟨field, hmem, rfl⟩ := List.mem_map.mp hkey
      exact ((result?_ofFields_object fields members result).mp hresult).1 field hmem
    · rintro (rfl | ⟨members, rfl, hmembers⟩)
      · exact ⟨document, rfl⟩
      · exact ⟨_, (result?_ofFields_object fields members _).mpr
          ⟨fun field hmem ↦ hmembers field.1 (List.mem_map_of_mem hmem), rfl⟩⟩
  unchanged := by
    intro hempty document result hresult
    rw [hempty, apply_eq_ok_iff] at hresult
    exact result?_nil_eq_some_iff.mp hresult
  changed := by
    intro members result hresult
    rw [apply_eq_ok_iff, result?_ofFields_object] at hresult
    obtain ⟨hmembers, rfl⟩ := hresult
    refine ⟨_, rfl, keptBut_setFields (List.forall₂_same.mpr fun entry _ ↦ keptBut_refl entry)
      fun field hmem ↦ ⟨?_, hmembers field hmem⟩, fun operation hmem key hpath ↦ ?_⟩
    · rw [mem_paths_ofFields_iff hplain]
      exact List.mem_map_of_mem hmem
    · obtain ⟨name, value, hfield, rfl⟩ := (mem_ofFields_iff hplain).mp hmem
      rw [← (String.append_right_inj "/").mp hpath]
      exact member?_setFields_of_mem hnodup hfield

theorem allApart_fieldEdits (hnodup : (fields.map Prod.fst).Nodup) :
    AllApart (fieldEdits fields) := by
  refine List.pairwise_map.mpr ((List.pairwise_map.mp hnodup).imp fun hne ↦ ?_)
  exact .fork (fun hstep ↦ hne (Step.member.inj hstep)) [] []

/-- Assumes: members of different names, which are plain. -/
theorem apply_ofFields_again (hnodup : (fields.map Prod.fst).Nodup)
    (hplain : ∀ field ∈ fields, IsPlain field.1)
    (hresult : apply (ofFields fields) document = .ok result) :
    apply (ofFields fields) result = .ok result := by
  by_cases hfields : fields = []
  · subst hfields
    rfl
  · obtain ⟨members, rfl⟩ := exists_object_of_result? hplain hfields (apply_eq_ok_iff.mp hresult)
    refine apply_ofEdits_again (allApart_fieldEdits hnodup) (fun edit hedit ↦ ?_) hresult
    obtain ⟨field, -, rfl⟩ := List.mem_map.mp hedit
    exact stands_member _ _ members

end Fields

end Conform.Patch
