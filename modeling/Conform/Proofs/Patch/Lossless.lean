import Conform.Proofs.Json.Decoding
import Conform.Proofs.Patch.Flat
import Conform.Proofs.Text.Line

/-!
What the patches for entities and for application behaviours hold. They name only the members that
the record has something for, and what they put there is the record again: the two families of its
behaviours, each in the order of the record, its expression, and one entry for each of its imports
(`sparse_lossless`).
-/

set_option autoImplicit false

namespace Conform.Patch

open Json

/-! ### Values by path -/

/-- The value that a patch puts at a path. -/
def value? (changes : Patch) (path : String) : Option Json :=
  (changes.find? (·.path = path)).map Operation.value

section Values

variable {α : Type} {changes : Patch} {path : String}

theorem mem_paths_iff : path ∈ changes.paths ↔ (changes.value? path).isSome := by
  simp [paths, value?]

theorem value?_append (first second : Patch) (path : String) :
    value? (first ++ second) path = (first.value? path).or (second.value? path) := by
  rw [value?, List.find?_append, Option.map_or]
  rfl

@[simp] theorem value?_nil (path : String) : value? [] path = none := rfl

theorem value?_replaceAt (path other : String) (inner : Json) :
    value? [replaceAt path inner] other = if path = other then some inner else none := by
  by_cases hpath : path = other <;> simp [value?, replaceAt, hpath]

theorem value?_replaceSome (path other : String) (items : List α) (value : List α → Json) :
    value? (replaceSome path items value) other =
      if path = other ∧ items ≠ [] then some (value items) else none := by
  cases items with
  | nil => simp [replaceSome]
  | cons item rest => simp [replaceSome, value?_replaceAt]

theorem eq_of_mem_replaceSome {items : List α} {value : List α → Json} {operation : Operation}
    (hmem : operation ∈ replaceSome path items value) :
    operation = replaceAt path (value items) := by
  cases items with
  | nil => cases hmem
  | cons item rest => exact List.mem_singleton.mp hmem

end Values

/-! ### Fields -/

section Fields

variable {α : Type}

/-- One field if there is anything to put in, none otherwise. -/
def someField (key : String) (items : List α) (value : List α → Json) : List (String × Json) :=
  if items.isEmpty then [] else [(key, value items)]

def expressionField (application : Application) : List (String × Json) :=
  if application.expression.isEmpty then []
  else [("expression", .string application.expression)]

def entityFields (entity : Entity) : List (String × Json) :=
  someField "entityBehaviours" entity.instanceBehaviours behavioursJson ++
    someField "dataBehaviours" entity.dataBehaviours behavioursJson ++
    someField "behaviourNamespaces" entity.imports (importsJson entity.spaceName)

def applicationFields (application : Application) : List (String × Json) :=
  expressionField application ++
    someField "behaviourNamespaces" application.imports (importsJson application.spaceName)

theorem ofFields_singleton {key path : String} (hpath : Pointer.ofLocation [.member key] = path)
    (value : Json) : ofFields [(key, value)] = [replaceAt path value] := by
  rw [← hpath]
  rfl

theorem ofFields_someField {key path : String} (hpath : Pointer.ofLocation [.member key] = path)
    (items : List α) (value : List α → Json) :
    ofFields (someField key items value) = replaceSome path items value := by
  rw [someField, replaceSome]
  split
  · rfl
  · exact ofFields_singleton hpath _

theorem ofEntity_eq (entity : Entity) : ofEntity entity = ofFields (entityFields entity) := by
  have hinstances : Pointer.ofLocation [.member "entityBehaviours"] = "/entityBehaviours" := by
    decide
  have hdata : Pointer.ofLocation [.member "dataBehaviours"] = "/dataBehaviours" := by decide
  have himports : Pointer.ofLocation [.member "behaviourNamespaces"] = "/behaviourNamespaces" := by
    decide
  rw [entityFields, ofFields_append, ofFields_append, ofFields_someField hinstances,
    ofFields_someField hdata, ofFields_someField himports]
  rfl

theorem ofApplication_eq (application : Application) :
    ofApplication application = ofFields (applicationFields application) := by
  have hexpression : Pointer.ofLocation [.member "expression"] = "/expression" := by decide
  have himports : Pointer.ofLocation [.member "behaviourNamespaces"] = "/behaviourNamespaces" := by
    decide
  rw [applicationFields, ofFields_append, ofFields_someField himports, ofApplication,
    expressionField]
  congr 1
  split
  · rfl
  · exact (ofFields_singleton hexpression _).symm

theorem sublist_keys_someField (key : String) (items : List α) (value : List α → Json) :
    ((someField key items value).map Prod.fst).Sublist [key] := by
  cases items with
  | nil => exact List.nil_sublist _
  | cons item rest => exact List.Sublist.refl _

theorem sublist_keys_entityFields (entity : Entity) :
    ((entityFields entity).map Prod.fst).Sublist
      ["entityBehaviours", "dataBehaviours", "behaviourNamespaces"] := by
  rw [entityFields, List.map_append, List.map_append]
  exact ((sublist_keys_someField ..).append (sublist_keys_someField ..)).append
    (sublist_keys_someField ..)

theorem sublist_keys_applicationFields (application : Application) :
    ((applicationFields application).map Prod.fst).Sublist
      ["expression", "behaviourNamespaces"] := by
  have hexpression : ((expressionField application).map Prod.fst).Sublist ["expression"] := by
    rw [expressionField]
    split
    · exact List.nil_sublist _
    · exact List.Sublist.refl _
  rw [applicationFields, List.map_append]
  exact hexpression.append (sublist_keys_someField ..)

/-- Names out of a list of different plain names are different and plain. -/
theorem nodup_and_isPlain_of_sublist {fields : List (String × Json)} {keys : List String}
    (hkeys : keys.Nodup ∧ ∀ key ∈ keys, IsPlain key) (hsublist : (fields.map Prod.fst).Sublist keys) :
    (fields.map Prod.fst).Nodup ∧ ∀ field ∈ fields, IsPlain field.1 :=
  ⟨hkeys.1.sublist hsublist, fun _ hmem ↦
    hkeys.2 _ (hsublist.subset (List.mem_map_of_mem hmem))⟩

theorem nodup_and_isPlain_entityFields (entity : Entity) :
    ((entityFields entity).map Prod.fst).Nodup ∧ ∀ field ∈ entityFields entity, IsPlain field.1 :=
  nodup_and_isPlain_of_sublist (by decide) (sublist_keys_entityFields entity)

theorem nodup_and_isPlain_applicationFields (application : Application) :
    ((applicationFields application).map Prod.fst).Nodup ∧
      ∀ field ∈ applicationFields application, IsPlain field.1 :=
  nodup_and_isPlain_of_sublist (by decide) (sublist_keys_applicationFields application)

theorem sparse_ofEntity (entity : Entity) : Sparse (ofEntity entity) := by
  obtain ⟨hnodup, hplain⟩ := nodup_and_isPlain_entityFields entity
  rw [ofEntity_eq]
  exact sparse_ofFields hnodup hplain

theorem sparse_ofApplication (application : Application) : Sparse (ofApplication application) := by
  obtain ⟨hnodup, hplain⟩ := nodup_and_isPlain_applicationFields application
  rw [ofApplication_eq]
  exact sparse_ofFields hnodup hplain

end Fields

/-! ### Behaviours -/

/-- The behaviours that a patch puts at a path, read back from it; none if it puts nothing there. -/
def behavioursAt? (changes : Patch) (path : String) : Option (List Behaviour) :=
  match changes.value? path with
  | none => some []
  | some value => list? Behaviour.decode? value

/-- A patch that holds behaviours, each in the member of its family and in the order that they have
in a list. -/
structure HoldsBehaviours (behaviours : List Behaviour) (changes : Patch) : Prop where
  instances_iff : "/entityBehaviours" ∈ changes.paths ↔
    ∃ behaviour ∈ behaviours, behaviour.hook.isData = false
  data_iff : "/dataBehaviours" ∈ changes.paths ↔
    ∃ behaviour ∈ behaviours, behaviour.hook.isData = true
  /-- The two families are read back, and are the whole list, split without a change of order. -/
  split : ∃ instances data, changes.behavioursAt? "/entityBehaviours" = some instances ∧
    changes.behavioursAt? "/dataBehaviours" = some data ∧
    instances = behaviours.filter (!·.hook.isData) ∧ data = behaviours.filter (·.hook.isData) ∧
    instances.Sublist behaviours ∧ data.Sublist behaviours ∧ (instances ++ data).Perm behaviours

section Behaviours

variable (entity : Entity)

theorem value?_ofEntity_instances : (ofEntity entity).value? "/entityBehaviours" =
    if entity.instanceBehaviours = [] then none
    else some (behavioursJson entity.instanceBehaviours) := by
  simp [ofEntity, value?_append, value?_replaceSome]

theorem value?_ofEntity_data : (ofEntity entity).value? "/dataBehaviours" =
    if entity.dataBehaviours = [] then none else some (behavioursJson entity.dataBehaviours) := by
  simp [ofEntity, value?_append, value?_replaceSome]

theorem behavioursAt?_eq {changes : Patch} {path : String} {behaviours : List Behaviour}
    (hvalue : changes.value? path =
      if behaviours = [] then none else some (behavioursJson behaviours)) :
    changes.behavioursAt? path = some behaviours := by
  rw [behavioursAt?, hvalue]
  by_cases hempty : behaviours = []
  · rw [if_pos hempty, hempty]
  · rw [if_neg hempty]
    exact (list?_eq_some_iff Behaviour.decode?_eq_some_iff _ behaviours).mpr
      (isList_map Behaviour.tells_toJson behaviours)

theorem holdsBehaviours_ofEntity : HoldsBehaviours entity.behaviours (ofEntity entity) where
  instances_iff := by
    rw [mem_paths_iff, value?_ofEntity_instances]
    simp [Entity.instanceBehaviours, List.filter_eq_nil_iff]
  data_iff := by
    rw [mem_paths_iff, value?_ofEntity_data]
    simp [Entity.dataBehaviours, List.filter_eq_nil_iff]
  split := by
    refine ⟨_, _, behavioursAt?_eq (value?_ofEntity_instances entity),
      behavioursAt?_eq (value?_ofEntity_data entity), rfl, rfl, List.filter_sublist,
      List.filter_sublist, List.perm_append_comm.trans ?_⟩
    exact List.filter_append_perm (fun behaviour : Behaviour ↦ behaviour.hook.isData) _

end Behaviours

/-! ### Imports -/

/-- The entry for an import of a target by a file of a namespace. -/
structure IsEntry (spaceName target : String) (entry : Json) : Prop where
  qualified : Document.text? entry "fullyQualifiedName" = some target
  /-- The target without its dots. -/
  named : Document.text? entry "name" = some (String.ofList (target.toList.filter (· ≠ '.')))
  /-- The fourth part of the namespace between dots, if it has that many. -/
  located : Document.text? entry "executionLocation" =
    some (((spaceName.toList.splitOn '.')[3]?.map String.ofList).getD "Internal")

/-- A patch that holds one entry for each import, in order. -/
structure HoldsImports (spaceName : String) (imports : List String) (changes : Patch) : Prop where
  mem_iff : "/behaviourNamespaces" ∈ changes.paths ↔ imports ≠ []
  entries : ∀ value, changes.value? "/behaviourNamespaces" = some value → ∃ entries,
    value = .array entries ∧ List.Forall₂ (IsEntry spaceName) imports entries

theorem isEntry_of (spaceName target : String) :
    IsEntry spaceName target (Import.of target spaceName).toJson where
  qualified := rfl
  named := rfl
  located := by
    rw [← Text.splitAt_eq_splitOn]
    rfl

theorem holdsImports_of_value? {changes : Patch} {spaceName : String} {imports : List String}
    (hvalue : changes.value? "/behaviourNamespaces" =
      if imports = [] then none else some (importsJson spaceName imports)) :
    HoldsImports spaceName imports changes where
  mem_iff := by
    rw [mem_paths_iff, hvalue]
    by_cases hempty : imports = [] <;> simp [hempty]
  entries := by
    intro value hmem
    rw [hvalue] at hmem
    split at hmem
    · cases hmem
    · refine ⟨_, (Option.some.inj hmem).symm, ?_⟩
      exact List.forall₂_map_right_iff.mpr (List.forall₂_same.mpr fun target _ ↦
        isEntry_of spaceName target)

theorem value?_ofEntity_imports (entity : Entity) :
    (ofEntity entity).value? "/behaviourNamespaces" =
      if entity.imports = [] then none else some (importsJson entity.spaceName entity.imports) := by
  simp [ofEntity, value?_append, value?_replaceSome]

section Application

variable (application : Application)

theorem value?_expressionPart (path : String) :
    value? (if application.expression.isEmpty then []
      else [replaceAt "/expression" (.string application.expression)]) path =
      if "/expression" = path ∧ application.expression ≠ "" then
        some (.string application.expression) else none := by
  by_cases hempty : application.expression = "" <;>
    simp [hempty, value?_replaceAt]

theorem value?_ofApplication_expression : (ofApplication application).value? "/expression" =
    if application.expression = "" then none else some (.string application.expression) := by
  rw [ofApplication, value?_append, value?_expressionPart, value?_replaceSome]
  simp

theorem value?_ofApplication_imports :
    (ofApplication application).value? "/behaviourNamespaces" =
      if application.imports = [] then none
      else some (importsJson application.spaceName application.imports) := by
  rw [ofApplication, value?_append, value?_expressionPart, value?_replaceSome]
  simp

end Application

/-! ### The patches -/

theorem sublist_paths_ofEntity (entity : Entity) : (ofEntity entity).paths.Sublist
    ["/entityBehaviours", "/dataBehaviours", "/behaviourNamespaces"] := by
  rw [ofEntity_eq, paths_ofFields (nodup_and_isPlain_entityFields entity).2]
  exact (sublist_keys_entityFields entity).map _

theorem sublist_paths_ofApplication (application : Application) :
    (ofApplication application).paths.Sublist ["/expression", "/behaviourNamespaces"] := by
  rw [ofApplication_eq, paths_ofFields (nodup_and_isPlain_applicationFields application).2]
  exact (sublist_keys_applicationFields application).map _

/-- An operation puts the imports, or behaviours of the entity somewhere else. -/
theorem imports_or_family_of_mem {entity : Entity} {operation : Operation}
    (hmem : operation ∈ ofEntity entity) :
    (operation.path = "/behaviourNamespaces" ∧
      operation.value = importsJson entity.spaceName entity.imports) ∨
    (operation.path ≠ "/behaviourNamespaces" ∧
      ∃ family ⊆ entity.behaviours, operation.value = behavioursJson family) := by
  rw [ofEntity, List.mem_append, List.mem_append] at hmem
  rcases hmem with (hmem | hmem) | hmem
  · rw [eq_of_mem_replaceSome hmem]
    exact .inr ⟨by simp [replaceAt], _, List.filter_subset_self _, rfl⟩
  · rw [eq_of_mem_replaceSome hmem]
    exact .inr ⟨by simp [replaceAt], _, List.filter_subset_self _, rfl⟩
  · rw [eq_of_mem_replaceSome hmem]
    exact .inl ⟨rfl, rfl⟩

/-- The patch for an entity applies exactly to the objects with all members it names, and changes
only these; it names a family of behaviours just if the entity has one of that family, and the
imports just if it has some; and what it holds is read back as the behaviours of the entity, apart
by family, and as its imports. The patch for an application behaviour does the same with the
expression and the imports. -/
theorem sparse_lossless (entity : Entity) (application : Application) :
    (Sparse (ofEntity entity) ∧
      (ofEntity entity).paths.Sublist
        ["/entityBehaviours", "/dataBehaviours", "/behaviourNamespaces"] ∧
      HoldsBehaviours entity.behaviours (ofEntity entity) ∧
      HoldsImports entity.spaceName entity.imports (ofEntity entity)) ∧
    Sparse (ofApplication application) ∧
      (ofApplication application).paths.Sublist ["/expression", "/behaviourNamespaces"] ∧
      (ofApplication application).value? "/expression" =
        (if application.expression = "" then none else some (.string application.expression)) ∧
      HoldsImports application.spaceName application.imports (ofApplication application) :=
  ⟨⟨sparse_ofEntity entity, sublist_paths_ofEntity entity, holdsBehaviours_ofEntity entity,
    holdsImports_of_value? (value?_ofEntity_imports entity)⟩,
    sparse_ofApplication application, sublist_paths_ofApplication application,
    value?_ofApplication_expression application,
    holdsImports_of_value? (value?_ofApplication_imports application)⟩

end Conform.Patch
