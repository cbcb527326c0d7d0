import Conform.Proofs.Extraction.Naming
import Conform.Proofs.Extraction.Selection
import Conform.Proofs.Patch.Lossless

/-!
From a file to its patch. The naming rules of a dialect lead to the hooks of one family only, and
give a target attribute to just those hooks that have one (`fits_of_classify?`). So the patch for a
record that was read from a file never touches the family of the other dialect, which it would
replace as a whole; and of the imports it holds those, and as often, as the file has them, but for
the ones that every file or generated code accounts for (`families_apart`).
-/

set_option autoImplicit false

namespace Conform.Extraction

open Source

/-! ### Naming rules -/

/-- The hooks that run for one attribute. -/
def targetedHooks : List Hook :=
  [.action, .formula, .collectionInitialization]

/-- A hook of the family of a dialect, with a target attribute if it runs for one. -/
structure Fits (dialect : Dialect) (hook : Hook) (target : Option String) : Prop where
  family : dialect = if hook.isData then .dataAccess else .entity
  target_iff : target.isSome ↔ hook ∈ targetedHooks

section Rules

variable {identifier : String} {hook : Hook} {target : Option String}

theorem fits_of_dataHook? (hknown : Dialect.dataHook? identifier = some hook) :
    Fits .dataAccess hook none := by
  unfold Dialect.dataHook? at hknown
  split at hknown <;> cases hknown <;> exact ⟨rfl, by decide⟩

theorem fits_of_tells (htells : Dialect.Tells identifier (hook, target)) :
    Fits .entity hook target := by
  cases htells with
  | fixed hname =>
    have hall : ∀ pair ∈ Dialect.fixedNames,
        pair.2.isData = false ∧ pair.2 ∉ targetedHooks := by decide
    obtain ⟨hdata, htargeted⟩ := hall _ hname
    exact ⟨by rw [hdata]; rfl, iff_of_false Bool.false_ne_true htargeted⟩
  | action hname => exact ⟨rfl, iff_of_true rfl (by decide)⟩
  | collection hname => exact ⟨rfl, iff_of_true rfl (by decide)⟩
  | formula hname => exact ⟨rfl, iff_of_true rfl (by decide)⟩

theorem fits_of_classify? {dialect : Dialect}
    (hknown : dialect.classify? identifier = some (hook, target)) : Fits dialect hook target := by
  cases dialect with
  | dataAccess =>
    obtain ⟨found, hfound, hsame⟩ := Option.map_eq_some_iff.mp hknown
    cases hsame
    exact fits_of_dataHook? hfound
  | entity => exact fits_of_tells (Dialect.classify?_eq_some_iff.mp hknown)
  | application => cases hknown

end Rules

/-! ### Records -/

/-- Assumes: a record that was read from a file, and one of its behaviours. -/
theorem fits_of_entity {dialect : Dialect} {source : String} {record : Entity}
    (hrecord : entity dialect source = .ok record) {behaviour : Behaviour}
    (hmem : behaviour ∈ record.behaviours) :
    Fits dialect behaviour.hook behaviour.target ∧ behaviour.expression ≠ "" := by
  obtain ⟨method, -, hholds⟩ := exists_holds_of_mem (entity_eq_ok_iff.mp hrecord).2.1 hmem
  exact ⟨fits_of_classify? hholds.known, hholds.nonempty⟩

/-! ### Patches -/

/-- The type names of behaviours that carry an attribute. -/
def targetedNames : List String :=
  ["Action", "Formula", "BeforeCollectionEntityInitialize"]

/-- The JSON of a behaviour with code, and with an attribute just if its type asks for one. -/
structure IsBehaviour (item : Json) : Prop where
  attribute_iff : (item.get? "attribute").isSome ↔
    ∃ name ∈ targetedNames, Document.text? item "type" = some name
  code : ∃ code, Document.text? item "expression" = some code ∧ code ≠ ""

/-- What the targets of imports say about those kept: neither a default one nor generated code. -/
def IsKept (target : String) : Prop :=
  target ∉ defaultImports ∧ ¬ "Omnia.Behaviours.".toList <+: target.toList

instance : DecidablePred IsKept := fun _ ↦
  inferInstanceAs (Decidable (_ ∧ _))

theorem customImports_eq (found : Structure) :
    customImports found = found.imports.filter (IsKept ·) := by
  refine List.filter_congr fun target _ ↦ ?_
  simp [isCustom, IsKept, generatedPrefix, ← List.isPrefixOf_iff_prefix]

theorem isBehaviour_toJson {dialect : Dialect} {behaviour : Behaviour}
    (hfits : Fits dialect behaviour.hook behaviour.target) (hcode : behaviour.expression ≠ "") :
    IsBehaviour behaviour.toJson where
  attribute_iff := by
    have hattribute : behaviour.toJson.get? "attribute" = behaviour.target.map .string := by
      cases htarget : behaviour.target <;> simp [Behaviour.toJson, htarget, Json.get?, Json.member?]
    have htype : Document.text? behaviour.toJson "type" = some behaviour.hook.name := rfl
    rw [hattribute, Option.isSome_map, hfits.target_iff, htype]
    cases behaviour.hook <;> decide
  code := ⟨behaviour.expression, rfl, hcode⟩

/-- A patch that touches no behaviours but those of one dialect, and holds the imports of a file that
are to be kept. -/
structure KeepsApart (dialect : Dialect) (found : Structure) (changes : Patch) : Prop where
  paths : changes.paths.Sublist ["/entityBehaviours", "/dataBehaviours", "/behaviourNamespaces"]
  instances : dialect ≠ .entity → "/entityBehaviours" ∉ changes.paths
  data : dialect ≠ .dataAccess → "/dataBehaviours" ∉ changes.paths
  behaviours : ∀ operation ∈ changes, operation.path ≠ "/behaviourNamespaces" →
    ∃ items, operation.value = .array items ∧ ∀ item ∈ items, IsBehaviour item
  imports_iff : "/behaviourNamespaces" ∈ changes.paths ↔ ∃ target ∈ found.imports, IsKept target
  /-- The kept imports stand in the order of the file, and as often as there. -/
  imports : ∀ operation ∈ changes, operation.path = "/behaviourNamespaces" →
    ∃ items, operation.value = .array items ∧
      items.map (Document.text? · "fullyQualifiedName") =
        (found.imports.filter (IsKept ·)).map some

section Patch

variable {dialect : Dialect} {source : String} {record : Entity}

/-- Assumes: behaviours of a record that was read from a file. -/
theorem isBehaviour_of_mem (hrecord : entity dialect source = .ok record)
    {family : List Behaviour} (hfamily : family ⊆ record.behaviours) :
    ∃ items, Patch.behavioursJson family = .array items ∧ ∀ item ∈ items, IsBehaviour item := by
  refine ⟨_, rfl, fun item hitem ↦ ?_⟩
  obtain ⟨behaviour, hmem, rfl⟩ := List.mem_map.mp hitem
  obtain ⟨hfits, hcode⟩ := fits_of_entity hrecord (hfamily hmem)
  exact isBehaviour_toJson hfits hcode

/-- Assumes: a file that a record can be read from. With the naming rules for data access the patch
for the record never touches the instance behaviours, with those for entities never the ones for
data access. Each behaviour in it has code, and an attribute just if its type is that of an action, a
formula or a collection initialisation. The imports in it are those of the file, in order and as
often as there, but for the default ones and generated code; and it touches the imports only if
there are some of these. -/
theorem families_apart (hrecord : entity dialect source = .ok record) :
    KeepsApart dialect (Structure.ofSource source.toList) (Patch.ofEntity record) := by
  have hholds := Patch.holdsBehaviours_ofEntity record
  have himports : record.imports =
      (Structure.ofSource source.toList).imports.filter (IsKept ·) := by
    rw [(entity_eq_ok_iff.mp hrecord).2.2, customImports_eq]
  refine ⟨Patch.sublist_paths_ofEntity record, ?_, ?_, ?_, ?_, ?_⟩
  -- A member for a family is there for one of its behaviours, whose hook tells the dialect.
  · intro hdialect hmem
    obtain ⟨behaviour, hbehaviour, hhook⟩ := hholds.instances_iff.mp hmem
    have hfamily := (fits_of_entity hrecord hbehaviour).1.family
    rw [if_neg (by simp [hhook])] at hfamily
    exact hdialect hfamily
  · intro hdialect hmem
    obtain ⟨behaviour, hbehaviour, hhook⟩ := hholds.data_iff.mp hmem
    have hfamily := (fits_of_entity hrecord hbehaviour).1.family
    rw [if_pos hhook] at hfamily
    exact hdialect hfamily
  · intro operation hmem hpath
    obtain ⟨himport, -⟩ | ⟨-, family, hfamily, hvalue⟩ := Patch.imports_or_family_of_mem hmem
    · exact absurd himport hpath
    · rw [hvalue]
      exact isBehaviour_of_mem hrecord hfamily
  · rw [Patch.mem_paths_iff, Patch.value?_ofEntity_imports, himports]
    simp [List.filter_eq_nil_iff]
  · intro operation hmem hpath
    obtain ⟨-, hvalue⟩ | ⟨hother, -⟩ := Patch.imports_or_family_of_mem hmem
    · refine ⟨_, hvalue, ?_⟩
      rw [← himports, List.map_map]
      exact List.map_congr_left fun target _ ↦ rfl
    · exact absurd hpath hother

/-- A file with a default import, generated code imported, and one import that stands twice. -/
def orderSource : String :=
  "using System; using Prices; using Omnia.Behaviours.Log; using Prices;\n" ++
    "namespace A \x7b class C \x7b void ExecuteBeforeSave() \x7b a(); \x7d " ++
    "int GetSum() \x7b b(); \x7d \x7d \x7d"

theorem families_apart_order :
    ∃ record, entity .entity orderSource = .ok record ∧
      record.behaviours.map (fun behaviour ↦ (behaviour.hook, behaviour.target)) =
        [(.beforeSave, none), (.formula, some "sum")] ∧
      "/dataBehaviours" ∉ (Patch.ofEntity record).paths ∧
      ∃ operation ∈ Patch.ofEntity record, operation.path = "/behaviourNamespaces" ∧
        ∃ items, operation.value = .array items ∧
          items.map (Document.text? · "fullyQualifiedName") = [some "Prices", some "Prices"] := by
  have hfound : Structure.ofSource orderSource.toList =
      ⟨["A"], ["System", "Prices", "Omnia.Behaviours.Log", "Prices"],
        [⟨"ExecuteBeforeSave", 2, .block ⟨119, 127⟩ (some ⟨121, 125⟩), []⟩,
          ⟨"GetSum", 2, .block ⟨141, 149⟩ (some ⟨143, 147⟩), []⟩], false⟩ := by decide +kernel
  have hrecord : entity .entity orderSource =
      .ok ⟨"A", [⟨"ExecuteBeforeSave", "", "a();", .beforeSave, none⟩,
        ⟨"GetSum", "", "b();", .formula, some "sum"⟩], ["Prices", "Prices"]⟩ := by
    rw [entity_eq_ok_iff, behaviours, hfound]
    refine ⟨rfl, ?_, by decide +kernel⟩
    rw [behavioursOf_of_forall (by decide +kernel)]
    exact congrArg Except.ok (by decide +kernel)
  have hapart := families_apart hrecord
  refine ⟨_, hrecord, rfl, hapart.data (by decide), ?_⟩
  have hmem := hapart.imports_iff.mpr ⟨"Prices", by rw [hfound]; decide +kernel⟩
  obtain ⟨operation, hoperation, hpath⟩ := List.mem_map.mp hmem
  obtain ⟨items, hitems, hnames⟩ := hapart.imports operation hoperation hpath
  refine ⟨operation, hoperation, hpath, items, hitems, hnames.trans ?_⟩
  rw [hfound]
  decide +kernel

end Patch

end Conform.Extraction
