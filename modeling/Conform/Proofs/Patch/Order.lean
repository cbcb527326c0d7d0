import Conform.Proofs.Json.Resolution
import Conform.Proofs.Patch.Lossless

/-!
The order of operations. Replacements by pointers that part may change places: whatever document
they meet, and whatever their pointers lead to there, they apply in one order exactly if they apply
in any other, and make the same of it (`apply_perm`). The patches that are built from local records
are of this kind, since no two of their paths are equal or one below the other (`Built.independent`).
-/

set_option autoImplicit false

namespace Conform

namespace Json.Pointer

variable {path other : String}

theorem Parted.symm (hparted : Parted path other) : Parted other path :=
  fun tokens others htokens hothers ↦ (hparted others tokens hothers htokens).symm

instance : Std.Symm Parted := ⟨fun _ _ ↦ Parted.symm⟩

/-- A pointer with more tokens behind it does not part from it. -/
theorem Parted.ne_append {tokens : List (List Char)} (hparted : Parted path other)
    (htokens : tokens? path.toList = some tokens) (rest : String) : other ≠ path ++ "/" ++ rest := by
  rintro rfl
  have hbelow : tokens? (path ++ "/" ++ rest).toList =
      some (tokens ++ (Text.splitAt '/' rest.toList).map decodeToken) := by
    rw [String.toList_append, String.toList_append, List.append_assoc]
    show tokens? (path.toList ++ '/' :: rest.toList) = _
    rw [tokens?_append, htokens, Option.map_some]
  exact (hparted _ _ htokens hbelow).1 (List.prefix_append _ _)

theorem Parted.ne {tokens : List (List Char)} (hparted : Parted path other)
    (htokens : tokens? path.toList = some tokens) : path ≠ other := by
  rintro rfl
  exact (hparted _ _ htokens htokens).1 List.prefix_rfl

end Json.Pointer

namespace Patch

open Json Pointer

/-! ### Replacements that part -/

/-- Replacements whose pointers part from each other. -/
structure AllParted (changes : Patch) : Prop where
  replaces : ∀ operation ∈ changes, operation.kind = .replace
  parted : changes.Pairwise fun operation other ↦ Parted operation.path other.path

section Exchange

variable {changes others rest : Patch} {operation other : Operation}

theorem allParted_cons_iff :
    AllParted (operation :: rest) ↔ operation.kind = .replace ∧
      (∀ other ∈ rest, Parted operation.path other.path) ∧ AllParted rest := by
  constructor
  · rintro ⟨hreplaces, hparted⟩
    rw [List.forall_mem_cons] at hreplaces
    rw [List.pairwise_cons] at hparted
    exact ⟨hreplaces.1, hparted.1, hreplaces.2, hparted.2⟩
  · rintro ⟨hreplace, hrest, hreplaces, hparted⟩
    exact ⟨List.forall_mem_cons.mpr ⟨hreplace, hreplaces⟩, List.pairwise_cons.mpr ⟨hrest, hparted⟩⟩

theorem AllParted.perm (hchanges : AllParted changes) (hperm : changes.Perm others) :
    AllParted others where
  replaces operation hmem := hchanges.replaces operation (hperm.mem_iff.mpr hmem)
  parted := hchanges.parted.perm hperm Parted.symm

theorem result?_replace_cons (hreplace : operation.kind = .replace) (rest : Patch)
    (document : Json) :
    result? (operation :: rest) document =
      (resolve? document operation.path).bind fun location ↦
        result? rest (document.put location operation.value) := by
  rw [result?_cons, Operation.apply, hreplace]
  show (replace _ _ document).toOption.bind _ = _
  rw [toOption_replace, Option.bind_map]
  rfl

/-- Neither of two replacements that part sees the other one: both pointers lead where they lead in
the document at first, and the values written there do not meet. -/
theorem result?_swap (hreplace : operation.kind = .replace) (hother : other.kind = .replace)
    (hparted : Parted operation.path other.path) (rest : Patch) (document : Json) :
    result? (operation :: other :: rest) document =
      result? (other :: operation :: rest) document := by
  simp only [result?_replace_cons hreplace, result?_replace_cons hother]
  cases hlocation : resolve? document operation.path with
  | none =>
    cases hplace : resolve? document other.path with
    | none => rfl
    | some place =>
      rw [Option.bind_none, Option.bind_some, resolve?_put_of_parted hplace hparted.symm, hlocation,
        Option.bind_none]
  | some location =>
    rw [Option.bind_some, resolve?_put_of_parted hlocation hparted]
    cases hplace : resolve? document other.path with
    | none => rfl
    | some place =>
      have hapart := apart_of_parted hlocation hplace hparted
      rw [Option.bind_some, Option.bind_some, resolve?_put_of_parted hplace hparted.symm, hlocation,
        Option.bind_some, put_comm hapart]

/-- By induction on the permutation, for every document: each exchange of neighbours is one of
operations that part. -/
theorem result?_perm (hperm : changes.Perm others) (hchanges : AllParted changes)
    (document : Json) : result? changes document = result? others document := by
  induction hperm generalizing document with
  | nil => rfl
  | cons operation hrest ih =>
    obtain ⟨hreplace, -, hrests⟩ := allParted_cons_iff.mp hchanges
    rw [result?_replace_cons hreplace, result?_replace_cons hreplace]
    congr 1
    funext location
    exact ih hrests (document.put location operation.value)
  | swap other operation rest =>
    obtain ⟨hreplace, hparted, hrest⟩ := allParted_cons_iff.mp hchanges
    exact result?_swap hreplace (allParted_cons_iff.mp hrest).1
      (hparted other List.mem_cons_self) rest document
  | trans hfirst hsecond ihfirst ihsecond =>
    exact (ihfirst hchanges document).trans (ihsecond (hchanges.perm hfirst) document)

/-- Assumes: replacements that part. In every order they apply to the same documents, and make the
same of them. -/
theorem apply_perm (hchanges : AllParted changes) (hperm : others.Perm changes)
    (document result : Json) :
    apply others document = .ok result ↔ apply changes document = .ok result := by
  rw [apply_eq_ok_iff, apply_eq_ok_iff, result?_perm hperm.symm hchanges]

end Exchange

/-! ### Edits that stand in one document -/

section Edits

variable {document value inner : Json} {step : Step} {rest location other : Location}
  {edits : List Edit}

/-- In the document where an edit stands the first token of its pointer takes its first step. -/
theorem Edit.Stands.step?_plainToken
    (hstands : Edit.Stands document ⟨step :: rest, value⟩) :
    step? document (plainToken step) = some step := by
  obtain ⟨front, name, members, hlocation, hobject⟩ := hstands
  cases front with
  | nil =>
    obtain rfl := (List.cons.inj hlocation).1
    obtain rfl := Option.some.inj hobject
    rw [step?, plainToken, String.ofList_toList]
  | cons first front =>
    obtain rfl := (List.cons.inj hlocation).1
    rw [at?_cons, Option.bind_eq_some_iff] at hobject
    obtain ⟨child, hchild, -⟩ := hobject
    exact Pointer.step?_plainToken hchild

theorem Edit.Stands.exists_child? (hstands : Edit.Stands document ⟨step :: rest, value⟩)
    (hrest : rest ≠ []) :
    ∃ inner, document.child? step = some inner ∧ Edit.Stands inner ⟨rest, value⟩ := by
  obtain ⟨front, name, members, hlocation, hobject⟩ := hstands
  cases front with
  | nil => exact absurd (List.cons.inj hlocation).2 hrest
  | cons first front =>
    obtain ⟨rfl, hbehind⟩ := List.cons.inj hlocation
    rw [at?_cons, Option.bind_eq_some_iff] at hobject
    obtain ⟨child, hchild, hobject⟩ := hobject
    exact ⟨child, hchild, front, name, members, hbehind, hobject⟩

/-- Assumes: edits at locations apart that stand in one document, which tells items from members
of the same token. The tokens of one do not begin with those of the other. -/
theorem not_prefix_of_apart (hapart : Apart location other)
    (hlocation : Edit.Stands document ⟨location, value⟩)
    (hother : Edit.Stands document ⟨other, inner⟩) :
    ¬ location.map plainToken <+: other.map plainToken := by
  induction hapart generalizing document with
  | @fork step taken hne rest beside =>
    intro hbegins
    rw [List.map_cons, List.map_cons, List.cons_prefix_cons] at hbegins
    have hstep := hlocation.step?_plainToken
    rw [hbegins.1, hother.step?_plainToken] at hstep
    exact hne (Option.some.inj hstep).symm
  | along step hrest ih =>
    obtain ⟨child, hchild, hbelow⟩ := hlocation.exists_child? (by rintro rfl; cases hrest)
    obtain ⟨same, hsame, hbeside⟩ := hother.exists_child? (by rintro rfl; cases hrest)
    obtain rfl := Option.some.inj (hchild.symm.trans hsame)
    rw [List.map_cons, List.map_cons, List.prefix_cons_inj]
    exact ih hbelow hbeside

theorem parted_of_apart {edit other : Edit} (hapart : Apart edit.location other.location)
    (hedit : edit.Stands document) (hother : other.Stands document) :
    Parted edit.operation.path other.operation.path := by
  intro tokens others htokens hothers
  obtain rfl := Option.some.inj ((tokens?_ofLocation edit.location).symm.trans htokens)
  obtain rfl := Option.some.inj ((tokens?_ofLocation other.location).symm.trans hothers)
  exact ⟨not_prefix_of_apart hapart hedit hother, not_prefix_of_apart hapart.symm hother hedit⟩

theorem allParted_ofEdits (hapart : AllApart edits) (hstands : ∀ edit ∈ edits, edit.Stands document) :
    AllParted (ofEdits edits) where
  replaces operation hmem := by
    obtain ⟨edit, -, rfl⟩ := List.mem_map.mp hmem
    rfl
  parted := List.pairwise_map.mpr <| hapart.imp_of_mem fun hedit hother h ↦
    parted_of_apart h (hstands _ hedit) (hstands _ hother)

end Edits

/-! ### Patches built from local records -/

/-- A patch that is built from local records. -/
inductive Built : Patch → Prop
  | machine {states : List State} {document : Json} {changes : Patch}
    (hchanges : ofMachine? states document = some changes) : Built changes
  | entity (record : Entity) : Built (ofEntity record)
  | application (record : Application) : Built (ofApplication record)

/-- A patch of operations that do not depend on each other. -/
structure Independent (changes : Patch) : Prop where
  pointers : ∀ path ∈ changes.paths, (tokens? path.toList).isSome
  nodup : changes.paths.Nodup
  /-- No path is another one with more behind a slash. -/
  below : ∀ path ∈ changes.paths, ∀ rest, path ++ "/" ++ rest ∉ changes.paths
  /-- Nor do the tokens of one begin with those of another, however they are spelled. -/
  parted : changes.paths.Pairwise Parted
  /-- In every order the operations apply to the same documents and make the same of them. -/
  permuted : ∀ others, others.Perm changes → ∀ document result,
    apply others document = .ok result ↔ apply changes document = .ok result

section Built

variable {changes : Patch}

/-- The edits behind a patch stand in a document that has every object they change: that which the
patch is built from, or for a flat one any object. -/
theorem Built.exists_edits (hbuilt : Built changes) :
    ∃ edits document, changes = ofEdits edits ∧ AllApart edits ∧
      ∀ edit ∈ edits, edit.Stands document := by
  have hfields : ∀ fields : List (String × Json), (fields.map Prod.fst).Nodup →
      ∃ edits document, ofFields fields = ofEdits edits ∧ AllApart edits ∧
        ∀ edit ∈ edits, edit.Stands document := by
    intro fields hnodup
    refine ⟨fieldEdits fields, .object [], rfl, allApart_fieldEdits hnodup, fun edit hedit ↦ ?_⟩
    obtain ⟨field, -, rfl⟩ := List.mem_map.mp hedit
    exact stands_member _ _ []
  cases hbuilt with
  | machine hchanges =>
    obtain ⟨edits, hedits, hapart, hstands⟩ := exists_edits_of_ofMachine? hchanges
    exact ⟨edits, _, hedits, hapart, hstands⟩
  | entity record =>
    rw [ofEntity_eq]
    exact hfields _ (nodup_and_isPlain_entityFields record).1
  | application record =>
    rw [ofApplication_eq]
    exact hfields _ (nodup_and_isPlain_applicationFields record).1

theorem isSome_tokens?_of_mem_ofEdits {edits : List Edit} {path : String}
    (hpath : path ∈ (ofEdits edits).paths) : (tokens? path.toList).isSome := by
  rw [paths, ofEdits, List.map_map, List.mem_map] at hpath
  obtain ⟨edit, -, rfl⟩ := hpath
  show (tokens? (ofLocation edit.location).toList).isSome
  rw [tokens?_ofLocation, Option.isSome_some]

/-- Assumes: a patch built from local records. -/
theorem Built.independent (hbuilt : Built changes) : Independent changes := by
  obtain ⟨edits, document, rfl, hapart, hstands⟩ := hbuilt.exists_edits
  have hall := allParted_ofEdits hapart hstands
  have hpaths : (ofEdits edits).paths.Pairwise Parted := List.pairwise_map.mpr hall.parted
  have htokens : ∀ path ∈ (ofEdits edits).paths, ∃ tokens, tokens? path.toList = some tokens :=
    fun path hpath ↦ Option.isSome_iff_exists.mp (isSome_tokens?_of_mem_ofEdits hpath)
  constructor
  · intro path hpath
    exact isSome_tokens?_of_mem_ofEdits hpath
  · refine hpaths.imp_of_mem fun {path other} hpath _ hparted ↦ ?_
    obtain ⟨tokens, hpathTokens⟩ := htokens path hpath
    exact hparted.ne hpathTokens
  · intro path hpath rest hbelow
    obtain ⟨tokens, hpathTokens⟩ := htokens path hpath
    have hne : path ≠ path ++ "/" ++ rest := by
      intro hsame
      have hlength := congrArg String.length hsame
      simp only [String.length_append] at hlength
      have hslash : "/".length = 1 := rfl
      omega
    exact (hpaths.forall hpath hbelow hne).ne_append hpathTokens rest rfl
  · exact hpaths
  · intro others hperm document result
    exact apply_perm hall hperm document result

/-- A document of another shape than that which the patch for two drafts is built from: its states
are members of an object, with the positions for names. -/
def draftMembers : Json :=
  let draft := Json.object [("assignToExpression", .null), ("behaviours", .null),
    ("transitions", .object [("1", .object [("expression", .null)])])]
  .object [("states", .object [("2", draft), ("1", draft)])]

/-- The patch for two drafts, from its last operation to its first. -/
theorem Built.independent_draft :
    ∃ changes result, ofMachine? draftStates draftMachine = some changes ∧ changes.length = 5 ∧
      apply changes.reverse draftMembers = .ok result ∧
      apply changes draftMembers = .ok result ∧ changes.paths.Nodup := by
  have hindependent := Built.independent
    (@Built.machine draftStates draftMachine _ rfl)
  exact ⟨_, _, rfl, rfl, rfl, (hindependent.permuted _ (List.reverse_perm _) _ _).mp rfl,
    hindependent.nodup⟩

end Built

end Patch
end Conform
