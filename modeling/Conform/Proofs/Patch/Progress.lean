import Conform.Proofs.Patch.Insertion

/-!
How far a patch gets. Each operation either gives a new document or meets one fault, which is told
by the kind of the operation and by what its pointer reads (`Operation.apply_eq_error_iff`), and
then it has changed nothing. So a patch carries its operations out up to the first that meets a
fault, and leaves the document that those have made: what stands behind that operation is not looked
at, a patch behind another goes on where that has ended, and one operation at a time comes to the
same (`run_prefixLaws`).
-/

set_option autoImplicit false

namespace Conform.Patch

open Json Pointer

/-! ### One operation -/

/-- The fault that an operation meets in a document. -/
inductive Operation.Meets (operation : Operation) (document : Json) : Fault → Prop
  | missingTarget (hkind : operation.kind = .replace)
    (hread : read? document operation.path = none) :
    Meets operation document (.missingTarget operation.path)
  | unsplitPath (hkind : operation.kind = .add) (hslash : '/' ∉ operation.path.toList) :
    Meets operation document (.unsplitPath operation.path)
  | missingParent {front : String} {token : List Char} (hkind : operation.kind = .add)
    (hends : EndsIn operation.path front token) (hread : read? document front = none) :
    Meets operation document (.missingParent front)
  /-- The last token names no place in an array. -/
  | badPosition {front : String} {token : List Char} {items : List Json}
    (hkind : operation.kind = .add) (hends : EndsIn operation.path front token)
    (hread : read? document front = some (.array items))
    (hplace : ∀ position, ¬ IsPlace (decodeToken token) items.length position) :
    Meets operation document (.badPosition operation.path)
  /-- A value that is no array and no object takes nothing. -/
  | noContainer {front : String} {token : List Char} {parent : Json}
    (hkind : operation.kind = .add) (hends : EndsIn operation.path front token)
    (hread : read? document front = some parent) (hitems : ∀ items, parent ≠ .array items)
    (hmembers : ∀ members, parent ≠ .object members) :
    Meets operation document (.noContainer front)

section Faults

variable {operation : Operation} {document value parent : Json} {path front : String}
  {token : List Char} {items : List Json} {fault : Fault}

theorem insertInto_of_forall_not_isPlace
    (hplace : ∀ position, ¬ IsPlace token items.length position) :
    insertInto (.array items) token value path front = .error (.badPosition path) := by
  have hdash : token ≠ ['-'] := by
    intro htoken
    exact hplace items.length (.inl ⟨htoken, rfl⟩)
  have hread : (Text.unsigned? token).filter (· ≤ items.length) = none := by
    rw [Option.filter_eq_none_iff]
    intro position hposition
    rw [decide_eq_true_eq]
    intro hle
    exact hplace position (.inr ⟨Text.unsigned?_eq_some_iff.mp hposition, hle⟩)
  rw [insertInto, if_neg hdash, hread]

theorem insertInto_of_no_container (hitems : ∀ items, parent ≠ .array items)
    (hmembers : ∀ members, parent ≠ .object members) :
    insertInto parent token value path front = .error (.noContainer front) := by
  cases parent with
  | array items => exact absurd rfl (hitems items)
  | object members => exact absurd rfl (hmembers members)
  | _ => rfl

theorem Operation.apply_of_replace (hkind : operation.kind = .replace) (document : Json) :
    operation.apply document = replace operation.path operation.value document := by
  rw [Operation.apply, hkind]

theorem Operation.apply_of_add (hkind : operation.kind = .add) (document : Json) :
    operation.apply document = add operation.path operation.value document := by
  rw [Operation.apply, hkind]

theorem Operation.Meets.apply_eq (hmeets : operation.Meets document fault) :
    operation.apply document = .error fault := by
  cases hmeets with
  | missingTarget hkind hread =>
    rw [apply_of_replace hkind, replace, resolve?_eq_none hread]
  | unsplitPath hkind hslash =>
    rw [apply_of_add hkind, add, Text.cutLast_eq_none hslash]
  | missingParent hkind hends hread =>
    simp only [apply_of_add hkind, add, cutLast_eq_some_iff_endsIn.mpr hends,
      String.ofList_toList, resolve?_eq_none hread]
  | badPosition hkind hends hread hplace =>
    obtain ⟨location, hlocation, hparent⟩ := exists_resolve?_of_read? hread
    rw [apply_of_add hkind, add_of_endsIn hends hlocation hparent,
      insertInto_of_forall_not_isPlace hplace]
    rfl
  | noContainer hkind hends hread hitems hmembers =>
    obtain ⟨location, hlocation, hparent⟩ := exists_resolve?_of_read? hread
    rw [apply_of_add hkind, add_of_endsIn hends hlocation hparent,
      insertInto_of_no_container hitems hmembers]
    rfl

/-- A container takes a value, or the operation meets one of two faults there. -/
theorem Operation.exists_apply_or_meets_of_read? (hkind : operation.kind = .add)
    (hends : EndsIn operation.path front token) (hread : read? document front = some parent) :
    (∃ result, operation.apply document = .ok result) ∨ ∃ fault, operation.Meets document fault := by
  by_cases htakes : Takes (decodeToken token) parent
  · left
    obtain ⟨location, hlocation, hparent⟩ := exists_resolve?_of_read? hread
    obtain ⟨final, hfinal⟩ := takes_iff_insertInto.mp htakes
    refine ⟨document.put location final, ?_⟩
    rw [apply_of_add hkind, add_of_endsIn hends hlocation hparent, hfinal]
    rfl
  · right
    by_cases hitems : ∃ items, parent = .array items
    · obtain ⟨items, rfl⟩ := hitems
      exact ⟨_, .badPosition hkind hends hread fun position hplace ↦ htakes (.array hplace)⟩
    · refine ⟨_, .noContainer hkind hends hread (fun items h ↦ hitems ⟨items, h⟩) ?_⟩
      rintro members rfl
      exact htakes (.object members)

theorem Operation.exists_apply_or_meets (operation : Operation) (document : Json) :
    (∃ result, operation.apply document = .ok result) ∨ ∃ fault, operation.Meets document fault := by
  cases hkind : operation.kind with
  | replace =>
    cases hread : read? document operation.path with
    | none => exact .inr ⟨_, .missingTarget hkind hread⟩
    | some inner =>
      obtain ⟨location, hlocation, -⟩ := exists_resolve?_of_read? hread
      refine .inl ⟨document.put location operation.value, ?_⟩
      rw [apply_of_replace hkind, replace, hlocation]
  | add =>
    by_cases hslash : '/' ∈ operation.path.toList
    · obtain ⟨front, token, hends⟩ := exists_endsIn_of_mem hslash
      cases hread : read? document front with
      | none => exact .inr ⟨_, .missingParent hkind hends hread⟩
      | some parent => exact exists_apply_or_meets_of_read? hkind hends hread
    · exact .inr ⟨_, .unsplitPath hkind hslash⟩

/-- An operation gives the fault that it meets, and no other. -/
theorem Operation.apply_eq_error_iff :
    operation.apply document = .error fault ↔ operation.Meets document fault := by
  constructor
  · intro herror
    rcases operation.exists_apply_or_meets document with ⟨result, hresult⟩ | ⟨other, hother⟩
    · rw [herror] at hresult
      contradiction
    · have hsame := herror.symm.trans hother.apply_eq
      rwa [Except.error.inj hsame]
  · intro hmeets
    exact hmeets.apply_eq

end Faults

/-! ### Operations in order -/

/-- Operations that apply one after the other, each to the document that the one before it made. -/
inductive CarriedOut : List Operation → Json → Json → Prop
  | nil (document : Json) : CarriedOut [] document document
  | cons {operation : Operation} {rest : List Operation} {document next result : Json}
    (happly : operation.apply document = .ok next) (hrest : CarriedOut rest next result) :
    CarriedOut (operation :: rest) document result

/-- A patch carried out on what has been made so far, unless that has met a fault. -/
def goOn (made : Json × Option Fault) (next : Patch) : Json × Option Fault :=
  match made.2 with
  | none => run next made.1
  | some _ => made

/-- Operations carried out one at a time, each as a patch of its own, up to the first fault. -/
def oneByOne (changes : Patch) (document : Json) : Json × Option Fault :=
  changes.foldl (fun made operation ↦ goOn made [operation]) (document, none)

section Runs

variable {changes : Patch} {document result : Json} {fault : Fault}

theorem run_append (first second : Patch) (document : Json) :
    run (first ++ second) document = goOn (run first document) second := by
  induction first generalizing document with
  | nil => rfl
  | cons operation rest ih =>
    rw [List.cons_append, run, run]
    cases operation.apply document with
    | ok next => exact ih next
    | error fault => rfl

theorem run_eq_none_iff :
    run changes document = (result, none) ↔ CarriedOut changes document result := by
  induction changes generalizing document with
  | nil =>
    constructor
    · intro hrun
      obtain rfl := (Prod.mk.inj hrun).1
      exact .nil document
    · rintro ⟨⟩
      rfl
  | cons operation rest ih =>
    rw [run]
    constructor
    · intro hrun
      cases happly : operation.apply document with
      | ok next =>
        rw [happly] at hrun
        exact .cons happly (ih.mp hrun)
      | error fault =>
        rw [happly] at hrun
        exact absurd (Prod.mk.inj hrun).2 (Option.some_ne_none fault)
    · rintro (_ | ⟨happly, hrest⟩)
      rw [happly]
      exact ih.mpr hrest

/-- A patch stops at the first operation that meets a fault in what those before it made. -/
theorem run_eq_some_iff :
    run changes document = (result, some fault) ↔
      ∃ front operation back, changes = front ++ operation :: back ∧
        CarriedOut front document result ∧ operation.Meets result fault := by
  constructor
  · intro hrun
    induction changes generalizing document with
    | nil => exact absurd (Prod.mk.inj hrun).2.symm (Option.some_ne_none fault)
    | cons operation rest ih =>
      rw [run] at hrun
      cases happly : operation.apply document with
      | ok next =>
        rw [happly] at hrun
        obtain ⟨front, stopped, back, rfl, hfront, hmeets⟩ := ih hrun
        exact ⟨operation :: front, stopped, back, rfl, .cons happly hfront, hmeets⟩
      | error met =>
        rw [happly] at hrun
        obtain ⟨rfl, hfault⟩ := Prod.mk.inj hrun
        obtain rfl := Option.some.inj hfault
        exact ⟨[], operation, rest, rfl, .nil document, Operation.apply_eq_error_iff.mp happly⟩
  · rintro ⟨front, operation, back, rfl, hfront, hmeets⟩
    rw [run_append, run_eq_none_iff.mpr hfront]
    show run (operation :: back) result = (result, some fault)
    rw [run, hmeets.apply_eq]

theorem goOn_goOn (made : Json × Option Fault) (first second : Patch) :
    goOn (goOn made first) second = goOn made (first ++ second) := by
  obtain ⟨document, _ | fault⟩ := made
  · exact (run_append first second document).symm
  · rfl

/-- The fold goes on from what has been made so far as the whole patch would. -/
theorem foldl_goOn (changes : Patch) (made : Json × Option Fault) :
    changes.foldl (fun made operation ↦ goOn made [operation]) made = goOn made changes := by
  induction changes generalizing made with
  | nil => obtain ⟨document, _ | fault⟩ := made <;> rfl
  | cons operation rest ih => rw [List.foldl_cons, ih, goOn_goOn, List.singleton_append]

theorem apply_eq_ok_iff_carriedOut :
    apply changes document = .ok result ↔ CarriedOut changes document result := by
  rw [← run_eq_none_iff, apply]
  obtain ⟨made, _ | fault⟩ := run changes document <;> simp

end Runs

/-- What a patch does by its operations in order. -/
structure PrefixLaws (changes : Patch) (document : Json) : Prop where
  /-- A patch behind it goes on from the document it made, if it met no fault. -/
  append : ∀ next, run (changes ++ next) document = goOn (run changes document) next
  finished_iff : ∀ result, run changes document = (result, none) ↔
    CarriedOut changes document result
  /-- A fault is that of the first operation that does not apply, and the document left is that
  which the operations before it made, whatever stands behind it. -/
  stopped_iff : ∀ result fault, run changes document = (result, some fault) ↔
    ∃ front operation back, changes = front ++ operation :: back ∧
      CarriedOut front document result ∧ operation.Meets result fault
  oneByOne_eq : oneByOne changes document = run changes document
  applied_iff : ∀ result, apply changes document = .ok result ↔ CarriedOut changes document result

theorem run_prefixLaws (changes : Patch) (document : Json) : PrefixLaws changes document where
  append next := run_append changes next document
  finished_iff _ := run_eq_none_iff
  stopped_iff _ _ := run_eq_some_iff
  oneByOne_eq := foldl_goOn changes (document, none)
  applied_iff _ := apply_eq_ok_iff_carriedOut

/-- The middle one of three operations meets a fault, and only the first one is carried out. -/
example :
    run [replaceAt "/a" (.bool true), addAt "/a/0" .null, replaceAt "/a" .null]
        (.object [("a", .null)]) =
      (.object [("a", .bool true)], some (.noContainer "/a")) :=
  rfl

end Conform.Patch
