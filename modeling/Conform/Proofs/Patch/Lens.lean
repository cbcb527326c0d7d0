import Conform.Patch.Apply
import Conform.Proofs.Json.Resolution

/-!
Replacing as a lens. A patch of one replacement applies exactly if its pointer reads something, and
then the pointer reads the new value; no pointer that parts from it reads anything new, and the
containers on the way keep their frames. Replacing a value by itself changes nothing, and of two
replacements by one pointer the last one stays (`replace_lensLaws`).
-/

set_option autoImplicit false

namespace Conform.Patch

open Json Pointer

section Run

variable {document : Json} {path : String} {location : Location}

theorem run_replaceAt (hlocation : resolve? document path = some location) (value : Json)
    (rest : Patch) :
    run (replaceAt path value :: rest) document = run rest (document.put location value) := by
  rw [run, replaceAt, Operation.apply, replace, hlocation]

theorem run_replaceAt_of_none (hnone : resolve? document path = none) (value : Json)
    (rest : Patch) :
    run (replaceAt path value :: rest) document = (document, some (.missingTarget path)) := by
  rw [run, replaceAt, Operation.apply, replace, hnone]

end Run

/-- The laws of a lens for the replacements by one pointer in one document. -/
structure LensLaws (document : Json) (path : String) : Prop where
  /-- A replacement meets no fault exactly if the pointer reads something. -/
  applies_iff : ∀ value,
    (run [replaceAt path value] document).2 = none ↔ (read? document path).isSome
  /-- A replacement that fails names its target, and leaves the document as it is. -/
  failed : ∀ value, read? document path = none →
    run [replaceAt path value] document = (document, some (.missingTarget path))
  read_self : ∀ value, (run [replaceAt path value] document).2 = none →
    read? (run [replaceAt path value] document).1 path = some value
  read_parted : ∀ value other, Parted path other →
    read? (run [replaceAt path value] document).1 other = read? document other
  /-- Arrays on the way keep their length, and objects their names. -/
  onlyAt : ∀ value location, resolve? document path = some location →
    OnlyAt location document (run [replaceAt path value] document).1
  unchanged : ∀ value, read? document path = some value →
    run [replaceAt path value] document = (document, none)
  last_stays : ∀ value next,
    run [replaceAt path value, replaceAt path next] document = run [replaceAt path next] document
  /-- Pointers of the same tokens do the same. -/
  spelling : ∀ value other, tokens? other.toList = tokens? path.toList →
    read? document other = read? document path ∧
      (run [replaceAt other value] document).1 = (run [replaceAt path value] document).1 ∧
      ((run [replaceAt other value] document).2 = none ↔
        (run [replaceAt path value] document).2 = none)

section Laws

variable {document : Json} {path other : String}

theorem replaceAt_applies_iff (document : Json) (path : String) (value : Json) :
    (run [replaceAt path value] document).2 = none ↔ (read? document path).isSome := by
  cases hread : read? document path with
  | none => simp [run_replaceAt_of_none (resolve?_eq_none hread)]
  | some inner =>
    obtain ⟨location, hlocation, -⟩ := exists_resolve?_of_read? hread
    rw [run_replaceAt hlocation, run]
    simp

theorem read?_replaceAt_self {value : Json}
    (happlies : (run [replaceAt path value] document).2 = none) :
    read? (run [replaceAt path value] document).1 path = some value := by
  obtain ⟨inner, hread⟩ := Option.isSome_iff_exists.mp
    ((replaceAt_applies_iff document path value).mp happlies)
  obtain ⟨location, hlocation, -⟩ := exists_resolve?_of_read? hread
  rw [run_replaceAt hlocation]
  exact read?_put_self hlocation value

theorem read?_replaceAt_of_parted (hparted : Parted path other) (value : Json) :
    read? (run [replaceAt path value] document).1 other = read? document other := by
  cases hlocation : resolve? document path with
  | none => rw [run_replaceAt_of_none hlocation]
  | some location =>
    rw [run_replaceAt hlocation]
    exact read?_put_of_parted hlocation hparted value

theorem onlyAt_replaceAt {location : Location} (hlocation : resolve? document path = some location)
    (value : Json) : OnlyAt location document (run [replaceAt path value] document).1 := by
  obtain ⟨inner, hinner, -⟩ := exists_read?_of_resolve? hlocation
  rw [run_replaceAt hlocation]
  exact onlyAt_put hinner value

/-- Replacing a value by itself changes nothing. -/
theorem run_replaceAt_read? {value : Json} (hread : read? document path = some value) :
    run [replaceAt path value] document = (document, none) := by
  obtain ⟨location, hlocation, hvalue⟩ := exists_resolve?_of_read? hread
  rw [run_replaceAt hlocation, put_at? hvalue, run]

/-- Of two replacements by one pointer the last one stays. -/
theorem run_replaceAt_replaceAt (document : Json) (path : String) (value next : Json) :
    run [replaceAt path value, replaceAt path next] document =
      run [replaceAt path next] document := by
  cases hlocation : resolve? document path with
  | none => rw [run_replaceAt_of_none hlocation, run_replaceAt_of_none hlocation]
  | some location =>
    rw [run_replaceAt hlocation, run_replaceAt (resolve?_put hlocation value),
      run_replaceAt hlocation, put_put]

/-- Pointers of the same tokens do the same, but for the name of a missing target. -/
theorem run_replaceAt_congr (htokens : tokens? other.toList = tokens? path.toList)
    (document value : Json) :
    (run [replaceAt other value] document).1 = (run [replaceAt path value] document).1 ∧
      ((run [replaceAt other value] document).2 = none ↔
        (run [replaceAt path value] document).2 = none) := by
  have hresolve := resolve?_congr htokens document
  cases hlocation : resolve? document path with
  | none =>
    rw [run_replaceAt_of_none hlocation, run_replaceAt_of_none (hresolve.trans hlocation)]
    simp
  | some location =>
    rw [run_replaceAt hlocation, run_replaceAt (hresolve.trans hlocation)]
    exact ⟨rfl, .rfl⟩

end Laws

theorem replace_lensLaws (document : Json) (path : String) : LensLaws document path where
  applies_iff value := replaceAt_applies_iff document path value
  failed value hread := run_replaceAt_of_none (resolve?_eq_none hread) value []
  read_self _ happlies := read?_replaceAt_self happlies
  read_parted value _ hparted := read?_replaceAt_of_parted hparted value
  onlyAt value _ hlocation := onlyAt_replaceAt hlocation value
  unchanged _ hread := run_replaceAt_read? hread
  last_stays value next := run_replaceAt_replaceAt document path value next
  spelling value other htokens :=
    ⟨by rw [read?, resolve?_congr htokens, read?], run_replaceAt_congr htokens document value⟩

/-- Two spellings of one pointer, into a member that is named like a position and an escape. -/
example : tokens? "/0/~01~".toList = tokens? "/0/~01~0".toList := by
  decide

end Conform.Patch
