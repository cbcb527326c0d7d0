import Conform.Proofs.Json.Location
import Conform.Service.Store

/-!
What a store does with a request. A GET leaves it as it is. A PATCH goes one of four ways: it is
carried out whole on the document at its path, it has no document to be carried out on, it meets a
fault in the document, or the store fails all patches; only the first one leaves another store
(`Store.patched_patch`).
-/

set_option autoImplicit false

namespace Conform.Store

variable {store : Store} {path other : String} {changes : Patch} {document old new : Json}

@[simp] theorem document?_insert_self (store : Store) (path : String) (document : Json) :
    (store.insert path document).document? path = some document :=
  Json.member?_setMember_self ..

theorem document?_insert_of_ne (hne : other ≠ path) (store : Store) (document : Json) :
    (store.insert path document).document? other = store.document? other :=
  Json.member?_setMember_of_ne hne ..

theorem get_snd (path : String) (store : Store) : (store.get path).2 = store := by
  unfold get
  cases store.getFailure with
  | some failure => rfl
  | none => cases store.document? path <;> rfl

/-- The ways a PATCH goes: what it is answered, and the store it leaves. -/
inductive Patched (store : Store) (path : String) (changes : Patch) :
    Except Failure Unit → Store → Prop
  | failing (failure : Failure) (hfailure : store.patchFailure = some failure) :
    Patched store path changes (.error failure) store
  | unknown (hfailure : store.patchFailure = none) (hunknown : store.document? path = none) :
    Patched store path changes (.ok ()) store
  | faulty {old : Json} (fault : Fault) (hfailure : store.patchFailure = none)
    (hold : store.document? path = some old) (happly : Patch.apply changes old = .error fault) :
    Patched store path changes (.error (.structural fault)) store
  | kept {old new : Json} (hfailure : store.patchFailure = none)
    (hold : store.document? path = some old) (happly : Patch.apply changes old = .ok new) :
    Patched store path changes (.ok ()) (store.insert path new)

theorem patched_patch (store : Store) (path : String) (changes : Patch) :
    Patched store path changes (store.patch path changes).1 (store.patch path changes).2 := by
  unfold patch
  cases hfailure : store.patchFailure with
  | some failure => exact .failing failure hfailure
  | none =>
    cases hold : store.document? path with
    | none => exact .unknown hfailure hold
    | some old =>
      simp only
      cases happly : Patch.apply changes old with
      | ok new => exact .kept hfailure hold happly
      | error fault => exact .faulty fault hfailure hold happly

variable {final : Store}

theorem Patched.of_error {failure : Failure}
    (hpatched : store.Patched path changes (.error failure) final) :
    final = store ∧ (store.patchFailure = none → ∀ old, store.document? path = some old →
      ∃ fault, Patch.apply changes old = .error fault) := by
  cases hpatched with
  | failing _ hfailure => exact ⟨rfl, fun hnone ↦ by simp [hfailure] at hnone⟩
  | faulty fault _ hold happly =>
    refine ⟨rfl, fun _ found hfound ↦ ⟨fault, ?_⟩⟩
    rw [hold, Option.some.injEq] at hfound
    rw [← hfound, happly]

theorem Patched.of_ok (hpatched : store.Patched path changes (.ok ()) final) :
    (store.document? path = none ∧ final = store) ∨
      ∃ old new, store.document? path = some old ∧ Patch.apply changes old = .ok new ∧
        final = store.insert path new := by
  cases hpatched with
  | unknown _ hunknown => exact .inl ⟨hunknown, rfl⟩
  | @kept old new _ hold happly => exact .inr ⟨old, new, hold, happly, rfl⟩

end Conform.Store
