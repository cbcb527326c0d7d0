import Conform.Patch.Apply
import Conform.Service.Session

/-!
A model API in memory: documents by path, and failures that can be set for all its answers. A patch is
carried out on a copy, which is kept only if that meets no fault; a patch for an unknown path is
accepted and keeps nothing.
-/

set_option autoImplicit false

namespace Conform

structure Store where
  documents : List (String × Json) := []
  /-- What every GET fails with, if anything. -/
  getFailure : Option Failure := none
  /-- What every PATCH fails with, if anything. -/
  patchFailure : Option Failure := none

namespace Store

def document? (store : Store) (path : String) : Option Json :=
  Json.member? path store.documents

def insert (store : Store) (path : String) (document : Json) : Store :=
  { store with documents := Json.setMember path document store.documents }

def erase (store : Store) (path : String) : Store :=
  { store with documents := store.documents.filter (·.1 ≠ path) }

def get (path : String) (store : Store) : Except Failure Json × Store :=
  match store.getFailure with
  | some failure => (.error failure, store)
  | none =>
    match store.document? path with
    | some document => (.ok document, store)
    | none => (.error (.refused (Refusal.ofStatus 404 (some "Not Found"))), store)

def patch (path : String) (changes : Patch) (store : Store) : Except Failure Unit × Store :=
  match store.patchFailure with
  | some failure => (.error failure, store)
  | none =>
    match store.document? path with
    | none => (.ok (), store)
    | some document =>
      match Patch.apply changes document with
      | .ok next => (.ok (), store.insert path next)
      | .error fault => (.error (.structural fault), store)

def api : Api Store where
  get := get
  patch := patch

end Store
end Conform
