import Conform.Proofs.Service.Exchange
import Conform.Proofs.Service.Store

/-!
Runs of a store. Others put and remove documents, failures are set and cleared, and services make
their calls, in any order. A call that is not applied leaves the store as it was, and one that is
applied has carried its one patch out whole (`Report.Safe`): the half of a patch that was carried
out before a fault is never seen, neither after one call nor in a run of any length
(`Store.safe_of_mem_reports`). So the documents at the end of a run are what its puts, its removes
and the patches it accepted come to by themselves (`Store.documents_run`).
-/

set_option autoImplicit false

namespace Conform

/-! ### Exchanges and the states they lead to -/

section Leads

variable {α σ : Type}

/-- Answered requests that lead an API from one state to another. -/
inductive Leads (api : Api σ) : List Event → σ → σ → Prop
  | nil (state : σ) : Leads api [] state state
  | got {path : String} {rest : List Event} {state final : σ}
    (hrest : Leads api rest (api.get path state).2 final) :
    Leads api (.got path (api.get path state).1 :: rest) state final
  | patched {path : String} {changes : Patch} {rest : List Event} {state final : σ}
    (hrest : Leads api rest (api.patch path changes state).2 final) :
    Leads api (.patched path changes (api.patch path changes state).1 :: rest) state final

theorem leads_events (api : Api σ) (session : Session α) (state : σ) :
    Leads api (session.events api state) state (session.run api state).2.2 := by
  induction session generalizing state with
  | done result => exact .nil state
  | get path next ih => exact .got (ih _ _)
  | patch path changes next ih => exact .patched (ih _ _)

theorem Leads.of_got {api : Api σ} {path : String} {answer : Except Failure Json}
    {rest : List Event} {state final : σ}
    (hleads : Leads api (.got path answer :: rest) state final) :
    Leads api rest (api.get path state).2 final := by
  cases hleads with
  | got hrest => exact hrest

/-- Questions to a store leave it as it is. -/
theorem Leads.of_gets {gets rest : List Event} {store final : Store}
    (hgets : gets = [] ∨ ∃ path answer, gets = [.got path answer])
    (hleads : Leads Store.api (gets ++ rest) store final) : Leads Store.api rest store final := by
  rcases hgets with rfl | ⟨path, answer, rfl⟩
  · exact hleads
  · have hrest := Leads.of_got hleads
    have hsame : (Store.api.get path store).2 = store := store.get_snd path
    rwa [hsame] at hrest

theorem Leads.eq_of_nil {api : Api σ} {state final : σ} (hleads : Leads api [] state final) :
    final = state := by
  cases hleads
  rfl

theorem Leads.patched_of_singleton {path : String} {changes : Patch} {store final : Store}
    {answer : Except Failure Unit} (hleads : Leads Store.api [.patched path changes answer]
      store final) : store.Patched path changes answer final := by
  cases hleads with
  | patched hrest =>
    rw [hrest.eq_of_nil]
    exact store.patched_patch path changes

end Leads

/-! ### Reports -/

/-- The path and the changes of a PATCH. -/
def Request.patch? : Request → Option (String × Patch)
  | get _ => none
  | patch path changes => some (path, changes)

/-- What a call to a store came to. -/
structure Report where
  before : Store
  outcome : Outcome
  requests : List Request
  after : Store

/-- The patches that a call sent, with their paths. -/
def Report.patches (report : Report) : List (String × Patch) :=
  report.requests.filterMap Request.patch?

def Service.report (service : Service) (call : Call) (store : Store) : Report :=
  let (outcome, requests, after) := (service.session call).run Store.api store
  ⟨store, outcome, requests, after⟩

/-- What a call does to a store: all of its patch, or nothing. -/
structure Report.Safe (report : Report) : Prop where
  /-- A call that is not applied leaves the store as it was. -/
  kept : (∀ count, report.outcome ≠ .applied count) → report.after = report.before
  /-- A call that is applied has sent one patch. If there is a document at its path the patch has
  been carried out on it without a fault; all else is as it was. -/
  applied : ∀ count, report.outcome = .applied count → ∃ path changes,
    report.patches = [(path, changes)] ∧ changes.length = count ∧
    (∀ other, other ≠ path → report.after.document? other = report.before.document? other) ∧
    match report.before.document? path with
    | none => report.after = report.before
    | some old => ∃ new, Patch.apply changes old = .ok new ∧
        report.after = report.before.insert path new
  /-- A patch for a document in the store is applied if and only if it meets no fault. -/
  applied_iff : ∀ path changes old, (path, changes) ∈ report.patches →
    report.before.patchFailure = none → report.before.document? path = some old →
    ((∃ count, report.outcome = .applied count) ↔ ∃ new, Patch.apply changes old = .ok new)

section Safe

variable {report : Report} {path : String} {changes : Patch}

/-- Assumes: a call with one patch, which was accepted. -/
theorem Report.safe_of_accepted (houtcome : report.outcome = .applied changes.length)
    (hpatches : report.patches = [(path, changes)])
    (hpatched : report.before.Patched path changes (.ok ()) report.after) : report.Safe where
  kept := fun hnever ↦ absurd houtcome (hnever _)
  applied := by
    intro count hcount
    rw [houtcome, Outcome.applied.injEq] at hcount
    refine ⟨path, changes, hpatches, hcount, ?_⟩
    rcases hpatched.of_ok with ⟨hunknown, hafter⟩ | ⟨old, new, hold, happly, hafter⟩
    · rw [hunknown, hafter]
      exact ⟨fun _ _ ↦ rfl, rfl⟩
    · rw [hold, hafter]
      exact ⟨fun other hother ↦ Store.document?_insert_of_ne hother _ _, new, happly, rfl⟩
  applied_iff := by
    intro other others old hmem _ hold
    rw [hpatches, List.mem_singleton, Prod.mk.injEq] at hmem
    obtain ⟨rfl, rfl⟩ := hmem
    refine iff_of_true ⟨_, houtcome⟩ ?_
    rcases hpatched.of_ok with ⟨hunknown, -⟩ | ⟨found, new, hfound, happly, -⟩
    · rw [hold] at hunknown
      contradiction
    · rw [hold, Option.some.injEq] at hfound
      exact ⟨new, hfound ▸ happly⟩

/-- Assumes: a call with one patch, which was refused. -/
theorem Report.safe_of_refused {refusal : Refusal} {failure : Failure}
    (houtcome : report.outcome = .rejected refusal)
    (hpatches : report.patches = [(path, changes)])
    (hpatched : report.before.Patched path changes (.error failure) report.after) :
    report.Safe where
  kept := fun _ ↦ hpatched.of_error.1
  applied := by
    intro count hcount
    rw [houtcome] at hcount
    contradiction
  applied_iff := by
    intro other others old hmem hfailure hold
    rw [hpatches, List.mem_singleton, Prod.mk.injEq] at hmem
    obtain ⟨rfl, rfl⟩ := hmem
    refine iff_of_false (by simp [houtcome]) ?_
    rintro ⟨new, happly⟩
    obtain ⟨fault, hfault⟩ := hpatched.of_error.2 hfailure old hold
    rw [happly] at hfault
    contradiction

/-- Assumes: a call without a patch, which left the store as it was. -/
theorem Report.safe_of_silent
    (houtcome : report.outcome = .unchanged ∨ report.outcome = .noMatchingMetadata)
    (hpatches : report.patches = []) (hafter : report.after = report.before) : report.Safe where
  kept := fun _ ↦ hafter
  applied := by
    intro count hcount
    rcases houtcome with h | h <;> rw [h] at hcount <;> contradiction
  applied_iff := by
    intro path changes old hmem
    rw [hpatches] at hmem
    cases hmem

end Safe

/-- Whatever a service is called with, and whatever the store holds and fails with. -/
theorem Service.safe_report (service : Service) (call : Call) (store : Store) :
    (service.report call store).Safe := by
  have hleads := leads_events Store.api (service.session call) store
  have hrequests : _ = (service.report call store).requests :=
    Session.map_request_events Store.api (service.session call) store
  have haccounts := (exchanged_session Store.api store service call).accounts
  obtain ⟨gets, patches, hevents, hgets, hpatches⟩ := haccounts.order
  have hsent : (service.report call store).patches =
      (patches.map Event.request).filterMap Request.patch? := by
    rw [Report.patches, ← hrequests, hevents, List.map_append, List.filterMap_append]
    rcases hgets with rfl | ⟨path, answer, rfl⟩ <;> rfl
  rw [hevents] at hleads
  rcases hpatches with rfl | ⟨path, changes, answer, rfl⟩
  · have hsilent : ∀ path changes answer,
        .patched path changes answer ∉ (service.session call).events Store.api store := by
      rw [hevents, List.append_nil]
      exact patched_notMem_gets hgets
    exact Report.safe_of_silent (haccounts.silent_iff.mpr hsilent) hsent
      (hleads.of_gets hgets).eq_of_nil
  · have hpatched := (hleads.of_gets hgets).patched_of_singleton
    have hmem : .patched path changes answer ∈
        (service.session call).events Store.api store := by
      rw [hevents]
      exact List.mem_append_right _ List.mem_cons_self
    cases answer with
    | ok _ =>
      have houtcome := (haccounts.applied_iff changes.length).mpr ⟨path, changes, hmem, rfl⟩
      exact Report.safe_of_accepted houtcome hsent hpatched
    | error failure =>
      have houtcome := (haccounts.rejected_iff failure.asRefusal).mpr
        ⟨path, changes, failure, hmem, tells_asRefusal_iff.mpr rfl⟩
      exact Report.safe_of_refused houtcome hsent hpatched

/-! ### Edits -/

/-- A change of the documents that is made as a whole. -/
inductive Edit where
  | put (path : String) (document : Json)
  | remove (path : String)
  | patched (path : String) (changes : Patch)

/-- Documents after an edit. A patch with a fault, or for no document, leaves them as they are. -/
def Edit.carryOut (documents : List (String × Json)) : Edit → List (String × Json)
  | put path document => Json.setMember path document documents
  | remove path => documents.filter (·.1 ≠ path)
  | patched path changes =>
    match (Json.member? path documents).bind fun old ↦ (Patch.apply changes old).toOption with
    | some new => Json.setMember path new documents
    | none => documents

/-- The edits that a call comes to: its patch, if it is applied. -/
def Report.edits (report : Report) : List Edit :=
  match report.outcome with
  | .applied _ => report.patches.map fun (path, changes) ↦ .patched path changes
  | _ => []

theorem Report.Safe.documents_after {report : Report} (hsafe : report.Safe) :
    report.after.documents = report.edits.foldl Edit.carryOut report.before.documents := by
  unfold Report.edits
  cases houtcome : report.outcome with
  | applied count =>
    obtain ⟨path, changes, hpatches, -, -, hafter⟩ := hsafe.applied count houtcome
    have hdocument : Json.member? path report.before.documents = report.before.document? path := rfl
    simp only [hpatches, List.map_cons, List.map_nil, List.foldl_cons, List.foldl_nil,
      Edit.carryOut, hdocument]
    cases hold : report.before.document? path with
    | none =>
      rw [hold] at hafter
      rw [hafter]
      rfl
    | some old =>
      rw [hold] at hafter
      obtain ⟨new, happly, hafter⟩ := hafter
      rw [hafter, Option.bind_some, happly]
      rfl
  | _ => rw [hsafe.kept (by simp [houtcome]), List.foldl_nil]

/-! ### Runs -/

namespace Store

/-- A step of a run: others put and remove documents and set what requests fail with, and services
make their calls. -/
inductive Step where
  | put (path : String) (document : Json)
  | remove (path : String)
  | fail (get patch : Option Failure)
  | call (service : Service) (record : Call)

/-- The store after a step. -/
def step (store : Store) : Step → Store
  | .put path document => store.insert path document
  | .remove path => store.erase path
  | .fail get patch => { store with getFailure := get, patchFailure := patch }
  | .call service record => (service.report record store).after

def run (store : Store) (steps : List Step) : Store :=
  steps.foldl step store

/-- The reports of the calls of a run, in order. -/
def reports : List Step → Store → List Report
  | [], _ => []
  | .call service record :: rest, store =>
    service.report record store :: reports rest (store.step (.call service record))
  | other :: rest, store => reports rest (store.step other)

def Step.edits (store : Store) : Step → List Edit
  | put path document => [.put path document]
  | remove path => [.remove path]
  | fail _ _ => []
  | call service record => (service.report record store).edits

def edits : List Step → Store → List Edit
  | [], _ => []
  | step :: rest, store => step.edits store ++ edits rest (store.step step)

theorem documents_step (store : Store) (step : Step) :
    (store.step step).documents = (step.edits store).foldl Edit.carryOut store.documents := by
  cases step with
  | put path document => rfl
  | remove path => rfl
  | fail get patch => rfl
  | call service record => exact (service.safe_report record store).documents_after

/-- The documents that a run leaves are those that its puts, its removes and the patches it accepted
leave, with the failures and the rejected patches of the run left out. -/
theorem documents_run (store : Store) (steps : List Step) :
    (store.run steps).documents = (edits steps store).foldl Edit.carryOut store.documents := by
  induction steps generalizing store with
  | nil => rfl
  | cons step rest ih =>
    rw [edits, List.foldl_append, ← documents_step]
    exact ih (store.step step)

/-- Assumes: a call of a run, from any store and with any steps. It has left every document as it
was, or has carried its one patch out whole. -/
theorem safe_of_mem_reports {steps : List Step} {store : Store} {report : Report}
    (hmem : report ∈ reports steps store) : report.Safe := by
  induction steps generalizing store with
  | nil => cases hmem
  | cons step rest ih =>
    cases step with
    | call service record =>
      rw [reports, List.mem_cons] at hmem
      rcases hmem with rfl | hrest
      · exact service.safe_report record store
      · exact ih hrest
    | _ => exact ih hmem

/-- An application document without the imports that a patch replaces after the expression. -/
def partialDocument : Json :=
  .object [("expression", .string "old();")]

/-- A call whose patch meets a fault after its first operation, in a run in which the missing part
is put in later. -/
def partialSteps : List Step :=
  let service : Service := ⟨"acme", "PRD"⟩
  let path := service.modelPath "ApplicationBehaviour/Order"
  let call := Step.call service (.application "Order" ⟨"Sales", "", "", "new();", ["Prices"]⟩)
  [.put path partialDocument, call, .fail none (some (.transport "closed")), call,
    .fail none none,
    .put path (.object [("expression", .string "old();"), ("behaviourNamespaces", .array [])]),
    call]

theorem safe_of_mem_reports_partial :
    (reports partialSteps {}).map Report.outcome =
        [.rejected (Failure.structural (.missingTarget "/behaviourNamespaces")).asRefusal,
          .rejected (Failure.transport "closed").asRefusal, .applied 2] ∧
      ∀ report ∈ reports partialSteps {}, report.Safe :=
  ⟨by decide, fun _ hmem ↦ safe_of_mem_reports hmem⟩

end Store
end Conform
