import Conform.Proofs.Patch.Lossless
import Conform.Proofs.Service.Interleaving
import Conform.Proofs.Service.Safety

/-!
Calls made again. The patch of a call, carried out on what it has made of a document, changes
nothing (`Patch.Settles`), and nothing that the call asks for is changed by it; so the same call made
again sends the same requests, comes to the same outcome and leaves the store as it is, at once and
any number of times (`Service.repeats_of_mem_reports`). A call that a failure has kept from being
applied leaves no trace, however often it is tried, and once the failures are gone comes to what it
would have come to without them (`Service.report_again`).
-/

set_option autoImplicit false

namespace Conform

/-! ### Patches carried out again -/

/-- What a patch makes of a document is not changed by the patch. -/
def Patch.Settles (changes : Patch) (document : Json) : Prop :=
  ∀ result, apply changes document = .ok result → apply changes result = .ok result

namespace Patch

theorem settles_ofEntity (record : Entity) (document : Json) :
    (ofEntity record).Settles document := by
  intro result hresult
  obtain ⟨hnodup, hplain⟩ := nodup_and_isPlain_entityFields record
  rw [ofEntity_eq] at hresult ⊢
  exact apply_ofFields_again hnodup hplain hresult

theorem settles_ofApplication (record : Application) (document : Json) :
    (ofApplication record).Settles document := by
  intro result hresult
  obtain ⟨hnodup, hplain⟩ := nodup_and_isPlain_applicationFields record
  rw [ofApplication_eq] at hresult ⊢
  exact apply_ofFields_again hnodup hplain hresult

/-- Assumes: the patch for a state machine that was built from this very document. -/
theorem settles_of_ofMachine? {states : List State} {document : Json} {changes : Patch}
    (hchanges : ofMachine? states document = some changes) : changes.Settles document := by
  obtain ⟨edits, rfl, hapart, hstands⟩ := exists_edits_of_ofMachine? hchanges
  exact fun result ↦ apply_ofEdits_again hapart hstands

end Patch

namespace Store

variable {store : Store} {path : String} {changes : Patch}

theorem document?_of_get {document : Json} (hget : (store.get path).1 = .ok document) :
    store.document? path = some document := by
  unfold get at hget
  cases hfailure : store.getFailure with
  | some failure => simp [hfailure] at hget
  | none =>
    cases hfound : store.document? path with
    | none => simp [hfailure, hfound] at hget
    | some found =>
      simp only [hfailure, hfound, Except.ok.injEq] at hget
      rw [hget]

theorem insert_insert (store : Store) (path : String) (old new : Json) :
    (store.insert path old).insert path new = store.insert path new := by
  simp only [insert, Json.setMember_setMember]

/-- A PATCH sent again is answered in the same way and leaves the store as it is. -/
theorem patch_again
    (hsettles : ∀ document, store.document? path = some document → changes.Settles document) :
    (store.patch path changes).2.patch path changes = store.patch path changes := by
  cases hfailure : store.patchFailure with
  | some failure => simp only [patch, hfailure]
  | none =>
    cases hold : store.document? path with
    | none => simp only [patch, hfailure, hold]
    | some old =>
      cases happly : Patch.apply changes old with
      | error fault => simp only [patch, hfailure, hold, happly]
      | ok new =>
        have hagain := hsettles old hold new happly
        have hsame : (store.insert path new).patchFailure = none := hfailure
        simp only [patch, hfailure, hold, happly, hsame, document?_insert_self, hagain,
          insert_insert]

end Store

/-! ### Sessions run again -/

namespace Session

variable {α σ τ : Type} {api : Api σ} {seen : σ → τ} {session : Session α} {state : σ}

/-- A session with at most one patch left, which sent again from a state changes nothing. -/
inductive Settles (api : Api σ) (state : σ) : Session α → Prop
  | done (result : α) : Settles api state (.done result)
  | patch (path : String) (changes : Patch) {next : Except Failure Unit → Session α}
    (hdone : ∀ answer, ∃ result, next answer = .done result)
    (hagain : api.patch path changes (api.patch path changes state).2 =
      api.patch path changes state) : Settles api state (.patch path changes next)

theorem Settles.run_again (hsettles : Settles api state session) :
    session.run api (session.run api state).2.2 = session.run api state := by
  cases hsettles with
  | done result => rfl
  | @patch path changes next hdone hagain =>
    obtain ⟨result, hnext⟩ := hdone (api.patch path changes state).1
    simp only [run, hnext, hagain]

/-- A steady session that settles once its question is answered comes to the same again. -/
theorem IsSteady.run_again (hsteady : IsSteady api seen session)
    (hsettles : Settles api state (session.settled api state)) :
    session.run api (session.run api state).2.2 = session.run api state := by
  obtain ⟨result, requests, final, hlast⟩ : ∃ result requests final,
      (session.settled api state).run api state = (result, requests, final) := ⟨_, _, _, rfl⟩
  have hfirst := hsteady.run_eq rfl hlast
  -- What is seen is kept by the first run, so the question is answered alike the second time.
  have hseen : seen final = seen state := by
    have hkept := (hsteady.isLast_settled state).seen_run state
    rwa [hlast] at hkept
  have hagain : (session.settled api state).run api final = (result, requests, final) := by
    have hsame := hsettles.run_again
    rwa [hlast] at hsame
  rw [hfirst, hsteady.run_eq hseen hagain]

end Session

/-! ### Calls made again -/

/-- The report of a call and that of one made later, which finds another store and comes to the
same. -/
structure Report.Repeats (first again : Report) : Prop where
  outcome : again.outcome = first.outcome
  requests : again.requests = first.requests
  after : again.after = first.after

namespace Service

open Session

section Again

variable {store : Store}

theorem settles_send {path : String} {changes : Patch}
    (hsettles : ∀ document, store.document? path = some document → changes.Settles document) :
    (send path changes).Settles Store.api store := by
  unfold send
  split
  · exact .done _
  · refine .patch path changes (fun answer ↦ ?_) (Store.patch_again hsettles)
    cases answer <;> exact ⟨_, rfl⟩

theorem settled_send (path : String) (changes : Patch) :
    (send path changes).settled Store.api store = send path changes := by
  unfold send
  split <;> rfl

theorem settles_fetch {path : String} {next : Json → Session Outcome}
    (hnext : ∀ document, store.document? path = some document →
      (next document).Settles Store.api store) :
    ((fetch path next).settled Store.api store).Settles Store.api store := by
  rw [fetch, settled]
  cases hget : (Store.api.get path store).1 with
  | error failure => exact .done _
  | ok document => exact hnext document (Store.document?_of_get hget)

theorem settles_session (service : Service) (call : Call) (store : Store) :
    ((service.session call).settled Store.api store).Settles Store.api store := by
  cases call with
  | application entity record =>
    rw [session, replaceApplication, settled_send]
    exact settles_send fun document _ ↦ Patch.settles_ofApplication record document
  | states entity record =>
    refine settles_fetch fun document hdocument ↦ ?_
    split_ifs
    · exact .done _
    · exact .done _
    · cases hchanges : Patch.ofMachine? record document with
      | none => exact .done _
      | some changes =>
        -- The document that the patch was built from is the one that it is carried out on.
        refine settles_send fun found hfound ↦ ?_
        rw [hdocument, Option.some.injEq] at hfound
        exact hfound ▸ Patch.settles_of_ofMachine? hchanges
  | entity entity record =>
    refine settles_fetch fun document _ ↦ ?_
    cases Document.instanceOf? document with
    | none => exact .done _
    | some kind => exact settles_send fun found _ ↦ Patch.settles_ofEntity record found

theorem repeats_report (service : Service) (call : Call) (store : Store) :
    (service.report call store).Repeats
      (service.report call (service.report call store).after) := by
  have hagain := (service.isSteady_session call).run_again (service.settles_session call store)
  exact ⟨congrArg (·.1) hagain, congrArg (·.2.1) hagain, congrArg (·.2.2) hagain⟩

/-- Assumes: a call made any number of times after the first one. -/
theorem repeats_of_mem_reports {service : Service} {call : Call} {times : Nat} {report : Report}
    (hmem : report ∈ Store.reports (List.replicate times (.call service call))
      (service.report call store).after) : (service.report call store).Repeats report := by
  have hrepeats := service.repeats_report call store
  induction times with
  | zero => cases hmem
  | succ times ih =>
    rw [List.replicate_succ, Store.reports, List.mem_cons, Store.step, hrepeats.after] at hmem
    rcases hmem with rfl | hrest
    · exact hrepeats
    · exact ih hrest

end Again

/-! ### Calls tried again -/

/-- A call tried again and again, each time with other failures of GET and PATCH. -/
def attempts (service : Service) (call : Call)
    (failures : List (Option Failure × Option Failure)) : List Store.Step :=
  failures.flatMap fun failure ↦ [.fail failure.1 failure.2, .call service call]

/-- Assumes: attempts of which none is applied. But for the failures that are set they leave the
store as it was. -/
theorem fail_run_attempts {service : Service} {call : Call}
    {failures : List (Option Failure × Option Failure)} {store : Store}
    (hnever : ∀ report ∈ Store.reports (service.attempts call failures) store,
      ∀ count, report.outcome ≠ .applied count) (get patch : Option Failure) :
    (store.run (service.attempts call failures)).step (.fail get patch) =
      store.step (.fail get patch) := by
  induction failures generalizing store with
  | nil => rfl
  | cons failure rest ih =>
    have hreports : Store.reports (service.attempts call (failure :: rest)) store =
        service.report call (store.step (.fail failure.1 failure.2)) ::
          Store.reports (service.attempts call rest)
            ((store.step (.fail failure.1 failure.2)).step (.call service call)) := rfl
    rw [hreports, List.forall_mem_cons] at hnever
    have hkept : (store.step (.fail failure.1 failure.2)).step (.call service call) =
        store.step (.fail failure.1 failure.2) :=
      (service.safe_report call _).kept hnever.1
    rw [hkept] at hnever
    have hrun : store.run (service.attempts call (failure :: rest)) =
        (store.step (.fail failure.1 failure.2)).run (service.attempts call rest) :=
      congrArg (Store.run · (service.attempts call rest)) hkept
    rw [hrun]
    exact ih hnever.2

/-- Whatever a store holds and fails with, a call of any kind that is made again at once sends the
same requests, comes to the same outcome and leaves the store as the first one left it. A call that
is not applied while failures are set, once or several times, comes to the same after the failures
are cleared, or others are set, as if it had not been tried before. -/
theorem report_again (service : Service) (call : Call) (store : Store) :
    (service.report call store).Repeats
      (service.report call (service.report call store).after) ∧
    ∀ failures, (∀ report ∈ Store.reports (service.attempts call failures) store,
        ∀ count, report.outcome ≠ .applied count) →
      ∀ get patch,
        service.report call
          ((store.run (service.attempts call failures)).step (.fail get patch)) =
        service.report call (store.step (.fail get patch)) :=
  ⟨service.repeats_report call store, fun _ hnever get patch ↦
    congrArg (service.report call) (fail_run_attempts hnever get patch)⟩

def orderStore : Store where
  documents := [("/api/v1/acme/PRD/model/StateMachine/Order",
    .object [("name", .string "Order"), ("states", .array
      [.object [("name", .string "Draft"), ("assignToExpression", .string "")]])])]

/-- The first attempt meets a failure of GET, the second one of PATCH. -/
theorem report_again_attempts :
    let service : Service := ⟨"acme", "PRD"⟩
    let call := Call.states "Order" [{ name := "Draft", assignTo := "first" }]
    let closed := some (Failure.transport "closed")
    let steps := service.attempts call [(closed, none), (none, closed)]
    (Store.reports steps orderStore).map Report.outcome =
        [.noMatchingMetadata, .rejected (Failure.transport "closed").asRefusal] ∧
      service.report call ((orderStore.run steps).step (.fail none none)) =
        service.report call orderStore ∧
      (service.report call orderStore).outcome = .applied 1 ∧
      (service.report call (service.report call orderStore).after).after =
        (service.report call orderStore).after := by
  intro service call closed steps
  have houtcomes : (Store.reports steps orderStore).map Report.outcome =
      [.noMatchingMetadata, .rejected (Failure.transport "closed").asRefusal] := by decide
  obtain ⟨hagain, hretried⟩ := service.report_again call orderStore
  refine ⟨houtcomes, hretried _ (fun report hmem count happlied ↦ ?_) none none, by decide,
    hagain.after⟩
  have houtcome := List.mem_map_of_mem (f := Report.outcome) hmem
  rw [houtcomes, happlied] at houtcome
  simp at houtcome

end Service
end Conform
