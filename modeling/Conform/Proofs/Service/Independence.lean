import Conform.Proofs.Service.Safety

/-!
Calls for different definitions. At an API whose requests for different paths go the same in either
order, so do sessions that never ask for the same path (`Session.run_comm`). A store is such an API,
since a patch only changes the document at its own path. All that a call asks for, whatever it is
answered, ends in the name of its definition behind a slash; so calls for different names without a
slash never meet, and come to the same in either order (`Service.report_comm`).
-/

set_option autoImplicit false

namespace Conform

variable {α β σ : Type}

/-! ### Sessions that never meet -/

/-- The answer to a request, and the state it leaves. -/
def Api.answer (api : Api σ) : Request → σ → Event × σ
  | .get path, state => (.got path (api.get path state).1, (api.get path state).2)
  | .patch path changes, state =>
    (.patched path changes (api.patch path changes state).1, (api.patch path changes state).2)

/-- One request is answered the same after the other, and they lead to the same state in either
order. -/
structure Api.Commutes (api : Api σ) (request other : Request) (state : σ) : Prop where
  answer_eq : (api.answer request (api.answer other state).2).1 = (api.answer request state).1
  state_eq : (api.answer request (api.answer other state).2).2 =
    (api.answer other (api.answer request state).2).2

/-- Requests for different paths go the same in either order. -/
def Api.IsSeparable (api : Api σ) : Prop :=
  ∀ (request other : Request) (state : σ), request.path ≠ other.path →
    api.Commutes request other state

namespace Session

/-- All that a session asks for, whatever it is answered, is at such paths. -/
inductive Within (reach : String → Prop) : Session α → Prop
  | done (result : α) : Within reach (done result)
  | get {path : String} {next : Except Failure Json → Session α} (hpath : reach path)
    (hnext : ∀ answer, Within reach (next answer)) : Within reach (get path next)
  | patch {path : String} {changes : Patch} {next : Except Failure Unit → Session α}
    (hpath : reach path) (hnext : ∀ answer, Within reach (next answer)) :
    Within reach (patch path changes next)

variable {api : Api σ} {reach other : String → Prop} {session : Session α}

/-- A request for a path out of reach is answered the same before and after a session, and the
session comes to the same before and after it. -/
theorem Within.run_answer (hapart : api.IsSeparable) (hwithin : session.Within reach)
    (request : Request) (hrequest : ¬ reach request.path) (state : σ) :
    session.run api (api.answer request state).2 =
        ((session.run api state).1, (session.run api state).2.1,
          (api.answer request (session.run api state).2.2).2) ∧
      (api.answer request (session.run api state).2.2).1 = (api.answer request state).1 := by
  induction hwithin generalizing state with
  | done result => exact ⟨rfl, rfl⟩
  | @get path next hpath _ ih =>
    have hne : request.path ≠ path := fun heq ↦ hrequest (heq ▸ hpath)
    obtain ⟨hanswer, hstate⟩ := hapart (.get path) request state hne.symm
    obtain ⟨hrun, hlater⟩ := ih (api.get path state).1 (api.get path state).2
    have hsame : (api.get path (api.answer request state).2).1 = (api.get path state).1 :=
      (Event.got.inj hanswer).2
    refine ⟨?_, hlater.trans (hapart request (.get path) state hne).answer_eq⟩
    simp only [run, hsame, show (api.get path (api.answer request state).2).2 =
      (api.answer request (api.get path state).2).2 from hstate, hrun]
  | @patch path changes next hpath _ ih =>
    have hne : request.path ≠ path := fun heq ↦ hrequest (heq ▸ hpath)
    obtain ⟨hanswer, hstate⟩ := hapart (.patch path changes) request state hne.symm
    obtain ⟨hrun, hlater⟩ := ih (api.patch path changes state).1 (api.patch path changes state).2
    have hsame : (api.patch path changes (api.answer request state).2).1 =
        (api.patch path changes state).1 := (Event.patched.inj hanswer).2.2
    refine ⟨?_, hlater.trans (hapart request (.patch path changes) state hne).answer_eq⟩
    simp only [run, hsame, show (api.patch path changes (api.answer request state).2).2 =
      (api.answer request (api.patch path changes state).2).2 from hstate, hrun]

/-- A session comes to the same after one that it never meets, and they lead to the same state in
either order. -/
theorem Within.run_comm (hapart : api.IsSeparable) {later : Session β}
    (hlater : later.Within other) (hwithin : session.Within reach)
    (hreach : ∀ path, other path → ¬ reach path) (state : σ) :
    later.run api (session.run api state).2.2 =
      ((later.run api state).1, (later.run api state).2.1,
        (session.run api (later.run api state).2.2).2.2) := by
  induction hlater generalizing state with
  | done result => rfl
  | @get path next hpath _ ih =>
    obtain ⟨hrun, hanswer⟩ := hwithin.run_answer hapart (.get path)
      (hreach path hpath) state
    have hsame : (api.get path (session.run api state).2.2).1 = (api.get path state).1 :=
      (Event.got.inj hanswer).2
    have hstate : (api.get path (session.run api state).2.2).2 =
        (session.run api (api.get path state).2).2.2 := (congrArg (·.2.2) hrun).symm
    simp only [run, hsame, hstate, ih]
  | @patch path changes next hpath _ ih =>
    obtain ⟨hrun, hanswer⟩ := hwithin.run_answer hapart (.patch path changes)
      (hreach path hpath) state
    have hsame : (api.patch path changes (session.run api state).2.2).1 =
        (api.patch path changes state).1 := (Event.patched.inj hanswer).2.2
    have hstate : (api.patch path changes (session.run api state).2.2).2 =
        (session.run api (api.patch path changes state).2).2.2 := (congrArg (·.2.2) hrun).symm
    simp only [run, hsame, hstate, ih]

end Session

/-! ### Stores -/

namespace Store

variable {store final : Store} {path other : String} {changes others : Patch}

/-- What a patch leaves of the rest of a store. -/
theorem Patched.rest_eq {answer : Except Failure Unit}
    (hpatched : store.Patched path changes answer final) (hne : other ≠ path) :
    final.document? other = store.document? other ∧ final.getFailure = store.getFailure ∧
      final.patchFailure = store.patchFailure := by
  cases hpatched with
  | kept => exact ⟨document?_insert_of_ne hne _ _, rfl, rfl⟩
  | _ => exact ⟨rfl, rfl, rfl⟩

theorem get_fst_patch (hne : other ≠ path) (store : Store) (changes : Patch) :
    ((store.patch path changes).2.get other).1 = (store.get other).1 := by
  obtain ⟨hdocument, hfailure, -⟩ := (store.patched_patch path changes).rest_eq hne
  unfold get
  rw [hfailure, hdocument]
  cases store.getFailure with
  | some failure => rfl
  | none => cases store.document? other <;> rfl

theorem patch_fst_patch (hne : other ≠ path) (store : Store) (changes others : Patch) :
    ((store.patch path changes).2.patch other others).1 = (store.patch other others).1 := by
  obtain ⟨hdocument, -, hfailure⟩ := (store.patched_patch path changes).rest_eq hne
  unfold patch at hdocument hfailure ⊢
  rw [hfailure, hdocument]
  cases store.patchFailure with
  | some failure => rfl
  | none =>
    cases store.document? other with
    | none => rfl
    | some old => cases happly : Patch.apply others old <;> simp only [happly]

/-- The document that a patch puts at its path, if it puts one there. -/
def patched? (store : Store) (path : String) (changes : Patch) : Option Json :=
  match store.patchFailure with
  | some _ => none
  | none => (store.document? path).bind fun old ↦ (Patch.apply changes old).toOption

theorem patch_snd (store : Store) (path : String) (changes : Patch) :
    (store.patch path changes).2 = ((store.patched? path changes).map (store.insert path)).getD
      store := by
  unfold patch patched?
  cases store.patchFailure with
  | some failure => rfl
  | none =>
    cases store.document? path with
    | none => rfl
    | some old => cases happly : Patch.apply changes old <;> simp [happly, Except.toOption]

theorem patched?_patch (hne : other ≠ path) (store : Store) (changes others : Patch) :
    (store.patch path changes).2.patched? other others = store.patched? other others := by
  obtain ⟨hdocument, -, hfailure⟩ := (store.patched_patch path changes).rest_eq hne
  rw [patched?, patched?, hfailure, hdocument]

theorem insert_comm {old new next : Json} (hold : store.document? path = some old)
    (hne : other ≠ path) :
    (store.insert path new).insert other next = (store.insert other next).insert path new :=
  congrArg (fun documents ↦ { store with documents }) (Json.setMember_comm hold hne new next)

theorem exists_document?_of_patched? {new : Json} (hnew : store.patched? path changes = some new) :
    ∃ old, store.document? path = some old := by
  unfold patched? at hnew
  cases hfailure : store.patchFailure with
  | some failure => simp [hfailure] at hnew
  | none =>
    rw [hfailure, Option.bind_eq_some_iff] at hnew
    obtain ⟨old, hold, -⟩ := hnew
    exact ⟨old, hold⟩

theorem patch_comm (hne : other ≠ path) (store : Store) (changes others : Patch) :
    ((store.patch path changes).2.patch other others).2 =
      ((store.patch other others).2.patch path changes).2 := by
  have hlast := patch_snd (store.patch path changes).2 other others
  have hfirst := patch_snd (store.patch other others).2 path changes
  rw [patched?_patch hne] at hlast
  rw [patched?_patch hne.symm] at hfirst
  rw [hlast, hfirst, patch_snd, patch_snd]
  cases hnew : store.patched? path changes with
  | none => rfl
  | some new =>
    cases store.patched? other others with
    | none => rfl
    | some next =>
      obtain ⟨old, hold⟩ := exists_document?_of_patched? hnew
      exact insert_comm hold hne

theorem isSeparable_api : api.IsSeparable := by
  intro request other store hne
  cases request with
  | get path =>
    cases other with
    | get found => constructor <;> simp only [Api.answer, api, get_snd]
    | patch found others =>
      have hpath : path ≠ found := hne
      constructor <;> simp only [Api.answer, api, get_snd, get_fst_patch hpath]
  | patch path changes =>
    cases other with
    | get found => constructor <;> simp only [Api.answer, api, get_snd]
    | patch found others =>
      have hpath : path ≠ found := hne
      constructor
      · simp only [Api.answer, api, patch_fst_patch hpath]
      · exact patch_comm hpath store others changes

end Store

/-! ### Calls -/

/-- Paths that end in a name behind a slash. -/
def EndsIn (name path : String) : Prop :=
  ∃ front, path = front ++ "/" ++ name

/-- What follows the last slash of a path is the name that it ends in. -/
theorem EndsIn.lastPart_eq {name path : String} (hends : EndsIn name path)
    (hslash : '/' ∉ name.toList) :
    path.toList.reverse.takeWhile (· ≠ '/') = name.toList.reverse := by
  obtain ⟨front, rfl⟩ := hends
  have hall : ∀ c ∈ name.toList.reverse, decide (c ≠ '/') = true := by
    intro c hmem
    rw [decide_eq_true_iff]
    rintro rfl
    exact hslash (List.mem_reverse.mp hmem)
  simp only [String.toList_append, List.reverse_append, List.takeWhile_append_of_pos hall]
  simp

theorem EndsIn.name_eq {name other path : String} (hname : EndsIn name path)
    (hother : EndsIn other path) (hnameSlash : '/' ∉ name.toList)
    (hotherSlash : '/' ∉ other.toList) : name = other := by
  have hsame : name.toList.reverse = other.toList.reverse :=
    (hname.lastPart_eq hnameSlash).symm.trans (hother.lastPart_eq hotherSlash)
  exact String.toList_inj.mp (List.reverse_inj.mp hsame)

/-- The name of the definition that a call is about. -/
def Call.name : Call → String
  | application name _ | states name _ | entity name _ => name

namespace Service

theorem endsIn_modelPath (service : Service) {suffix kind name : String}
    (hsuffix : suffix = kind ++ "/" ++ name) : EndsIn name (service.modelPath suffix) := by
  refine ⟨"/api/v1/" ++ service.tenant ++ "/" ++ service.environment ++ "/model/" ++ kind, ?_⟩
  simp only [modelPath, hsuffix, String.append_assoc]

theorem within_send {name path : String} (hpath : EndsIn name path) (changes : Patch) :
    (send path changes).Within (EndsIn name) := by
  unfold send
  split
  · exact .done _
  · refine .patch hpath fun answer ↦ ?_
    cases answer <;> exact .done _

theorem within_fetch {name path : String} {next : Json → Session Outcome}
    (hpath : EndsIn name path) (hnext : ∀ document, (next document).Within (EndsIn name)) :
    (fetch path next).Within (EndsIn name) := by
  refine .get hpath fun answer ↦ ?_
  cases answer with
  | ok document => exact hnext document
  | error failure => exact .done _

/-- Whatever a document is an instance of, its name is what the path of its patch ends in. -/
theorem within_session (service : Service) (call : Call) :
    (service.session call).Within (EndsIn call.name) := by
  cases call with
  | application name record =>
    have happlication : "ApplicationBehaviour/" = "ApplicationBehaviour" ++ "/" := by decide
    exact within_send (service.endsIn_modelPath (by rw [happlication]; rfl)) _
  | states name record =>
    have hmachine : "StateMachine/" = "StateMachine" ++ "/" := by decide
    have hpath : EndsIn name (service.modelPath ("StateMachine/" ++ name)) :=
      service.endsIn_modelPath (by rw [hmachine])
    refine within_fetch hpath fun document ↦ ?_
    split
    · exact .done _
    · split
      · exact .done _
      · cases Patch.ofMachine? record document with
        | none => exact .done _
        | some changes => exact within_send hpath changes
  | entity name record =>
    have hdefinitions : "output/definitions/" = "output/definitions" ++ "/" := by decide
    refine within_fetch (service.endsIn_modelPath (by rw [hdefinitions]; rfl)) fun document ↦ ?_
    cases Document.instanceOf? document with
    | none => exact .done _
    | some kind => exact within_send (service.endsIn_modelPath rfl) _

/-- Calls for different names without a slash, of any kinds and at any places, whatever the store
holds and fails with: in either order they come to the same outcomes with the same requests, and
leave the same store. -/
theorem report_comm (service other : Service) (call later : Call) (store : Store)
    (hname : call.name ≠ later.name) (hcall : '/' ∉ call.name.toList)
    (hlater : '/' ∉ later.name.toList) :
    let first := service.report call store
    let second := other.report later first.after
    let first' := other.report later store
    let second' := service.report call first'.after
    second'.outcome = first.outcome ∧ second'.requests = first.requests ∧
      second.outcome = first'.outcome ∧ second.requests = first'.requests ∧
      second.after = second'.after := by
  have hapart : ∀ path, EndsIn later.name path → ¬ EndsIn call.name path := by
    intro path hends hend
    exact hname (hend.name_eq hends hcall hlater)
  have hsecond := (other.within_session later).run_comm Store.isSeparable_api
    (service.within_session call) hapart store
  have hsecond' := (service.within_session call).run_comm Store.isSeparable_api
    (other.within_session later) (fun path hend hends ↦ hapart path hends hend) store
  exact ⟨congrArg (·.1) hsecond', congrArg (·.2.1) hsecond', congrArg (·.1) hsecond,
    congrArg (·.2.1) hsecond, congrArg (·.2.2) hsecond⟩

/-- A definition whose kind, followed by a slash, starts like the path of the other one. -/
def nestedStore : Store where
  documents := [("/api/v1/acme/PRD/model/output/definitions/Order",
      .object [("instanceOf", .string "StateMachine/Price")]),
    ("/api/v1/acme/PRD/model/StateMachine/Price/Order",
      .object [("behaviourNamespaces", .array [])]),
    ("/api/v1/acme/PRD/model/StateMachine/Price",
      .object [("name", .string "Price"), ("states", .array
        [.object [("name", .string "Draft"), ("assignToExpression", .string "")]])])]

theorem report_comm_nested :
    let service : Service := ⟨"acme", "PRD"⟩
    let call := Call.entity "Order" ⟨"Sales", [], ["Prices"]⟩
    let later := Call.states "Price" [{ name := "Draft", assignTo := "first" }]
    let first := service.report call nestedStore
    let second := service.report later first.after
    first.outcome = .applied 1 ∧ second.outcome = .applied 1 ∧
      second.after = (service.report call (service.report later nestedStore).after).after :=
  ⟨by decide, by decide, (report_comm ⟨"acme", "PRD"⟩ ⟨"acme", "PRD"⟩ (.entity "Order" _)
    (.states "Price" _) nestedStore (by decide) (by decide) (by decide)).2.2.2.2⟩

end Service
end Conform
