import Conform.Service.Call
import Mathlib.Logic.Basic

/-!
The exchange of a service call with a model API, whatever the API answers. What a call can ask for
and what comes of it is said once, by the ways an exchange can go (`Exchanged`), and every call goes
one of these ways against every API in every state (`exchanged_session`). From this follows that the
outcome accounts for the exchange: what was sent, what was answered, and why nothing was sent
(`session_accounts`).
-/

set_option autoImplicit false

namespace Conform

/-- A request and its answer. -/
inductive Event where
  | got (path : String) (answer : Except Failure Json)
  | patched (path : String) (changes : Patch) (answer : Except Failure Unit)

def Event.request : Event → Request
  | got path _ => .get path
  | patched path changes _ => .patch path changes

namespace Session

variable {α σ : Type} (api : Api σ)

/-- The requests of a session with the answers they were given, in order. -/
def events : Session α → σ → List Event
  | done _, _ => []
  | get path next, state =>
    let (answer, state) := api.get path state
    .got path answer :: events (next answer) state
  | patch path changes next, state =>
    let (answer, state) := api.patch path changes state
    .patched path changes answer :: events (next answer) state

/-- What a session comes to. -/
def outcome (session : Session α) (state : σ) : α :=
  (session.run api state).1

theorem map_request_events (session : Session α) (state : σ) :
    (session.events api state).map Event.request = (session.run api state).2.1 := by
  induction session generalizing state with
  | done result => rfl
  | get path next ih => exact congrArg (Request.get path :: ·) (ih _ _)
  | patch path changes next ih => exact congrArg (Request.patch path changes :: ·) (ih _ _)

end Session

/-! ### The ways an exchange can go -/

/-- How the sending of a patch goes: an empty one is not sent. -/
inductive Sent (path : String) (changes : Patch) : Outcome → List Event → Prop
  | nothing (hempty : changes = []) : Sent path changes .unchanged []
  | accepted (hchanges : changes ≠ []) :
    Sent path changes (.applied changes.length) [.patched path changes (.ok ())]
  | refused (failure : Failure) (hchanges : changes ≠ []) :
    Sent path changes (.rejected failure.asRefusal) [.patched path changes (.error failure)]

/-- How the exchange of a call goes. -/
inductive Exchanged (service : Service) : Call → Outcome → List Event → Prop
  | application {entity : String} {record : Application} {outcome : Outcome} {events : List Event}
    (hsent : Sent (service.modelPath ("ApplicationBehaviour/" ++ entity))
      (Patch.ofApplication record) outcome events) :
    Exchanged service (.application entity record) outcome events
  | machineUnavailable (entity : String) (record : List State) (failure : Failure) :
    Exchanged service (.states entity record) .noMatchingMetadata
      [.got (service.modelPath ("StateMachine/" ++ entity)) (.error failure)]
  | machineOther {entity : String} (record : List State) {document : Json}
    (hname : Document.name? document ≠ some entity) :
    Exchanged service (.states entity record) .noMatchingMetadata
      [.got (service.modelPath ("StateMachine/" ++ entity)) (.ok document)]
  | machineUnasked {entity : String} {document : Json}
    (hname : Document.name? document = some entity) :
    Exchanged service (.states entity []) .unchanged
      [.got (service.modelPath ("StateMachine/" ++ entity)) (.ok document)]
  | machineStateless {entity : String} {record : List State} {document : Json}
    (hname : Document.name? document = some entity) (hrecord : record ≠ [])
    (hitems : Document.items? document "states" = none) :
    Exchanged service (.states entity record) .noMatchingMetadata
      [.got (service.modelPath ("StateMachine/" ++ entity)) (.ok document)]
  | machine {entity : String} {record : List State} {document : Json} {items : List Json}
    {outcome : Outcome} {events : List Event}
    (hname : Document.name? document = some entity) (hrecord : record ≠ [])
    (hitems : Document.items? document "states" = some items)
    (hsent : Sent (service.modelPath ("StateMachine/" ++ entity))
      (Patch.ofStates record 0 items) outcome events) :
    Exchanged service (.states entity record) outcome
      (.got (service.modelPath ("StateMachine/" ++ entity)) (.ok document) :: events)
  | definitionUnavailable (entity : String) (record : Entity) (failure : Failure) :
    Exchanged service (.entity entity record) .noMatchingMetadata
      [.got (service.modelPath ("output/definitions/" ++ entity)) (.error failure)]
  | definitionOther (entity : String) (record : Entity) {document : Json}
    (hkind : Document.instanceOf? document = none) :
    Exchanged service (.entity entity record) .noMatchingMetadata
      [.got (service.modelPath ("output/definitions/" ++ entity)) (.ok document)]
  | definition {entity : String} {record : Entity} {document : Json} {kind : String}
    {outcome : Outcome} {events : List Event}
    (hkind : Document.instanceOf? document = some kind)
    (hsent : Sent (service.modelPath (kind ++ "/" ++ entity)) (Patch.ofEntity record)
      outcome events) :
    Exchanged service (.entity entity record) outcome
      (.got (service.modelPath ("output/definitions/" ++ entity)) (.ok document) :: events)

section Exchange

variable {σ : Type} (api : Api σ) (state : σ)

theorem sent_send (path : String) (changes : Patch) :
    Sent path changes ((Service.send path changes).outcome api state)
      ((Service.send path changes).events api state) := by
  unfold Service.send
  by_cases hempty : changes = []
  · subst hempty
    exact .nothing rfl
  · rw [if_neg (by simpa using hempty)]
    simp only [Session.outcome, Session.run, Session.events]
    cases (api.patch path changes state).1 with
    | ok _ => exact .accepted hempty
    | error failure => exact .refused failure hempty

theorem exchanged_replaceStates (service : Service) (entity : String) (record : List State) :
    Exchanged service (.states entity record)
      ((service.replaceStates entity record).outcome api state)
      ((service.replaceStates entity record).events api state) := by
  unfold Service.replaceStates Service.fetch
  simp only [Session.outcome, Session.run, Session.events]
  cases (api.get (service.modelPath ("StateMachine/" ++ entity)) state).1 with
  | error failure => exact .machineUnavailable entity record failure
  | ok document =>
    by_cases hname : Document.name? document = some entity
    · have hnamed : Document.isNamed document entity = true := by
        simp [Document.isNamed, hname]
      simp only [hnamed, Bool.not_true, Bool.false_eq_true, if_false]
      by_cases hrecord : record = []
      · subst hrecord
        exact .machineUnasked hname
      · rw [if_neg (by simpa using hrecord), Patch.ofMachine?]
        cases hitems : Document.items? document "states" with
        | none => exact .machineStateless hname hrecord hitems
        | some items => exact .machine hname hrecord hitems (sent_send api _ _ _)
    · have hnamed : Document.isNamed document entity = false := by
        simp [Document.isNamed, hname]
      simp only [hnamed, Bool.not_false, if_true]
      exact .machineOther record hname

theorem exchanged_replaceEntity (service : Service) (entity : String) (record : Entity) :
    Exchanged service (.entity entity record)
      ((service.replaceEntity entity record).outcome api state)
      ((service.replaceEntity entity record).events api state) := by
  unfold Service.replaceEntity Service.fetch
  simp only [Session.outcome, Session.run, Session.events]
  cases (api.get (service.modelPath ("output/definitions/" ++ entity)) state).1 with
  | error failure => exact .definitionUnavailable entity record failure
  | ok document =>
    simp only
    cases hkind : Document.instanceOf? document with
    | none => exact .definitionOther entity record hkind
    | some kind => exact .definition hkind (sent_send api _ _ _)

/-- Every call goes one of the ways, whatever the API answers. -/
theorem exchanged_session (service : Service) (call : Call) :
    Exchanged service call ((service.session call).outcome api state)
      ((service.session call).events api state) := by
  cases call with
  | application entity record => exact .application (sent_send api state _ _)
  | states entity record => exact exchanged_replaceStates api state service entity record
  | entity entity record => exact exchanged_replaceEntity api state service entity record

end Exchange

/-! ### The account of an exchange -/

/-- A refusal tells a failure: it is what the API refused with, or else the failure in words. -/
def Refusal.Tells (refusal : Refusal) (failure : Failure) : Prop :=
  failure = .refused refusal ∨
    (failure.refusal? = none ∧ refusal = { code := "", message := failure.message, errors := [] })

/-- The outcome of a call accounts for its exchange. -/
structure Accounts (outcome : Outcome) (events : List Event) : Prop where
  /-- At most one document is asked for, and at most one patch is sent after that. -/
  order : ∃ gets patches, events = gets ++ patches ∧
    (gets = [] ∨ ∃ path answer, gets = [.got path answer]) ∧
    (patches = [] ∨ ∃ path changes answer, patches = [.patched path changes answer])
  /-- No empty patch is sent. -/
  nonempty : ∀ path changes answer, .patched path changes answer ∈ events → 1 ≤ changes.length
  applied_iff : ∀ count, outcome = .applied count ↔
    ∃ path changes, .patched path changes (.ok ()) ∈ events ∧ changes.length = count
  rejected_iff : ∀ refusal, outcome = .rejected refusal ↔
    ∃ path changes failure, .patched path changes (.error failure) ∈ events ∧ refusal.Tells failure
  silent_iff : outcome = .unchanged ∨ outcome = .noMatchingMetadata ↔
    ∀ path changes answer, .patched path changes answer ∉ events

/-- A local record knows a state of a document by its name. -/
def Knows (record : List State) (found : Json) : Prop :=
  ∃ state ∈ record, Document.name? found = some state.name

/-- The requests of a call go to the places that its kind of record has, and it stops before sending
exactly where its kind of record has it stop. -/
def Addresses (service : Service) (outcome : Outcome) (events : List Event) : Call → Prop
  | .application entity record =>
    (∀ path answer, .got path answer ∉ events) ∧
      (∀ path changes answer, .patched path changes answer ∈ events →
        path = service.modelPath ("ApplicationBehaviour/" ++ entity)) ∧
      outcome ≠ .noMatchingMetadata ∧
      (outcome = .unchanged ↔ record.expression = "" ∧ record.imports = [])
  | .states entity record =>
    let path := service.modelPath ("StateMachine/" ++ entity)
    ∃ answer, .got path answer ∈ events ∧
      (∀ other changes result, .patched other changes result ∈ events →
        other = path ∧ record ≠ [] ∧ ∃ document items, answer = .ok document ∧
          Document.name? document = some entity ∧
          Document.items? document "states" = some items ∧ ∃ found ∈ items, Knows record found) ∧
      (outcome = .noMatchingMetadata ↔ (∃ failure, answer = .error failure) ∨
        ∃ document, answer = .ok document ∧ (Document.name? document ≠ some entity ∨
          (record ≠ [] ∧ Document.items? document "states" = none))) ∧
      (outcome = .unchanged ↔ ∃ document, answer = .ok document ∧
        Document.name? document = some entity ∧ (record = [] ∨
          ∃ items, Document.items? document "states" = some items ∧
            ∀ found ∈ items, ¬ Knows record found))
  | .entity entity record =>
    ∃ answer, .got (service.modelPath ("output/definitions/" ++ entity)) answer ∈ events ∧
      (∀ path changes result, .patched path changes result ∈ events →
        ∃ document kind, answer = .ok document ∧ Document.instanceOf? document = some kind ∧
          path = service.modelPath (kind ++ "/" ++ entity)) ∧
      (outcome = .noMatchingMetadata ↔ (∃ failure, answer = .error failure) ∨
        ∃ document, answer = .ok document ∧ Document.instanceOf? document = none) ∧
      (outcome = .unchanged ↔ (∃ document kind, answer = .ok document ∧
        Document.instanceOf? document = some kind) ∧ record.behaviours = [] ∧ record.imports = [])

theorem tells_asRefusal_iff {refusal : Refusal} {failure : Failure} :
    refusal.Tells failure ↔ failure.asRefusal = refusal := by
  cases failure <;> simp [Refusal.Tells, Failure.asRefusal, Failure.refusal?, eq_comm]

theorem patched_notMem_gets {gets : List Event}
    (hgets : gets = [] ∨ ∃ path answer, gets = [.got path answer]) (path : String)
    (changes : Patch) (answer : Except Failure Unit) : .patched path changes answer ∉ gets := by
  rcases hgets with rfl | ⟨_, _, rfl⟩ <;> simp

theorem patched_mem_append_iff {gets : List Event}
    (hgets : gets = [] ∨ ∃ path answer, gets = [.got path answer]) {path other : String}
    {changes others : Patch} {answer result : Except Failure Unit} :
    .patched other others result ∈ gets ++ [.patched path changes answer] ↔
      other = path ∧ others = changes ∧ result = answer := by
  rw [List.mem_append, or_iff_right (patched_notMem_gets hgets _ _ _), List.mem_singleton,
    Event.patched.injEq]

/-- Assumes: a first part that asks for one document at most, and an outcome that sends nothing. -/
theorem accounts_of_stopped {outcome : Outcome} {gets : List Event}
    (hgets : gets = [] ∨ ∃ path answer, gets = [.got path answer])
    (hstopped : outcome = .unchanged ∨ outcome = .noMatchingMetadata) : Accounts outcome gets := by
  have hsilent := patched_notMem_gets hgets
  refine ⟨⟨gets, [], (List.append_nil gets).symm, hgets, .inl rfl⟩, ?_, ?_, ?_, ?_⟩
  · intro path changes answer hmem
    exact absurd hmem (hsilent path changes answer)
  · intro count
    constructor
    · intro happlied
      rcases hstopped with h | h <;> rw [h] at happlied <;> cases happlied
    · rintro ⟨path, changes, hmem, -⟩
      exact absurd hmem (hsilent path changes _)
  · intro refusal
    constructor
    · intro hrejected
      rcases hstopped with h | h <;> rw [h] at hrejected <;> cases hrejected
    · rintro ⟨path, changes, failure, hmem, -⟩
      exact absurd hmem (hsilent path changes _)
  · exact iff_of_true hstopped hsilent

/-- Assumes: a first part that asks for one document at most. -/
theorem Sent.accounts {path : String} {changes : Patch} {outcome : Outcome}
    {events gets : List Event}
    (hgets : gets = [] ∨ ∃ path answer, gets = [.got path answer])
    (hsent : Sent path changes outcome events) : Accounts outcome (gets ++ events) := by
  cases hsent with
  | nothing hempty =>
    rw [List.append_nil]
    exact accounts_of_stopped hgets (.inl rfl)
  | accepted hchanges =>
    have hlength : 1 ≤ changes.length := List.length_pos_iff.mpr hchanges
    refine ⟨⟨gets, _, rfl, hgets, .inr ⟨_, _, _, rfl⟩⟩, ?_, ?_, ?_, ?_⟩ <;>
      simp only [patched_mem_append_iff hgets]
    · rintro _ _ _ ⟨-, rfl, -⟩
      exact hlength
    · simp only [Outcome.applied.injEq, and_true]
      intro count
      constructor
      · intro hcount
        exact ⟨path, changes, ⟨rfl, rfl⟩, hcount⟩
      · rintro ⟨_, _, ⟨rfl, rfl⟩, hcount⟩
        exact hcount
    · simp
    · simp
  | refused failure hchanges =>
    have hlength : 1 ≤ changes.length := List.length_pos_iff.mpr hchanges
    refine ⟨⟨gets, _, rfl, hgets, .inr ⟨_, _, _, rfl⟩⟩, ?_, ?_, ?_, ?_⟩ <;>
      simp only [patched_mem_append_iff hgets]
    · rintro _ _ _ ⟨-, rfl, -⟩
      exact hlength
    · simp
    · simp only [Outcome.rejected.injEq, Except.error.injEq, tells_asRefusal_iff]
      intro refusal
      constructor
      · intro htold
        exact ⟨path, changes, failure, ⟨rfl, rfl, rfl⟩, htold⟩
      · rintro ⟨_, _, _, ⟨rfl, rfl, rfl⟩, htold⟩
        exact htold
    · simp

theorem Exchanged.accounts {service : Service} {call : Call} {outcome : Outcome}
    {events : List Event} (hexchanged : Exchanged service call outcome events) :
    Accounts outcome events := by
  cases hexchanged with
  | application hsent => exact hsent.accounts (.inl rfl)
  | machineUnasked => exact accounts_of_stopped (.inr ⟨_, _, rfl⟩) (.inl rfl)
  | machine hname hrecord hitems hsent => exact hsent.accounts (.inr ⟨_, _, rfl⟩)
  | definition hkind hsent => exact hsent.accounts (.inr ⟨_, _, rfl⟩)
  | _ => exact accounts_of_stopped (.inr ⟨_, _, rfl⟩) (.inr rfl)

/-! ### Where the requests go -/

theorem Sent.unchanged_iff {path : String} {changes : Patch} {outcome : Outcome}
    {events : List Event} (hsent : Sent path changes outcome events) :
    outcome = .unchanged ↔ changes = [] := by
  cases hsent with
  | nothing hempty => exact iff_of_true rfl hempty
  | accepted hchanges => simp [hchanges]
  | refused failure hchanges => simp [hchanges]

theorem Sent.ne_noMatchingMetadata {path : String} {changes : Patch} {outcome : Outcome}
    {events : List Event} (hsent : Sent path changes outcome events) :
    outcome ≠ .noMatchingMetadata := by
  cases hsent <;> simp

theorem Sent.eq_of_mem {path other : String} {changes others : Patch} {outcome : Outcome}
    {events : List Event} {answer : Except Failure Unit} (hsent : Sent path changes outcome events)
    (hmem : .patched other others answer ∈ events) :
    other = path ∧ others = changes ∧ changes ≠ [] := by
  cases hsent with
  | nothing => simp at hmem
  | accepted hchanges => simp_all
  | refused failure hchanges => simp_all

theorem Sent.got_notMem {path other : String} {changes : Patch} {outcome : Outcome}
    {events : List Event} {answer : Except Failure Json}
    (hsent : Sent path changes outcome events) : .got other answer ∉ events := by
  cases hsent <;> simp

theorem match?_eq_none_iff {record : List State} {found : Json} :
    Patch.match? record found = none ↔ ¬ Knows record found := by
  rw [Patch.match?, Knows]
  cases Document.name? found with
  | none => simp
  | some name =>
    rw [Option.bind_some, List.find?_eq_none]
    simp [eq_comm]

theorem ofStates_eq_nil_iff {record : List State} {items : List Json} (position : Nat) :
    Patch.ofStates record position items = [] ↔ ∀ found ∈ items, ¬ Knows record found := by
  induction items generalizing position with
  | nil => simp [Patch.ofStates]
  | cons found rest ih =>
    rw [Patch.ofStates, List.append_eq_nil_iff, ih, List.forall_mem_cons, ← match?_eq_none_iff]
    refine and_congr_left fun _ ↦ ?_
    cases Patch.match? record found <;> simp [Patch.ofState]

theorem replaceSome_eq_nil_iff {α : Type} {path : String} {items : List α} {value : List α → Json} :
    Patch.replaceSome path items value = [] ↔ items = [] := by
  cases items <;> simp [Patch.replaceSome]

theorem ofApplication_eq_nil_iff {record : Application} :
    Patch.ofApplication record = [] ↔ record.expression = "" ∧ record.imports = [] := by
  rw [Patch.ofApplication, List.append_eq_nil_iff, replaceSome_eq_nil_iff]
  simp

theorem ofEntity_eq_nil_iff {record : Entity} :
    Patch.ofEntity record = [] ↔ record.behaviours = [] ∧ record.imports = [] := by
  have hsplit : record.instanceBehaviours = [] ∧ record.dataBehaviours = [] ↔
      record.behaviours = [] := by
    simp only [Entity.instanceBehaviours, Entity.dataBehaviours, List.filter_eq_nil_iff]
    constructor
    · rintro ⟨hinstance, hdata⟩
      refine List.eq_nil_iff_forall_not_mem.mpr fun behaviour hmem ↦ ?_
      have hnot := hinstance behaviour hmem
      have hnotData := hdata behaviour hmem
      simp_all
    · intro hempty
      simp [hempty]
  rw [Patch.ofEntity, List.append_eq_nil_iff, List.append_eq_nil_iff, replaceSome_eq_nil_iff,
    replaceSome_eq_nil_iff, replaceSome_eq_nil_iff, hsplit]

theorem Exchanged.addresses {service : Service} {call : Call} {outcome : Outcome}
    {events : List Event} (hexchanged : Exchanged service call outcome events) :
    Addresses service outcome events call := by
  cases hexchanged with
  | application hsent =>
    refine ⟨fun path answer ↦ hsent.got_notMem, fun path changes answer hmem ↦
      (hsent.eq_of_mem hmem).1, hsent.ne_noMatchingMetadata, ?_⟩
    rw [hsent.unchanged_iff, ofApplication_eq_nil_iff]
  | machineUnavailable entity record failure =>
    exact ⟨.error failure, by simp, by simp, by simp, by simp⟩
  | @machineOther entity record document hname =>
    exact ⟨.ok document, by simp, by simp, by simp [hname], by simp [hname]⟩
  | @machineUnasked entity document hname =>
    exact ⟨.ok document, by simp, by simp, by simp [hname], by simp [hname]⟩
  | @machineStateless entity record document hname hrecord hitems =>
    exact ⟨.ok document, by simp, by simp, by simp [hrecord, hitems], by simp [hrecord, hitems]⟩
  | @machine entity record document items outcome events hname hrecord hitems hsent =>
    refine ⟨.ok document, by simp, fun other changes result hmem ↦ ?_, ?_, ?_⟩
    · rw [List.mem_cons, or_iff_right (by simp)] at hmem
      obtain ⟨hother, -, hchanges⟩ := hsent.eq_of_mem hmem
      rw [ne_eq, ofStates_eq_nil_iff] at hchanges
      simp only [not_forall, not_not, exists_prop] at hchanges
      exact ⟨hother, hrecord, document, items, rfl, hname, hitems, hchanges⟩
    · simp [hsent.ne_noMatchingMetadata, hname, hitems]
    · rw [hsent.unchanged_iff, ofStates_eq_nil_iff]
      simp [hname, hrecord, hitems]
  | definitionUnavailable entity record failure =>
    exact ⟨.error failure, by simp, by simp, by simp, by simp⟩
  | @definitionOther entity record document hkind =>
    exact ⟨.ok document, by simp, by simp, by simp [hkind], by simp [hkind]⟩
  | @definition entity record document kind outcome events hkind hsent =>
    refine ⟨.ok document, by simp, fun path changes result hmem ↦ ?_, ?_, ?_⟩
    · rw [List.mem_cons, or_iff_right (by simp)] at hmem
      exact ⟨document, kind, rfl, hkind, (hsent.eq_of_mem hmem).1⟩
    · simp [hsent.ne_noMatchingMetadata, hkind]
    · rw [hsent.unchanged_iff, ofEntity_eq_nil_iff]
      simp [hkind]

/-- Against every API in every state, the outcome of a call accounts for the requests it made and
for the answers it was given, and the requests went where the record belongs. -/
theorem session_accounts {σ : Type} (api : Api σ) (state : σ) (service : Service) (call : Call) :
    let events := (service.session call).events api state
    let outcome := ((service.session call).run api state).1
    events.map Event.request = ((service.session call).run api state).2.1 ∧
      Accounts outcome events ∧ Addresses service outcome events call := by
  have hexchanged := exchanged_session api state service call
  exact ⟨Session.map_request_events api _ state, hexchanged.accounts, hexchanged.addresses⟩

end Conform
