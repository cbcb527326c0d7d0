import Conform.Proofs.Patch.View
import Conform.Proofs.Service.Store
import Conform.Service.Call
import Mathlib.Logic.Function.Basic

/-!
Service calls that overlap. Sessions that share an API make their requests in the order of a
schedule (`Pool.run`); one after the other they are run in turn (`Session.inTurn`). A session is
steady if all that its one question can find out is kept by every patch that such a session sends:
it comes to the same last step whenever it asks, so that only the order of the last steps counts
(`Pool.Progress.inTurn_eq`). The calls of a service are steady, since no patch of theirs changes
what is seen of a document (`Service.isSteady_session`), and they end within two turns. So overlapping
calls on one store end, and come to the same as calls in turn, in the order of their patches
(`overlapping_calls_inTurn`).
-/

set_option autoImplicit false

namespace Conform

variable {ι α σ τ : Type}

/-! ### Sessions that overlap -/

def Request.isPatch : Request → Bool
  | get _ => false
  | patch _ _ => true

namespace Session

/-- The next request of a session, if it is not done: the session after the answer, the request, and
the state of the API. -/
def advance (api : Api σ) : Session α → σ → Session α × List Request × σ
  | done result, state => (done result, [], state)
  | get path next, state => (next (api.get path state).1, [.get path], (api.get path state).2)
  | patch path changes next, state =>
    (next (api.patch path changes state).1, [.patch path changes],
      (api.patch path changes state).2)

/-- The sessions of callers run one after the other: what each comes to and the requests it makes,
and the state of the API in the end. -/
def inTurn (api : Api σ) (sessions : ι → Session α) :
    List ι → σ → List (α × List Request) × σ
  | [], state => ([], state)
  | caller :: rest, state =>
    let (result, requests, state) := (sessions caller).run api state
    let (reports, state) := inTurn api sessions rest state
    ((result, requests) :: reports, state)

end Session

/-- Sessions under way at one API: the session of each caller, the state of the API, and the
requests made so far, each with its caller. -/
structure Pool (ι α σ : Type) where
  sessions : ι → Session α
  state : σ
  log : List (ι × Request) := []

namespace Pool

variable [DecidableEq ι]

/-- The pool after requests of a caller that leave its session and the API as given. -/
def follow (pool : Pool ι α σ) (caller : ι) (session : Session α) (requests : List Request)
    (state : σ) : Pool ι α σ where
  sessions := Function.update pool.sessions caller session
  state := state
  log := pool.log ++ requests.map (caller, ·)

/-- Lets one caller make its next request. -/
def step (api : Api σ) (pool : Pool ι α σ) (caller : ι) : Pool ι α σ :=
  let (session, requests, state) := (pool.sessions caller).advance api pool.state
  pool.follow caller session requests state

/-- Lets callers make their requests in the order of a schedule. -/
def run (api : Api σ) (pool : Pool ι α σ) (schedule : List ι) : Pool ι α σ :=
  schedule.foldl (step api) pool

/-- The requests of one caller so far. -/
def requestsOf (pool : Pool ι α σ) (caller : ι) : List Request :=
  (pool.log.filter (·.1 = caller)).map Prod.snd

/-- The callers of patches so far, in the order of their patches. -/
def patchers (pool : Pool ι α σ) : List ι :=
  (pool.log.filter (·.2.isPatch)).map Prod.fst

end Pool

/-! ### Steady sessions -/

namespace Session

/-- A session with at most one patch left, which changes nothing of what is seen of the API. -/
inductive IsLast (api : Api σ) (seen : σ → τ) : Session α → Prop
  | done (result : α) : IsLast api seen (done result)
  | patch (path : String) (changes : Patch) {next : Except Failure Unit → Session α}
    (hdone : ∀ answer, ∃ result, next answer = .done result)
    (hseen : ∀ state, seen (api.patch path changes state).2 = seen state) :
    IsLast api seen (patch path changes next)

/-- A session that goes by what is seen of the API, and changes nothing of it. -/
inductive IsSteady (api : Api σ) (seen : σ → τ) : Session α → Prop
  | last {session : Session α} (hlast : IsLast api seen session) : IsSteady api seen session
  | get (path : String) {next : Except Failure Json → Session α}
    (hstate : ∀ state, (api.get path state).2 = state)
    (hsame : ∀ state other, seen state = seen other →
      next (api.get path state).1 = next (api.get path other).1)
    (hlast : ∀ state, IsLast api seen (next (api.get path state).1)) :
    IsSteady api seen (get path next)

/-- A session after its question, if it has one, is answered from a state. -/
def settled (api : Api σ) (state : σ) : Session α → Session α
  | get path next => next (api.get path state).1
  | session => session

/-- The question that a session has. -/
def asked : Session α → List Request
  | get path _ => [.get path]
  | _ => []

variable {api : Api σ} {seen : σ → τ} {session : Session α}

theorem IsLast.settled_eq (hlast : IsLast api seen session) (state : σ) :
    session.settled api state = session := by
  cases hlast <;> rfl

theorem IsLast.asked_eq (hlast : IsLast api seen session) : session.asked = [] := by
  cases hlast <;> rfl

theorem IsSteady.isLast_settled (hsteady : IsSteady api seen session) (state : σ) :
    IsLast api seen (session.settled api state) := by
  cases hsteady with
  | last hlast => rwa [hlast.settled_eq]
  | get path hstate hsame hlast => exact hlast state

theorem IsLast.seen_run (hlast : IsLast api seen session) (state : σ) :
    seen (session.run api state).2.2 = seen state := by
  cases hlast with
  | done result => rfl
  | patch path changes hdone hseen =>
    obtain ⟨result, hnext⟩ := hdone (api.patch path changes state).1
    simp only [run, hnext]
    exact hseen state

/-- A steady session asks its question, and then goes on as it would from any state that looks
alike. -/
theorem IsSteady.run_eq (hsteady : IsSteady api seen session) {state initial final : σ}
    (hseen : seen state = seen initial) {result : α} {requests : List Request}
    (hrun : (session.settled api initial).run api state = (result, requests, final)) :
    session.run api state = (result, session.asked ++ requests, final) := by
  cases hsteady with
  | last hlast =>
    rw [hlast.settled_eq] at hrun
    rw [hlast.asked_eq, List.nil_append, hrun]
  | get path hstate hsame hlast =>
    simp only [settled] at hrun
    simp only [run, hstate, hsame state initial hseen, hrun]
    rfl

end Session

/-! ### Running in turn -/

namespace Session

variable {api : Api σ} {sessions : ι → Session α} {report : ι → α × List Request}

theorem inTurn_cons {caller : ι} {rest : List ι} {state middle final : σ}
    (hrun : (sessions caller).run api state = ((report caller).1, (report caller).2, middle))
    (hrest : inTurn api sessions rest middle = (rest.map report, final)) :
    inTurn api sessions (caller :: rest) state = ((caller :: rest).map report, final) := by
  rw [inTurn, hrun]
  simp only [hrest]
  rfl

theorem exists_of_inTurn_cons {caller : ι} {rest : List ι} {state final : σ}
    (hturn : inTurn api sessions (caller :: rest) state = ((caller :: rest).map report, final)) :
    ∃ middle, (sessions caller).run api state = ((report caller).1, (report caller).2, middle) ∧
      inTurn api sessions rest middle = (rest.map report, final) := by
  rw [inTurn, List.map_cons, Prod.mk.injEq, List.cons.injEq] at hturn
  obtain ⟨⟨hreport, hrest⟩, hfinal⟩ := hturn
  exact ⟨((sessions caller).run api state).2.2, by rw [← hreport], Prod.ext hrest hfinal⟩

/-- The last one in turn meets the state that the ones before it leave. -/
theorem inTurn_append_singleton {caller : ι} {front : List ι} {state middle final : σ}
    (hfront : inTurn api sessions front state = (front.map report, middle))
    (hrun : (sessions caller).run api middle = ((report caller).1, (report caller).2, final)) :
    inTurn api sessions (front ++ [caller]) state = ((front ++ [caller]).map report, final) := by
  induction front generalizing state with
  | nil =>
    obtain rfl : state = middle := congrArg Prod.snd hfront
    exact inTurn_cons hrun rfl
  | cons first front ih =>
    obtain ⟨next, hfirst, hfront⟩ := exists_of_inTurn_cons hfront
    exact inTurn_cons hfirst (ih hfront)

end Session

/-! ### Progress -/

namespace Pool

open Session

section Follow

variable [DecidableEq ι] (pool : Pool ι α σ) (caller : ι) (session : Session α)
  (requests : List Request) (state : σ)

theorem sessions_follow_self :
    (pool.follow caller session requests state).sessions caller = session :=
  Function.update_self ..

theorem sessions_follow_of_ne {other : ι} (hne : other ≠ caller) :
    (pool.follow caller session requests state).sessions other = pool.sessions other :=
  Function.update_of_ne hne ..

theorem requestsOf_follow_self :
    (pool.follow caller session requests state).requestsOf caller =
      pool.requestsOf caller ++ requests := by
  simp [requestsOf, follow, List.filter_map, Function.comp_def]

theorem requestsOf_follow_of_ne {other : ι} (hne : other ≠ caller) :
    (pool.follow caller session requests state).requestsOf other = pool.requestsOf other := by
  simp [requestsOf, follow, List.filter_map, Function.comp_def, hne.symm]

theorem patchers_follow_get (path : String) :
    (pool.follow caller session [.get path] state).patchers = pool.patchers := by
  simp [patchers, follow, Request.isPatch]

theorem patchers_follow_patch (path : String) (changes : Patch) :
    (pool.follow caller session [.patch path changes] state).patchers =
      pool.patchers ++ [caller] := by
  simp [patchers, follow, Request.isPatch]

theorem step_of_done {api : Api σ} {result : α} (hdone : pool.sessions caller = .done result) :
    pool.step api caller = pool := by
  have hsessions : Function.update pool.sessions caller (.done result) = pool.sessions := by
    rw [← hdone, Function.update_eq_self]
  simp only [step, hdone, advance, follow, hsessions, List.map_nil, List.append_nil]

end Follow

/-- How far steady sessions that started together from a state of the API have come. What is seen of
the API is what it was. A caller that has not patched is where it started or waits with its question
answered; those that have patched are done, and have come to what they come to in turn. -/
structure Progress [DecidableEq ι] (api : Api σ) (seen : σ → τ) (sessions : ι → Session α)
    (initial : σ) (pool : Pool ι α σ) : Prop where
  seen_eq : seen pool.state = seen initial
  waiting : ∀ caller, caller ∉ pool.patchers →
    pool.sessions caller = sessions caller ∧ pool.requestsOf caller = [] ∨
    pool.sessions caller = (sessions caller).settled api initial ∧
      pool.requestsOf caller = (sessions caller).asked
  patched : ∃ report,
    inTurn api (fun caller ↦ (sessions caller).settled api initial) pool.patchers initial =
      (pool.patchers.map report, pool.state) ∧
    ∀ caller, caller ∈ pool.patchers → pool.sessions caller = .done (report caller).1 ∧
      pool.requestsOf caller = (sessions caller).asked ++ (report caller).2

section Progress

variable [DecidableEq ι] {api : Api σ} {seen : σ → τ} {sessions : ι → Session α} {initial : σ}
  {pool : Pool ι α σ} {caller : ι}

theorem progress_start (api : Api σ) (seen : σ → τ) (sessions : ι → Session α) (initial : σ) :
    Progress api seen sessions initial ⟨sessions, initial, []⟩ where
  seen_eq := rfl
  waiting := fun _ _ ↦ .inl ⟨rfl, rfl⟩
  patched := ⟨fun caller ↦ ((sessions caller).run api initial |>.1, []), rfl, fun _ hmem ↦
    absurd hmem List.not_mem_nil⟩

/-- A question changes nothing but that its caller has asked it. -/
theorem Progress.follow_get (hprogress : Progress api seen sessions initial pool)
    (hpatched : caller ∉ pool.patchers) {path : String}
    (hasked : (sessions caller).asked = [.get path])
    (hrequests : pool.requestsOf caller = []) :
    Progress api seen sessions initial
      (pool.follow caller ((sessions caller).settled api initial) [.get path] pool.state) where
  seen_eq := hprogress.seen_eq
  waiting := by
    intro other hother
    rw [patchers_follow_get] at hother
    by_cases hcaller : other = caller
    · subst hcaller
      refine .inr ⟨sessions_follow_self .., ?_⟩
      rw [requestsOf_follow_self, hrequests, hasked, List.nil_append]
    · rw [requestsOf_follow_of_ne _ _ _ _ _ hcaller, sessions_follow_of_ne _ _ _ _ _ hcaller]
      exact hprogress.waiting other hother
  patched := by
    obtain ⟨report, hturn, hreport⟩ := hprogress.patched
    rw [patchers_follow_get]
    refine ⟨report, hturn, fun other hother ↦ ?_⟩
    have hcaller : other ≠ caller := fun heq ↦ hpatched (heq ▸ hother)
    rw [requestsOf_follow_of_ne _ _ _ _ _ hcaller, sessions_follow_of_ne _ _ _ _ _ hcaller]
    exact hreport other hother

/-- A patch puts its caller at the end of those that have patched. -/
theorem Progress.follow_patch (hprogress : Progress api seen sessions initial pool)
    (hpatched : caller ∉ pool.patchers) {path : String} {changes : Patch}
    {next : Except Failure Unit → Session α} {result : α}
    (hsettled : (sessions caller).settled api initial = .patch path changes next)
    (hrequests : pool.requestsOf caller = (sessions caller).asked)
    (hnext : next (api.patch path changes pool.state).1 = .done result)
    (hseen : seen (api.patch path changes pool.state).2 = seen pool.state) :
    Progress api seen sessions initial
      (pool.follow caller (.done result) [.patch path changes]
        (api.patch path changes pool.state).2) where
  seen_eq := hseen.trans hprogress.seen_eq
  waiting := by
    intro other hother
    rw [patchers_follow_patch, List.mem_append, List.mem_singleton, not_or] at hother
    rw [requestsOf_follow_of_ne _ _ _ _ _ hother.2, sessions_follow_of_ne _ _ _ _ _ hother.2]
    exact hprogress.waiting other hother.1
  patched := by
    obtain ⟨report, hturn, hreport⟩ := hprogress.patched
    rw [patchers_follow_patch]
    let updated := Function.update report caller (result, [.patch path changes])
    have hself : updated caller = (result, [.patch path changes]) := Function.update_self ..
    have hkept : ∀ other, other ≠ caller → updated other = report other := fun _ hother ↦
      Function.update_of_ne hother ..
    have hfront : Session.inTurn api (fun other ↦ (sessions other).settled api initial)
        pool.patchers initial = (pool.patchers.map updated, pool.state) := by
      rw [hturn]
      congr 1
      refine List.map_congr_left fun other hother ↦ ?_
      have hcaller : other ≠ caller := fun heq ↦ hpatched (heq ▸ hother)
      rw [hkept other hcaller]
    refine ⟨updated, inTurn_append_singleton hfront ?_, fun other hother ↦ ?_⟩
    · simp only [hself, hsettled, Session.run, hnext]
      rfl
    · by_cases hcaller : other = caller
      · subst hcaller
        rw [requestsOf_follow_self, hrequests, sessions_follow_self, hself]
        exact ⟨rfl, rfl⟩
      · rw [List.mem_append, List.mem_singleton, or_iff_left hcaller] at hother
        rw [requestsOf_follow_of_ne _ _ _ _ _ hcaller, sessions_follow_of_ne _ _ _ _ _ hcaller,
          hkept other hcaller]
        exact hreport other hother

/-- A caller that waits with its question answered makes its patch or has nothing to do. -/
theorem Progress.step_settled (hsteady : ∀ caller, IsSteady api seen (sessions caller))
    (hprogress : Progress api seen sessions initial pool) (hpatched : caller ∉ pool.patchers)
    (hsession : pool.sessions caller = (sessions caller).settled api initial)
    (hrequests : pool.requestsOf caller = (sessions caller).asked) :
    Progress api seen sessions initial (pool.step api caller) := by
  have hlast := (hsteady caller).isLast_settled initial
  cases hsettled : (sessions caller).settled api initial with
  | done result =>
    rw [step_of_done _ _ (hsession.trans hsettled)]
    exact hprogress
  | get path next =>
    rw [hsettled] at hlast
    cases hlast
  | patch path changes next =>
    rw [hsettled] at hlast
    cases hlast with
    | patch _ _ hdone hseen =>
      obtain ⟨result, hnext⟩ := hdone (api.patch path changes pool.state).1
      simp only [Pool.step, hsession, hsettled, advance, hnext]
      exact hprogress.follow_patch hpatched hsettled hrequests hnext (hseen pool.state)

theorem Progress.step (hsteady : ∀ caller, IsSteady api seen (sessions caller))
    (hprogress : Progress api seen sessions initial pool) (caller : ι) :
    Progress api seen sessions initial (pool.step api caller) := by
  by_cases hpatched : caller ∈ pool.patchers
  · obtain ⟨report, -, hreport⟩ := hprogress.patched
    rw [step_of_done _ _ (hreport caller hpatched).1]
    exact hprogress
  · rcases hprogress.waiting caller hpatched with ⟨hsession, hrequests⟩ | ⟨hsession, hrequests⟩
    · cases hstart : sessions caller with
      | get path next =>
        have hcaller := hsteady caller
        rw [hstart] at hcaller
        cases hcaller with
        | last hlast => cases hlast
        | get path hstate hsame hlast =>
          have hsettled : (sessions caller).settled api initial =
              next (api.get path pool.state).1 := by
            rw [hstart]
            exact (hsame pool.state initial hprogress.seen_eq).symm
          have hasked : (sessions caller).asked = [.get path] := by rw [hstart, asked]
          have hfollow := hprogress.follow_get hpatched hasked hrequests
          rw [hsettled] at hfollow
          simpa only [Pool.step, hsession, hstart, advance, hstate] using hfollow
      | _ =>
        refine hprogress.step_settled hsteady hpatched (hsession.trans ?_) (hrequests.trans ?_) <;>
          rw [hstart]
        · rfl
        · rfl
    · exact hprogress.step_settled hsteady hpatched hsession hrequests

theorem progress_run (hsteady : ∀ caller, IsSteady api seen (sessions caller))
    (hprogress : Progress api seen sessions initial pool) (schedule : List ι) :
    Progress api seen sessions initial (pool.run api schedule) := by
  induction schedule generalizing pool with
  | nil => exact hprogress
  | cons caller rest ih => exact ih (hprogress.step hsteady caller)

/-- Assumes: steady sessions that have come to their ends, and a state that looks like the initial
one, from which the last steps of those that patched lead to the state of the pool. So do the
sessions themselves, with the same outcomes and requests. -/
theorem Progress.inTurn_of_settled (hsteady : ∀ caller, IsSteady api seen (sessions caller))
    (hprogress : Progress api seen sessions initial pool) {outcome : ι → α} {order : List ι}
    (hdone : ∀ caller ∈ order, pool.sessions caller = .done (outcome caller))
    {report : ι → α × List Request}
    (hreport : ∀ caller ∈ pool.patchers, pool.sessions caller = .done (report caller).1 ∧
      pool.requestsOf caller = (sessions caller).asked ++ (report caller).2)
    {state : σ} (hseen : seen state = seen initial)
    (hturn : inTurn api (fun caller ↦ (sessions caller).settled api initial)
      (order.filter (· ∈ pool.patchers)) state =
        ((order.filter (· ∈ pool.patchers)).map report, pool.state)) :
    inTurn api sessions order state =
      (order.map fun caller ↦ (outcome caller, pool.requestsOf caller), pool.state) := by
  induction order generalizing state with
  | nil => exact Prod.ext rfl (congrArg Prod.snd hturn)
  | cons caller rest ih =>
    rw [List.forall_mem_cons] at hdone
    by_cases hpatched : caller ∈ pool.patchers
    · rw [List.filter_cons_of_pos (by simpa using hpatched)] at hturn
      obtain ⟨middle, hrun, hrest⟩ := exists_of_inTurn_cons hturn
      obtain ⟨hsession, hrequests⟩ := hreport caller hpatched
      have houtcome : outcome caller = (report caller).1 :=
        Session.done.inj (hdone.1.symm.trans hsession)
      have hmiddle : seen middle = seen initial := by
        have hkept := ((hsteady caller).isLast_settled initial).seen_run state
        rw [hrun] at hkept
        exact hkept.trans hseen
      refine inTurn_cons ?_ (ih hdone.2 hmiddle hrest)
      rw [(hsteady caller).run_eq hseen hrun, houtcome, hrequests]
    -- A caller that has not patched leaves the state as it is, wherever it stands in the order.
    · rw [List.filter_cons_of_neg (by simpa using hpatched)] at hturn
      refine inTurn_cons ?_ (ih hdone.2 hseen hturn)
      have hsettled : (sessions caller).settled api initial = .done (outcome caller) ∧
          (sessions caller).asked = pool.requestsOf caller := by
        rcases hprogress.waiting caller hpatched with ⟨hsession, hrequests⟩ | ⟨hsession, hrequests⟩
        · rw [← hsession, hdone.1, hrequests]
          exact ⟨rfl, rfl⟩
        · exact ⟨hsession.symm.trans hdone.1, hrequests.symm⟩
      have hrun : ((sessions caller).settled api initial).run api state =
          (outcome caller, [], state) := by
        rw [hsettled.1]
        rfl
      rw [(hsteady caller).run_eq hseen hrun, hsettled.2, List.append_nil]

/-- Steady sessions that have come to their ends come to the same in turn, in any order that keeps
the order of their patches. -/
theorem Progress.inTurn_eq (hsteady : ∀ caller, IsSteady api seen (sessions caller))
    (hprogress : Progress api seen sessions initial pool) {outcome : ι → α} {order : List ι}
    (hdone : ∀ caller ∈ order, pool.sessions caller = .done (outcome caller))
    (horder : order.filter (· ∈ pool.patchers) = pool.patchers) :
    inTurn api sessions order initial =
      (order.map fun caller ↦ (outcome caller, pool.requestsOf caller), pool.state) := by
  obtain ⟨report, hturn, hreport⟩ := hprogress.patched
  rw [← horder] at hturn
  exact hprogress.inTurn_of_settled hsteady hdone hreport rfl hturn

end Progress

end Pool

/-! ### Turns -/

/-- A session that is done after at most so many requests, whatever it is answered. -/
def Session.EndsWithin : Nat → Session α → Prop
  | _, .done _ => True
  | turns + 1, .get _ next => ∀ answer, EndsWithin turns (next answer)
  | turns + 1, .patch _ _ next => ∀ answer, EndsWithin turns (next answer)
  | 0, _ => False

theorem Session.EndsWithin.advance {turns : Nat} {session : Session α}
    (hends : session.EndsWithin turns) (api : Api σ) (state : σ) :
    (session.advance api state).1.EndsWithin (turns - 1) := by
  cases session with
  | done result => simp [Session.advance, EndsWithin]
  | get path next =>
    cases turns with
    | zero => exact hends.elim
    | succ turns => exact hends _
  | patch path changes next =>
    cases turns with
    | zero => exact hends.elim
    | succ turns => exact hends _

/-- A session that has all its turns is done, whatever the others do meanwhile. -/
theorem Pool.exists_done_of_turns [DecidableEq ι] {api : Api σ} {pool : Pool ι α σ} {caller : ι}
    {turns : Nat} {schedule : List ι} (hends : (pool.sessions caller).EndsWithin turns)
    (hturns : turns ≤ schedule.count caller) :
    ∃ result, (pool.run api schedule).sessions caller = .done result := by
  induction schedule generalizing pool turns with
  | nil =>
    rw [List.count_nil, Nat.le_zero] at hturns
    subst hturns
    cases hsession : pool.sessions caller with
    | done result => exact ⟨result, hsession⟩
    | _ =>
      rw [hsession] at hends
      exact hends.elim
  | cons first rest ih =>
    by_cases hfirst : first = caller
    · subst hfirst
      rw [List.count_cons_self] at hturns
      have hrest : turns - 1 ≤ rest.count first := by omega
      refine ih ?_ hrest
      rw [Pool.step, Pool.sessions_follow_self]
      exact hends.advance api pool.state
    · rw [List.count_cons_of_ne hfirst] at hturns
      refine ih ?_ hturns
      rwa [Pool.step, Pool.sessions_follow_of_ne _ _ _ _ _ (Ne.symm hfirst)]

/-! ### Calls on a store -/

/-- What is seen of a store. -/
def Store.view (store : Store) : Option Failure × (String → Option View) :=
  (store.getFailure, fun path ↦ (store.document? path).map Document.view)

namespace Store

/-- Stores that look alike answer with documents that look alike, or with the same failure. -/
theorem get_fst_alike {store other : Store} (hview : store.view = other.view) (path : String) :
    (∃ document found, (store.get path).1 = .ok document ∧ (other.get path).1 = .ok found ∧
      Document.view document = Document.view found) ∨
    ∃ failure, (store.get path).1 = .error failure ∧ (other.get path).1 = .error failure := by
  obtain ⟨hfailure, hdocuments⟩ := Prod.mk.injEq .. ▸ hview
  have hdocument := congrFun hdocuments path
  unfold get
  rw [← hfailure]
  cases store.getFailure with
  | some failure => exact .inr ⟨failure, rfl, rfl⟩
  | none =>
    cases hstore : store.document? path <;> cases hother : other.document? path <;>
      simp only [hstore, hother, Option.map_none, Option.map_some, reduceCtorEq,
        Option.some.injEq] at hdocument
    case none.none => exact .inr ⟨_, rfl, rfl⟩
    case some.some document found => exact .inl ⟨document, found, rfl, rfl, hdocument⟩

/-- A patch that keeps what is seen of documents keeps what is seen of a store. -/
theorem view_patch {changes : Patch} (hunseen : Patch.Unseen changes) (path : String)
    (store : Store) : (store.patch path changes).2.view = store.view := by
  have hpatched := store.patched_patch path changes
  revert hpatched
  generalize (store.patch path changes).1 = answer
  generalize (store.patch path changes).2 = next
  intro hpatched
  cases hpatched with
  | failing | unknown | faulty => rfl
  | @kept old new hfailure hold happly =>
    refine Prod.ext rfl (funext fun other ↦ ?_)
    change ((store.insert path new).document? other).map _ = (store.document? other).map _
    by_cases hother : other = path
    · subst hother
      rw [document?_insert_self, hold, Option.map_some, Option.map_some,
        Patch.view_of_apply hunseen happly]
    · rw [document?_insert_of_ne hother]

end Store

namespace Service

open Session

theorem isLast_send {changes : Patch} (hunseen : Patch.Unseen changes) (path : String) :
    (send path changes).IsLast Store.api Store.view := by
  unfold send
  split
  · exact .done _
  · refine .patch path changes (fun answer ↦ ?_) (Store.view_patch hunseen path)
    cases answer <;> exact ⟨_, rfl⟩

/-- A session that asks for one document and goes by what is seen of it is steady. -/
theorem isSteady_fetch {next : Json → Session Outcome} (path : String)
    (hsame : ∀ document found, Document.view document = Document.view found →
      next document = next found)
    (hlast : ∀ document, (next document).IsLast Store.api Store.view) :
    (fetch path next).IsSteady Store.api Store.view := by
  refine .get path (Store.get_snd path) (fun store other hview ↦ ?_) (fun store ↦ ?_)
  · rcases Store.get_fst_alike hview path with
      ⟨document, found, hdocument, hfound, hlike⟩ | ⟨failure, hstore, hother⟩
    · simp only [Store.api, hdocument, hfound]
      exact hsame document found hlike
    · simp only [Store.api, hstore, hother]
  · cases (Store.api.get path store).1 with
    | ok document => exact hlast document
    | error failure => exact .done _

theorem isSteady_session (service : Service) (call : Call) :
    (service.session call).IsSteady Store.api Store.view := by
  cases call with
  | application entity record => exact .last (isLast_send (Patch.unseen_ofApplication record) _)
  | states entity record =>
    refine isSteady_fetch _ (fun document found hview ↦ ?_) (fun document ↦ ?_)
    · have hname : Document.name? document = Document.name? found := congrArg View.name hview
      rw [Document.isNamed, Document.isNamed, hname, Patch.ofMachine?_congr record hview]
    · split_ifs
      · exact .done _
      · exact .done _
      · cases hchanges : Patch.ofMachine? record document with
        | none => exact .done _
        | some changes =>
          obtain ⟨items, -, rfl⟩ := Option.map_eq_some_iff.mp hchanges
          exact isLast_send (Patch.unseen_ofStates record items) _
  | entity entity record =>
    refine isSteady_fetch _ (fun document found hview ↦ ?_) (fun document ↦ ?_)
    · have hkind : Document.instanceOf? document = Document.instanceOf? found :=
        congrArg View.kind hview
      rw [hkind]
    · cases Document.instanceOf? document with
      | none => exact .done _
      | some kind => exact isLast_send (Patch.unseen_ofEntity record) _

theorem endsWithin_send (path : String) (changes : Patch) (turns : Nat) :
    (send path changes).EndsWithin (turns + 1) := by
  unfold send
  split
  · trivial
  · intro answer
    cases answer <;> simp [EndsWithin]

theorem endsWithin_fetch {next : Json → Session Outcome} (path : String)
    (hends : ∀ document, (next document).EndsWithin 1) : (fetch path next).EndsWithin 2 := by
  intro answer
  cases answer with
  | ok document => exact hends document
  | error failure => trivial

theorem endsWithin_session (service : Service) (call : Call) :
    (service.session call).EndsWithin 2 := by
  cases call with
  | application entity record => exact endsWithin_send _ _ 1
  | states entity record =>
    refine endsWithin_fetch _ fun document ↦ ?_
    split_ifs
    · trivial
    · trivial
    · cases Patch.ofMachine? record document with
      | none => trivial
      | some changes => exact endsWithin_send _ changes 0
  | entity entity record =>
    refine endsWithin_fetch _ fun document ↦ ?_
    cases Document.instanceOf? document with
    | none => trivial
    | some kind => exact endsWithin_send _ _ 0

end Service

/-- The pool in which calls start. -/
def Pool.ofCalls (services : ι → Service) (calls : ι → Call) (store : Store) :
    Pool ι Outcome Store where
  sessions := fun caller ↦ (services caller).session (calls caller)
  state := store

/-- A call comes to its end in two turns at most, whatever the others do meanwhile. -/
theorem exists_outcome_of_turns [DecidableEq ι] (services : ι → Service) (calls : ι → Call)
    (store : Store) {schedule : List ι} {caller : ι} (hturns : 2 ≤ schedule.count caller) :
    ∃ outcome, ((Pool.ofCalls services calls store).run Store.api schedule).sessions caller =
      .done outcome :=
  Pool.exists_done_of_turns ((services caller).endsWithin_session (calls caller)) hturns

/-- Calls that share a store and overlap in any way. Each call comes to its end if the schedule gives
it two turns. Calls that have come to their ends come to the same outcomes with the same requests, and
leave the same store, if they are run in turn, in any order that has the callers that patch in the
order of their patches. -/
theorem overlapping_calls_inTurn {ι : Type} [DecidableEq ι] (services : ι → Service)
    (calls : ι → Call) (store : Store) (schedule : List ι) (pool : Pool ι Outcome Store)
    (hpool : pool = (Pool.ofCalls services calls store).run Store.api schedule) :
    (∀ caller, 2 ≤ schedule.count caller → ∃ outcome, pool.sessions caller = .done outcome) ∧
    ∀ (order : List ι) (outcomes : ι → Outcome),
      (∀ caller ∈ order, pool.sessions caller = .done (outcomes caller)) →
      order.filter (· ∈ pool.patchers) = pool.patchers →
      Session.inTurn Store.api (fun caller ↦ (services caller).session (calls caller)) order store =
        (order.map fun caller ↦ (outcomes caller, pool.requestsOf caller), pool.state) := by
  have hsteady := fun caller ↦ (services caller).isSteady_session (calls caller)
  subst hpool
  have hprogress := Pool.progress_run hsteady
    (Pool.progress_start Store.api Store.view _ store) schedule
  exact ⟨fun _ hturns ↦ exists_outcome_of_turns services calls store hturns,
    fun _ _ hdone horder ↦ hprogress.inTurn_eq hsteady hdone horder⟩

/-- A definition that is its own state machine. -/
def sharedMachine : Json :=
  .object [("name", .string "Order"), ("instanceOf", .string "StateMachine"),
    ("behaviourNamespaces", .array []),
    ("states", .array [.object [("name", .string "Draft"), ("assignToExpression", .string "")]])]

def sharedStore : Store where
  documents := [("/api/v1/acme/PRD/model/StateMachine/Order", sharedMachine),
    ("/api/v1/acme/PRD/model/output/definitions/Order", sharedMachine)]

/-- Three calls that patch one document, the last of them as a definition. -/
def sharedCalls : Fin 3 → Call
  | 0 => .states "Order" [{ name := "Draft", assignTo := "first" }]
  | 1 => .states "Order" [{ name := "Draft", assignTo := "second" }]
  | 2 => .entity "Order" ⟨"Sales", [], ["Prices"]⟩

def sharedPool : Pool (Fin 3) Outcome Store :=
  (Pool.ofCalls (fun _ ↦ ⟨"acme", "PRD"⟩) sharedCalls sharedStore).run Store.api [0, 1, 2, 2, 1, 0]

/-- All three ask before any of them patches, and patch in the opposite order. -/
theorem overlapping_calls_inTurn_reversed :
    sharedPool.patchers = [2, 1, 0] ∧
      (∀ caller, ∃ outcome, sharedPool.sessions caller = .done outcome) ∧
      Session.inTurn Store.api
        (fun caller ↦ Service.session ⟨"acme", "PRD"⟩ (sharedCalls caller)) [2, 1, 0] sharedStore =
      ([2, 1, 0].map fun caller ↦ (.applied 1, sharedPool.requestsOf caller),
        sharedPool.state) := by
  obtain ⟨hends, hturn⟩ := overlapping_calls_inTurn (fun _ ↦ ⟨"acme", "PRD"⟩) sharedCalls
    sharedStore [0, 1, 2, 2, 1, 0] sharedPool rfl
  have hturns : ∀ caller : Fin 3, 2 ≤ [0, 1, 2, 2, 1, 0].count caller := by decide
  have hdone : ∀ caller ∈ [2, 1, 0], sharedPool.sessions caller = .done (.applied 1) := by
    rintro caller -
    match caller with
    | 0 | 1 | 2 => rfl
  have hpatchers : sharedPool.patchers = [2, 1, 0] := by decide
  exact ⟨hpatchers, fun caller ↦ hends caller (hturns caller),
    hturn [2, 1, 0] (fun _ ↦ .applied 1) hdone (by decide)⟩

end Conform
