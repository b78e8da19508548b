import Lopata.Generations.Manager

/-!
# Requests in Flight

`Generation.callFetch` counts a request in `activeRequests` around a `return` of the promise of
its dispatch. The promise is not awaited there, so the `finally` block runs as soon as the
dispatch has started: the counter is back before anybody else can read it. What keeps a
generation busy is what its worker thread counts, and that leaves out a request that waits for
the static assets, for `_ready`, or for its outcome to be handed on.

A step is a piece of code that runs without an `await` in between. The promises a request waits
for settle when the environment says so.

## Main results

* `activeRequests_of_reaches`: the counter is zero in every state.
* `accounted_along_iff`: the requests in flight are counted, seen by `isIdle` and waited for, all
  along a run exactly when the run dispatches no request.
* `not_accounted`: a draining generation is stopped as idle while a request is in flight.
-/

namespace Lopata.Generations

/-! ### The dispatch of a request -/

/-- `Request`, as far as its dispatch is concerned. -/
structure Request where
  /-- `new URL(request.url).pathname`, unless it throws. -/
  pathname : Option String
  method : String := "GET"
  /-- `isWebSocketUpgrade`. -/
  upgrade : Bool := false
  deriving DecidableEq, Repr

/-- `canServeAssets`. -/
def Request.canServeAssets (request : Request) : Bool :=
  (request.method = "GET" || request.method = "HEAD") && !request.upgrade

/-- `config.assets.run_worker_first`. -/
inductive RunWorkerFirst
  | never
  | always
  | paths (patterns : List String)
  deriving DecidableEq, Repr

/-- `shouldRunWorkerFirst`. -/
def shouldRunWorkerFirst (config : RunWorkerFirst) (pathname : String) : Bool :=
  match config with
  | .always => true
  | .never => false
  | .paths patterns => patterns.any fun pattern =>
      if pattern = pathname then true
      else if "/*".toList.isSuffixOf pattern.toList then
        let directory := pattern.toList.dropLast
        directory.isPrefixOf pathname.toList || pathname.toList = directory.dropLast
      else false

/-- `isInfrastructurePath`. -/
def isInfrastructurePath (pathname : String) : Bool :=
  "/_bun/".toList.isPrefixOf pathname.toList || "/.well-known/".toList.isPrefixOf pathname.toList

/-- What a request in flight waits for. -/
inductive Stage
  /-- `assets.fetch`, whose promise is returned. -/
  | assets
  /-- `assets.fetch`, before the worker. -/
  | assetsFirst
  /-- `_ready` in `executeFetch`; `fallback` if a 404 goes to the assets. -/
  | ready (fallback : Bool)
  /-- The answer of the worker thread, in `_pending`. -/
  | pending (fallback : Bool)
  /-- The outcome is there and is handed on. -/
  | answered
  deriving DecidableEq, Repr

/-- How a promise settles. -/
inductive Settlement
  | response (status : ℕ)
  | rejected
  deriving DecidableEq, Repr

/-- What a generation serves requests with. -/
structure Site where
  /-- `threadExecutor !== null`. -/
  executor : Bool
  /-- `registry.staticAssets !== null`. -/
  assets : Bool
  runWorkerFirst : RunWorkerFirst := .never
  deriving DecidableEq, Repr

/-- `_dispatchFetch`, up to its first `await`. -/
def Site.dispatchFetch (site : Site) (request : Request) (pathname : String) : Stage :=
  if !site.executor then
    if !site.assets then .answered
    else if !request.canServeAssets then .answered
    else .assets
  else if !site.assets then .ready false
  else if !shouldRunWorkerFirst site.runWorkerFirst pathname && request.canServeAssets then
    .assetsFirst
  else .ready request.canServeAssets

/-- `_dispatchFetch` and `executeFetch` go on; `none` when the promise of `callFetch` settles. -/
def Stage.next (disposed : Bool) : Stage → Settlement → Option Stage
  | .assets, _ => some .answered
  | .assetsFirst, .response 404 => some (.ready false)
  | .assetsFirst, _ => some .answered
  | .ready _, .rejected => some .answered
  | .ready fallback, .response _ => if disposed then some .answered else some (.pending fallback)
  | .pending true, .response 404 => some .assets
  | .pending _, _ => some .answered
  | .answered, _ => none

/-! ### A generation and its requests -/

/-- What the worker thread is busy with besides the requests of `callFetch`. -/
structure Activity where
  waitUntil : ℕ := 0
  handlerWork : ℕ := 0
  /-- Fetches of other workers in `_pending`. -/
  otherFetches : ℕ := 0
  openStreams : ℕ := 0
  deriving DecidableEq, Repr

/-- A generation with the requests whose `callFetch` promise has not settled. -/
structure Traffic where
  generation : Generation
  activeRequests : ℤ
  activity : Activity
  calls : Table ℕ Stage

namespace Traffic

variable (site : Site) (t : Traffic)

/-- A new generation. -/
def start (createdAt : ℤ) : Traffic := ⟨{ createdAt }, 0, {}, .empty⟩

/-- `pendingFetch`. -/
def pendingFetch : ℕ :=
  t.activity.otherFetches + t.calls.count fun stage => stage matches .pending _

/-- `isIdle`. -/
def isIdle : Bool :=
  if 0 < t.activeRequests then false
  else if !site.executor then true
  else if 0 < t.activity.waitUntil then false
  else if 0 < t.activity.handlerWork then false
  else if 0 < t.pendingFetch then false
  else if 0 < t.activity.openStreams then false
  else true

/-- `callFetch`, up to the return of its promise; `traced` if the span can be stored. -/
def callFetch (c : ℕ) (request : Request) (traced : Bool) : Traffic :=
  let t := { t with activeRequests := t.activeRequests + 1 }
  let t :=
    match request.pathname with
    -- the promise is rejected when it is returned
    | none => t
    | some pathname =>
        let stage :=
          if isInfrastructurePath pathname || traced then site.dispatchFetch request pathname
          else .answered
        { t with calls := t.calls.insert c stage }
  -- `finally`
  { t with activeRequests := t.activeRequests - 1 }

/-- `stop`: the worker thread is disposed, which rejects what is in `_pending`. -/
def stop : Traffic :=
  if t.generation.state = .stopped then t
  else
    { t with
      generation := t.generation.stop
      activity := {}
      calls := t.calls.mapRows fun _ stage =>
        if stage matches .pending _ then .answered else stage }

end Traffic

/-- One step, with what its environment chose. -/
inductive Move
  /-- `callFetch`. -/
  | call (c : ℕ) (request : Request) (traced : Bool)
  /-- What a request waits for has settled. -/
  | goOn (c : ℕ) (settlement : Settlement)
  /-- The worker thread is busy with other things. -/
  | activity (activity : Activity)
  /-- `drain`. -/
  | drain
  /-- The drain continuation asks `isIdle`, and stops the generation if it is. -/
  | poll
  /-- The grace period is over. -/
  | graceOver
  deriving DecidableEq, Repr

/-- What a step does, `none` if it cannot be taken. -/
def Traffic.step (site : Site) (t : Traffic) : Move → Option Traffic
  | .call c request traced =>
      match t.calls.get? c with
      | some _ => none
      | none => some (t.callFetch site c request traced)
  | .goOn c settlement =>
      (t.calls.get? c).map fun stage =>
        match stage.next (t.generation.state = .stopped) settlement with
        | some next => { t with calls := t.calls.modify c fun _ => next }
        | none => { t with calls := t.calls.erase c }
  | .activity activity => some { t with activity }
  | .drain => some { t with generation := t.generation.drain }
  | .poll => some (if t.isIdle site then t.stop else t)
  | .graceOver => some t.stop

/-! ### What should be and what is counted -/

/-- The requests in flight are counted and keep the generation from being idle. -/
structure Accounted (site : Site) (t : Traffic) : Prop where
  counted : t.activeRequests = t.calls.rows.length
  busy : t.calls.rows ≠ [] → t.isIdle site = false

/-- A step accounts for the requests in flight: they are counted after it, and it does not stop
a draining generation as idle while there are any. -/
def accountsFor (site : Site) (t : Traffic) (a : Move) : Prop :=
  ∀ t', t.step site a = some t' → Accounted site t' ∧
    (a = .poll → t.generation.state = .draining → t'.generation.state = .stopped →
      t.calls.rows = [])

/-- A step dispatches no request: the URL of its request cannot be parsed. -/
def dispatchesNothing (_ : Traffic) : Move → Prop
  | .call _ request _ => request.pathname = none
  | _ => True

section Steps

variable {site : Site} {t t' : Traffic} {a : Move}

/-- A request whose URL cannot be parsed leaves no trace. -/
theorem callFetch_of_none {c : ℕ} {request : Request} {traced : Bool}
    (h : request.pathname = none) : t.callFetch site c request traced = t := by
  have hback : t.activeRequests + 1 - 1 = t.activeRequests := by omega
  simp only [Traffic.callFetch, h, hback]

/-- Any other request is in flight, and not counted. -/
theorem callFetch_of_some (site : Site) (t : Traffic) (c : ℕ) {request : Request} (traced : Bool)
    {pathname : String} (h : request.pathname = some pathname) :
    ∃ stage, t.callFetch site c request traced = { t with calls := t.calls.insert c stage } := by
  have hback : t.activeRequests + 1 - 1 = t.activeRequests := by omega
  refine ⟨if isInfrastructurePath pathname || traced then site.dispatchFetch request pathname
    else .answered, ?_⟩
  simp only [Traffic.callFetch, h, hback]

theorem activeRequests_stop : t.stop.activeRequests = t.activeRequests := by
  rw [Traffic.stop]
  split <;> rfl

/-- The counter is back after every step. -/
theorem activeRequests_step (hstep : t.step site a = some t') :
    t'.activeRequests = t.activeRequests := by
  cases a with
  | call c request traced =>
    simp only [Traffic.step] at hstep
    split at hstep
    · cases hstep
    · obtain rfl := Option.some.inj hstep
      cases hpathname : request.pathname with
      | none => rw [callFetch_of_none hpathname]
      | some pathname =>
        obtain ⟨stage, heq⟩ := callFetch_of_some site t c traced hpathname
        rw [heq]
  | goOn c settlement =>
    obtain ⟨stage, -, rfl⟩ := Option.map_eq_some_iff.mp hstep
    cases stage.next (t.generation.state = .stopped) settlement with
    | none => rfl
    | some next => rfl
  | activity activity =>
    obtain rfl := Option.some.inj hstep
    rfl
  | drain =>
    obtain rfl := Option.some.inj hstep
    rfl
  | poll =>
    obtain rfl := Option.some.inj hstep
    split
    · exact activeRequests_stop
    · rfl
  | graceOver =>
    obtain rfl := Option.some.inj hstep
    exact activeRequests_stop

/-- **The counter is zero.** -/
theorem activeRequests_of_reaches {createdAt : ℤ}
    (hrun : Reaches (Traffic.step site) unguarded (.start createdAt) t) : t.activeRequests = 0 :=
  hrun.invariant (I := fun t => t.activeRequests = 0) rfl fun _ _ _ hzero _ hstep =>
    (activeRequests_step hstep).trans hzero

/-- A step that dispatches nothing finds and leaves no request in flight. -/
theorem calls_step (hnil : t.calls.rows = []) (hok : dispatchesNothing t a)
    (hstep : t.step site a = some t') : t'.calls.rows = [] := by
  have hstop : t.stop.calls.rows = [] := by
    rw [Traffic.stop]
    split
    · exact hnil
    · show t.calls.rows.map _ = []
      rw [hnil, List.map_nil]
  cases a with
  | call c request traced =>
    simp only [Traffic.step] at hstep
    split at hstep
    · cases hstep
    · obtain rfl := Option.some.inj hstep
      rw [callFetch_of_none hok]
      exact hnil
  | goOn c settlement =>
    obtain ⟨stage, hstage, -⟩ := Option.map_eq_some_iff.mp hstep
    have hmem := Table.mem_of_get? hstage
    rw [hnil] at hmem
    cases hmem
  | activity activity =>
    obtain rfl := Option.some.inj hstep
    exact hnil
  | drain =>
    obtain rfl := Option.some.inj hstep
    exact hnil
  | poll =>
    obtain rfl := Option.some.inj hstep
    split
    · exact hstop
    · exact hnil
  | graceOver =>
    obtain rfl := Option.some.inj hstep
    exact hstop

/-- Without requests in flight a step accounts for them exactly when it dispatches none. -/
theorem accountsFor_iff (hzero : t.activeRequests = 0) (hnil : t.calls.rows = [])
    (hstep : t.step site a = some t') : accountsFor site t a ↔ dispatchesNothing t a := by
  constructor
  · intro hgood
    have hcounted := (hgood t' hstep).1.counted
    rw [activeRequests_step hstep, hzero] at hcounted
    cases a with
    | call c request traced =>
      show request.pathname = none
      by_contra hsome
      obtain ⟨pathname, hpathname⟩ := Option.ne_none_iff_exists'.mp hsome
      simp only [Traffic.step] at hstep
      split at hstep
      · cases hstep
      · obtain rfl := Option.some.inj hstep
        obtain ⟨stage, heq⟩ := callFetch_of_some site t c traced hpathname
        rw [heq] at hcounted
        have hcounted : (0 : ℤ) = (t.calls.insert c stage).rows.length := hcounted
        have hlength := List.length_pos_of_mem
          (Table.mem_of_get? (Table.get?_insert_self t.calls c stage))
        omega
    | _ => trivial
  · intro hok t'' hstep'
    obtain rfl := Option.some.inj (hstep.symm.trans hstep')
    have hnil' := calls_step hnil hok hstep
    refine ⟨⟨?_, fun hne => absurd hnil' hne⟩, fun _ _ _ => hnil⟩
    rw [activeRequests_step hstep, hzero, hnil']
    rfl

end Steps

/-! ### The results -/

/-- **In-flight accounting.** Whatever requests, their promises, other work and the drain do, the
requests in flight are counted and waited for all along a run exactly when the run dispatches no
request. -/
theorem accounted_along_iff (site : Site) (createdAt : ℤ) (as : List Move) :
    Along (Traffic.step site) (accountsFor site) (.start createdAt) as ↔
      Along (Traffic.step site) dispatchesNothing (.start createdAt) as := by
  refine along_iff_along (J := fun t => t.activeRequests = 0 ∧ t.calls.rows = []) ⟨rfl, rfl⟩
    (fun t a t' hinv hgood hstep => ?_) fun t a t' hinv hstep =>
      accountsFor_iff hinv.1 hinv.2 hstep
  have hok := (accountsFor_iff hinv.1 hinv.2 hstep).mp hgood
  exact ⟨(activeRequests_step hstep).trans hinv.1, calls_step hinv.2 hok hstep⟩

/-- A worker with static assets. -/
def withAssets : Site where
  executor := true
  assets := true

/-- A page is requested and its generation is drained before the assets have answered. -/
def drainedEarly : List Move :=
  [.call 0 { pathname := some "/account/" } true, .drain]

/-- The generation is stopped as idle, with the request in flight. -/
theorem not_accounted :
    ¬ ∀ as, Along (Traffic.step withAssets) (accountsFor withAssets) (.start 0) as := by
  intro hall
  have hrun : (play (Traffic.step withAssets) (.start 0) drainedEarly).any (fun t =>
      t.generation.state = .draining && !t.calls.rows.isEmpty &&
        (t.step withAssets .poll).any fun t' => t'.generation.state = .stopped) = true := by
    decide
  obtain ⟨t, hplay, ht⟩ := (Option.any_eq_true _ _).mp hrun
  simp only [Bool.and_eq_true, decide_eq_true_eq, Bool.not_eq_true',
    List.isEmpty_eq_false_iff] at ht
  obtain ⟨⟨hdraining, hne⟩, hpoll⟩ := ht
  obtain ⟨t', hstep, hstopped⟩ := (Option.any_eq_true _ _).mp hpoll
  have hgood := ((hall (drainedEarly ++ [.poll])).of_play hplay t' hstep).1
  exact hne ((hgood t' hstep).2 rfl hdraining (of_decide_eq_true hstopped))

end Lopata.Generations
