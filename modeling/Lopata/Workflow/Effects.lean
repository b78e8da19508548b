import Lopata.Workflow.OneInstance

/-!
# Effects on Calls, Waiters, Records and Events

What a segment of an execution that is not aborted does to the step calls in flight, to the
waiters, to the step cache and to the events. The name checks of `WorkflowStepImpl` matter
here: a call that will record its step has a name of its own, which no row has and no other
call in flight uses.

## Main results

* `Noted`: the statements of a call that are not about events, and what they do to the tables.
* `Effect`, `EventEffect`, `effect_of_segment`: the effects, and that every segment of one
  instance has one of them.
-/

namespace Lopata.Workflow

/-! ### Statements that are not about events -/

/-- A call that has passed its checks and will record its step when it goes on. -/
def Suspension.recording : Suspension → Bool
  | .callback _ _ _ | .retryDelay _ _ _ | .waiting _ _ | .delivered _ _ => true
  | .paused _ | .entered | .sleeping _ => false

/-- The recorded object is an event. -/
def Recorded.isEvent : Recorded → Bool
  | .event _ _ _ => true
  | .result _ | .until _ | .untilIso _ => false

/-- The statements that touch neither the events nor the step cache. -/
def Stmt.silent : Stmt → Bool
  | .insertEvent .. | .deleteFirstEvent .. | .cacheStep .. | .deleteSteps ..
  | .deleteStepsFrom .. => false
  | _ => true

/-- These statements and the record of one step, which is no event. -/
def Stmt.notes (id key : String) : Stmt → Bool
  | .cacheStep id' key' output _ => id' = id && key' = key && !output.any Recorded.isEvent
  | s => s.silent

/-- The row records an event. -/
def StepRow.isEvent (row : StepRow) : Bool :=
  row.output.any Recorded.isEvent

/-- Between two databases at most the record of one step has changed, and no record of an
event. -/
structure Noted (id key : String) (db db' : Db) : Prop where
  events : db'.events = db.events
  others : ∀ p, p ≠ (id, key) → db'.steps.get? p = db.steps.get? p
  heard : ∀ p row, row.isEvent = true → (db'.steps.get? p = some row ↔ db.steps.get? p = some row)

/-- The step is not recorded, or not with an event. -/
def Unheard (id key : String) (db : Db) : Prop :=
  ∀ row, db.steps.get? (id, key) = some row → row.isEvent = false

variable {id key : String} {db db' db'' : Db} {ss : List Stmt} {s : Stmt}

theorem noted_of_same (hevents : db'.events = db.events) (hsteps : db'.steps = db.steps) :
    Noted id key db db' where
  events := hevents
  others _ _ := by rw [hsteps]
  heard _ _ _ := by rw [hsteps]

theorem Noted.trans (h : Noted id key db db') (h' : Noted id key db' db'') :
    Noted id key db db'' where
  events := h'.events.trans h.events
  others p hp := (h'.others p hp).trans (h.others p hp)
  heard p row hrow := (h'.heard p row hrow).trans (h.heard p row hrow)

theorem exec_silent (db : Db) (h : s.silent = true) :
    (exec db s).events = db.events ∧ (exec db s).steps = db.steps := by
  cases s <;> first | exact ⟨rfl, rfl⟩ | cases h

theorem execAll_silent (db : Db) (h : ∀ s ∈ ss, s.silent = true) :
    (execAll db ss).events = db.events ∧ (execAll db ss).steps = db.steps := by
  induction ss generalizing db with
  | nil => exact ⟨rfl, rfl⟩
  | cons s ss ih =>
    obtain ⟨hevents, hsteps⟩ := exec_silent db (h s List.mem_cons_self)
    obtain ⟨hevents', hsteps'⟩ := ih (exec db s) fun s' hs' =>
      h s' (List.mem_cons_of_mem s hs')
    exact ⟨hevents'.trans hevents, hsteps'.trans hsteps⟩

theorem exec_notes (hfree : Unheard id key db) (h : s.notes id key = true) :
    Noted id key db (exec db s) ∧ Unheard id key (exec db s) := by
  by_cases hsilent : s.silent = true
  · obtain ⟨hevents, hsteps⟩ := exec_silent db hsilent
    refine ⟨noted_of_same hevents hsteps, ?_⟩
    rw [Unheard, hsteps]
    exact hfree
  · cases s with
    | cacheStep id' key' output now =>
      simp only [Stmt.notes, Bool.and_eq_true, decide_eq_true_eq, Bool.not_eq_true'] at h
      obtain ⟨⟨rfl, rfl⟩, hout⟩ := h
      refine ⟨⟨rfl, fun p hp => Table.get?_insert_of_ne _ _ hp, ?_⟩, ?_⟩
      · intro p row hrow
        simp only [exec, Table.get?_insert]
        split
        · next hp =>
            subst hp
            constructor
            · intro heq
              obtain rfl := Option.some.inj heq
              cases hrow.symm.trans hout
            · intro heq
              cases hrow.symm.trans (hfree row heq)
        · exact Iff.rfl
      · intro row hrow
        simp only [exec, Table.get?_insert_self] at hrow
        obtain rfl := Option.some.inj hrow
        exact hout
    | _ => exact absurd h hsilent

theorem noted_of_notes (hfree : Unheard id key db) (h : ∀ s ∈ ss, s.notes id key = true) :
    Noted id key db (execAll db ss) := by
  induction ss generalizing db with
  | nil => exact noted_of_same rfl rfl
  | cons s ss ih =>
    obtain ⟨hnoted, hfree'⟩ := exec_notes hfree (h s List.mem_cons_self)
    exact hnoted.trans (ih hfree' fun s' hs' => h s' (List.mem_cons_of_mem s hs'))

/-! ### Names -/

/-- The names of steps that the step object of an execution has seen. -/
def Memory.known (m : Memory) (c : ℕ) : List String :=
  (m.impls c).knownStepNames

/-- The waiters are as before, and names were only added. -/
structure Memory.Frame (m m' : Memory) : Prop where
  waiters : m'.eventWaiters = m.eventWaiters
  maps : m'.waiterMaps = m.waiterMaps
  known : ∀ c name, name ∈ m.known c → name ∈ m'.known c

/-- The call has passed the checks of its name between two process states. -/
structure Call.Admitted (w : World) (x : Call) (m' : Memory) : Prop where
  new : x.key ∉ w.mem.known x.run
  known : x.key ∈ m'.known x.run
  fresh : w.db.steps.get? (x.instanceId, x.key) = none

theorem Memory.Frame.refl (m : Memory) : m.Frame m :=
  ⟨rfl, rfl, fun _ _ h => h⟩

/-- The checks of a name: it is new if they pass, and known afterwards. -/
theorem StepImpl.enroll_spec (cfg : Config) (i : StepImpl) (counted : Bool) (key : String) :
    (∀ name ∈ i.knownStepNames, name ∈ (i.enroll cfg counted key).1.knownStepNames) ∧
      ((i.enroll cfg counted key).2 = none →
        key ∉ i.knownStepNames ∧ key ∈ (i.enroll cfg counted key).1.knownStepNames) := by
  have hdup : ∀ j : StepImpl, j.knownStepNames = i.knownStepNames →
      (∀ name ∈ i.knownStepNames, name ∈ (j.checkDuplicateStepName key).1.knownStepNames) ∧
        ((j.checkDuplicateStepName key).2 = none →
          key ∉ i.knownStepNames ∧ key ∈ (j.checkDuplicateStepName key).1.knownStepNames) := by
    intro j hj
    simp only [StepImpl.checkDuplicateStepName]
    split
    · exact ⟨fun name h => hj ▸ h, fun h => nomatch h⟩
    · next hnew =>
        rw [hj] at hnew ⊢
        exact ⟨fun name h => List.mem_cons_of_mem _ h, fun _ => ⟨hnew, List.mem_cons_self⟩⟩
  simp only [StepImpl.enroll]
  split
  · split
    · next hlimit =>
        have hi := congrArg Prod.fst hlimit
        simp only [StepImpl.checkStepLimit] at hi
        subst hi
        exact ⟨fun name h => h, fun h => nomatch h⟩
    · next hlimit =>
        have hi := congrArg Prod.fst hlimit
        simp only [StepImpl.checkStepLimit] at hi
        subst hi
        exact hdup _ rfl
  · exact hdup i rfl

/-! ### Effects -/

/-- The name of the call is its own: the call has passed its checks, or no call has passed
them under this name and no step is recorded under it. -/
def Call.Owns (w : World) (x : Call) : Prop :=
  x.susp.recording = true ∨
    w.db.steps.get? (x.instanceId, x.key) = none ∧ x.key ∉ w.mem.known x.run

/-- The statements of a segment of the call are not about events, and only a call that owns its
name records its step. -/
def Seg.Notes (w : World) (x : Call) (g : Seg) : Prop :=
  (∀ s ∈ g.stmts, s.silent = true) ∨
    x.Owns w ∧ ∀ s ∈ g.stmts, s.notes x.instanceId x.key = true

/-- A wait that has started: it is pending, or it was given its event. -/
def Suspension.inWait : Suspension → Bool
  | .waiting _ _ | .delivered _ _ => true
  | _ => false

/-- The statements of a wait that takes an event from the table, up to the record. -/
def takeStmts (w : World) (id ty : String) : List Stmt :=
  [.setStatus id .waiting w.clock] ++ [.deleteFirstEvent id ty]

/-- The operation gives no event to a wait and resumes none. -/
structure Op.Apart (w : World) (o : Op) : Prop where
  handed : handed w (.op o) = none
  resumes : ∀ k, o ≠ .eventResume k

/-- The operations that may do so. -/
def Op.delivers : Op → Bool
  | .sendEvent .. | .eventResume .. => true
  | _ => false

theorem Op.Apart.of {w : World} {o : Op} (h : o.delivers = false) : o.Apart w := by
  constructor
  · cases o <;> first | rfl | cases h
  · rintro k rfl
    cases h

/-- What a segment does that is about an event or a started wait. -/
inductive EventEffect (cfg : Config) (w : World) : Op → Seg → Prop
  /-- The timer of a wait fires. -/
  | timedOut {k x map ty message} (hk : w.mem.calls.get? k = some x)
      (hx : x.waitsIn map ty = true) :
      EventEffect cfg w (.eventTimeout k) (Seg.reject (w.mem.deleteWaiter map ty) k [] message)
  /-- A wait finds an event in the table. -/
  | took {k x m name ty timeout e} (hk : w.mem.calls.get? k = some x) (hx : x.susp = .entered)
      (hmethod : x.method = .waitForEvent name ty timeout) (hstarts : x.startsWaiting cfg w = true)
      (hfirst : w.db.firstEvent x.instanceId ty = some e)
      (hm : ∃ i, m = { w.mem with impls := i }) (hmem : w.mem.Frame m)
      (hadmitted : x.Admitted w m) :
      EventEffect cfg w (.enter k)
        (recordEvent cfg m k x (takeStmts w x.instanceId ty) name ty
          e.payload e.createdAt w.clock)
  /-- A wait is registered. -/
  | waits {k x m name ty timeout ms} (hk : w.mem.calls.get? k = some x) (hx : x.susp = .entered)
      (hmethod : x.method = .waitForEvent name ty timeout) (hstarts : x.startsWaiting cfg w = true)
      (hnone : w.db.firstEvent x.instanceId ty = none) (htimeout : waitTimeout cfg timeout = .ok ms)
      (hm : ∃ i, m = { w.mem with impls := i }) (hmem : w.mem.Frame m)
      (hadmitted : x.Admitted w m) :
      EventEffect cfg w (.enter k)
        ⟨[.setStatus x.instanceId .waiting w.clock], registerWaiter w m k x ty ms, .pending⟩
  /-- A wait resumes with its event. -/
  | resumed {k x name ty timeout payload timestamp} (hk : w.mem.calls.get? k = some x)
      (hx : x.susp = .delivered payload timestamp)
      (hmethod : x.method = .waitForEvent name ty timeout) :
      EventEffect cfg w (.eventResume k) (eventResume cfg w k x name ty payload timestamp)
  /-- A waiter is called with an event. -/
  | given {id ty payload map k x} (herr : sendEventError w.db id ty = none)
      (hwaiter : w.mem.waiter id ty = some (map, k)) (hk : w.mem.calls.get? k = some x)
      (hid : x.instanceId = id) (hx : x.waitsIn map ty = true) :
      EventEffect cfg w (.sendEvent id ty payload)
        ⟨[], (w.mem.deleteWaiter map ty).suspend k (.delivered payload w.clock), .done⟩
  /-- An event is stored. -/
  | posted {id ty payload} (herr : sendEventError w.db id ty = none)
      (hwaiter : w.mem.waiter id ty = none) :
      EventEffect cfg w (.sendEvent id ty payload)
        ⟨[.insertEvent ⟨id, ty, payload, w.clock⟩], w.mem, .done⟩
  /-- The execution ends, and with it the registry of its waiters. -/
  | ended {c r g} (hr : w.mem.runs.get? c = some r) (hstmts : ∀ s ∈ g.stmts, s.silent = true)
      (hmem : g.mem = w.mem.finish c r.instanceId) : EventEffect cfg w (.runEnds c) g

/-- What a segment does to the calls, the waiters, the records and the events. -/
inductive Effect (cfg : Config) (w : World) : Op → Seg → Prop
  /-- Nothing. -/
  | idle {o g} (hapart : o.Apart w) (hstmts : ∀ s ∈ g.stmts, s.silent = true)
      (hcalls : g.mem.calls = w.mem.calls) (hmem : w.mem.Frame g.mem) : Effect cfg w o g
  /-- A step method is called. -/
  | called {o g x} (hapart : o.Apart w) (hx : x.susp.recording = false)
      (hstmts : g.stmts = []) (hcalls : g.mem.calls = w.mem.calls.insert w.mem.nextCall x)
      (hmem : w.mem.Frame g.mem) : Effect cfg w o g
  /-- A call settles that is no started wait. -/
  | settles {o k x g} (hapart : o.Apart w) (hk : w.mem.calls.get? k = some x)
      (hx : x.susp.inWait = false) (hstmts : g.Notes w x)
      (hcalls : g.mem.calls = w.mem.calls.erase k) (hmem : w.mem.Frame g.mem) : Effect cfg w o g
  /-- A call that is no started wait is suspended again. -/
  | parked {o k x s g} (hapart : o.Apart w) (hk : w.mem.calls.get? k = some x)
      (hx : x.susp.inWait = false) (hs : s.inWait = false) (hstmts : g.Notes w x)
      (hrec : s.recording = true → (∀ s ∈ g.stmts, s.silent = true) ∧
        (x.susp.recording = true ∨ x.Admitted w g.mem))
      (hcalls : g.mem.calls = w.mem.calls.modify k fun x => { x with susp := s })
      (hmem : w.mem.Frame g.mem) : Effect cfg w o g
  /-- The segment is about an event or a started wait. -/
  | mail {o g} (h : EventEffect cfg w o g) : Effect cfg w o g

variable {cfg : Config} {w : World} {m : Memory} {k : ℕ} {x : Call} {o : Op} {r : Reply}

theorem calls_suspend (hcalls : m.calls = w.mem.calls) (s : Suspension) :
    (m.suspend k s).calls = w.mem.calls.modify k fun x => { x with susp := s } := by
  rw [Memory.suspend, hcalls]

section Parts

variable (hapart : o.Apart w) (hk : w.mem.calls.get? k = some x)
  (hx : x.susp.inWait = false) (hcalls : m.calls = w.mem.calls) (hmem : w.mem.Frame m)

include hapart hk hx hcalls hmem

theorem Effect.settle (hstmts : Seg.Notes w x ⟨ss, m, r⟩) : Effect cfg w o (Seg.settle m k ss r) :=
  .settles hapart hk hx hstmts (congrArg (Table.erase · k) hcalls)
    ⟨hmem.waiters, hmem.maps, hmem.known⟩

theorem Effect.reject {message : String} (hstmts : Seg.Notes w x ⟨ss, m, .pending⟩) :
    Effect cfg w o (Seg.reject m k ss message) :=
  Effect.settle hapart hk hx hcalls hmem hstmts

/-- The loop of `do` starts the callback or throws. -/
theorem attemptLoop_effect (hrec : x.susp.recording = true ∨ x.Admitted w m) {plan : RetryPlan}
    {n : ℕ} {le : Option String} : Effect cfg w o (attemptLoop w m k x plan n le) := by
  have hnil : Seg.Notes w x ⟨[], m, .pending⟩ := .inl fun s hs => by cases hs
  simp only [attemptLoop]
  split
  · exact .settle hapart hk hx hcalls hmem hnil
  · split
    · exact .reject hapart hk hx hcalls hmem hnil
    · refine .parked hapart hk hx (s := .callback plan n (timerDue w.clock plan.timeoutMs)) rfl
        hnil ?_ (calls_suspend hcalls _) ⟨hmem.waiters, hmem.maps, hmem.known⟩
      intro _
      exact ⟨fun s hs => (by cases hs), hrec.imp_right fun h => ⟨h.new, h.known, h.fresh⟩⟩

/-- A sleep with the record of its end. -/
theorem sleepFor_effect (hstmts : Seg.Notes w x ⟨ss, m, .pending⟩) {ms : Millis} :
    Effect cfg w o (sleepFor w m k x ss ms) := by
  simp only [sleepFor]
  split
  · exact .parked hapart hk hx (s := .sleeping (timerDue w.clock ms)) rfl hstmts
      (fun h => by cases h) (calls_suspend hcalls _)
      ⟨hmem.waiters, hmem.maps, hmem.known⟩
  · exact .settle hapart hk hx hcalls hmem hstmts

end Parts

/-- No statements are no statements about events. -/
theorem notes_nil : Seg.Notes w x ⟨[], m, r⟩ := by
  refine .inl ?_
  intro s hs
  cases hs

/-- The record of a step that is new. -/
theorem notes_of_cacheStep {output : Option Recorded} {now : Millis}
    (hnone : w.db.steps.get? (x.instanceId, x.key) = none) (hnew : x.key ∉ w.mem.known x.run)
    (hcache : cacheStep cfg x.instanceId x.key output now = .ok ss)
    (hout : output.any Recorded.isEvent = false) : Seg.Notes w x ⟨ss, m, r⟩ := by
  refine .inr ⟨.inr ⟨hnone, hnew⟩, ?_⟩
  rw [cacheStep_keeps hcache]
  intro s hs
  obtain rfl := List.mem_singleton.mp hs
  simp [Stmt.notes, hout]

section Bodies

variable (hk : w.mem.calls.get? k = some x) (hx : x.susp = .entered)
  (hm : ∃ i, m = { w.mem with impls := i }) (hmem : w.mem.Frame m)

include hk hx hm hmem

theorem settle_effect (hstmts : Seg.Notes w x ⟨ss, m, r⟩) :
    Effect cfg w (.enter k) (Seg.settle m k ss r) := by
  refine .settle (.of rfl) hk (by rw [hx]; rfl) ?_ hmem hstmts
  obtain ⟨i, rfl⟩ := hm
  rfl

theorem reject_effect {message : String} (hstmts : ∀ s ∈ ss, s.silent = true) :
    Effect cfg w (.enter k) (Seg.reject m k ss message) :=
  settle_effect hk hx hm hmem (.inl hstmts)

theorem sleep_effect (hstmts : Seg.Notes w x ⟨ss, m, .pending⟩) {ms : Millis} :
    Effect cfg w (.enter k) (sleepFor w m k x ss ms) := by
  refine sleepFor_effect (.of rfl) hk (by rw [hx]; rfl) ?_ hmem hstmts
  obtain ⟨i, rfl⟩ := hm
  rfl

variable (hnew : x.key ∉ w.mem.known x.run)

include hnew

theorem sleepBody_effect {name : String} {d : Duration} (hmethod : x.method = .sleep name d) :
    Effect cfg w (.enter k) (sleepBody cfg w m k x name d) := by
  have hkey : x.key = "sleep:" ++ name := by rw [Call.key, hmethod]; rfl
  simp only [sleepBody]
  rw [← hkey]
  split
  · split
    · exact sleep_effect hk hx hm hmem notes_nil
    · exact reject_effect hk hx hm hmem forall_mem_nil_kind
  · next hnone =>
      split
      · exact reject_effect hk hx hm hmem forall_mem_nil_kind
      · split
        · exact reject_effect hk hx hm hmem forall_mem_nil_kind
        · split
          · exact reject_effect hk hx hm hmem forall_mem_nil_kind
          · next hcache =>
              exact sleep_effect hk hx hm hmem (notes_of_cacheStep hnone hnew hcache rfl)

theorem sleepUntilBody_effect {name : String} {t : Millis}
    (hmethod : x.method = .sleepUntil name t) :
    Effect cfg w (.enter k) (sleepUntilBody cfg w m k x name t) := by
  have hkey : x.key = "sleepUntil:" ++ name := by rw [Call.key, hmethod]; rfl
  simp only [sleepUntilBody]
  rw [← hkey]
  split
  · exact sleep_effect hk hx hm hmem notes_nil
  · next hnone =>
      split
      · exact reject_effect hk hx hm hmem forall_mem_nil_kind
      · split
        · exact reject_effect hk hx hm hmem forall_mem_nil_kind
        · next hcache =>
            exact sleep_effect hk hx hm hmem (notes_of_cacheStep hnone hnew hcache rfl)

variable (hknown : x.key ∈ m.known x.run)

include hknown

theorem doBody_effect {name : String} {config : StepConfig}
    (hmethod : x.method = .doStep name config) :
    Effect cfg w (.enter k) (doBody cfg w m k x name config) := by
  have hkey : x.key = name := by rw [Call.key, hmethod]; rfl
  simp only [doBody]
  rw [← hkey]
  split
  · exact settle_effect hk hx hm hmem notes_nil
  · next hnone =>
      split
      · exact reject_effect hk hx hm hmem forall_mem_nil_kind
      · refine attemptLoop_effect (.of rfl) hk (by rw [hx]; rfl) ?_ hmem
          (.inr ⟨hnew, hknown, hnone⟩)
        obtain ⟨i, rfl⟩ := hm
        rfl

theorem waitForEventBody_effect {name ty : String} {timeout : Option Duration}
    (hmethod : x.method = .waitForEvent name ty timeout)
    (hstarts : isEventType ty = true →
      w.db.steps.get? (x.instanceId, waitKey name) = none → x.startsWaiting cfg w = true) :
    Effect cfg w (.enter k)
      (waitForEventBody cfg w m k x name ty timeout) := by
  have hkey : x.key = waitKey name := by rw [Call.key, hmethod]; rfl
  simp only [waitForEventBody]
  split
  · exact reject_effect hk hx hm hmem forall_mem_nil_kind
  · next hty =>
      split
      · exact settle_effect hk hx hm hmem notes_nil
      · next hnone =>
          have hstart := hstarts (by simpa using hty) hnone
          have hadmitted : x.Admitted w m := ⟨hnew, hknown, hkey ▸ hnone⟩
          split
          · next hfirst => exact .mail (.took hk hx hmethod hstart hfirst hm hmem hadmitted)
          · next hfirst =>
              split
              · refine reject_effect hk hx hm hmem ?_
                intro s hs
                obtain rfl := List.mem_singleton.mp hs
                rfl
              · next htimeout =>
                  exact .mail (.waits hk hx hmethod hstart hfirst htimeout hm hmem hadmitted)

end Bodies

/-- The continuation after `checkPaused`. -/
theorem enter_effect (hk : w.mem.calls.get? k = some x) (hx : x.susp = .entered) :
    Effect cfg w (.enter k) (enter cfg w k x) := by
  rw [enter]
  split
  · exact reject_effect hk hx ⟨w.mem.impls, rfl⟩ (Memory.Frame.refl _) forall_mem_nil_kind
  · next hab =>
      have hspec := StepImpl.enroll_spec cfg (w.mem.impls x.run) x.method.admission.1
        x.method.admission.2
      have hmem : w.mem.Frame { w.mem with
          impls := Function.update w.mem.impls x.run ((w.mem.impls x.run).enroll cfg
            x.method.admission.1 x.method.admission.2).1 } := by
        refine ⟨rfl, rfl, ?_⟩
        intro c name hname
        simp only [Memory.known, Function.update_apply]
        split
        · next hc =>
            subst hc
            exact hspec.1 name hname
        · exact hname
      split
      · next impl message hen =>
          rw [hen] at hmem
          exact reject_effect hk hx ⟨_, rfl⟩ hmem forall_mem_nil_kind
      · next impl hen =>
          rw [hen] at hmem hspec
          have hnew : x.key ∉ w.mem.known x.run := (hspec.2 rfl).1
          have hknown : x.key ∈ ({ w.mem with
              impls := Function.update w.mem.impls x.run impl } : Memory).known x.run := by
            simp only [Memory.known, Function.update_self]
            exact (hspec.2 rfl).2
          dsimp only
          split
          · next hmethod => exact doBody_effect hk hx ⟨_, rfl⟩ hmem hnew hknown hmethod
          · next hmethod => exact sleepBody_effect hk hx ⟨_, rfl⟩ hmem hnew hmethod
          · next hmethod => exact sleepUntilBody_effect hk hx ⟨_, rfl⟩ hmem hnew hmethod
          · next name ty timeout hmethod =>
              refine waitForEventBody_effect hk hx ⟨_, rfl⟩ hmem hnew hknown hmethod ?_
              intro hty hnone
              rw [hmethod] at hen
              simp only [StepCall.admission] at hen
              simp [Call.startsWaiting, hmethod, hab, hen, hty, hnone]

/-- The `catch` block of an attempt. -/
theorem attemptFails_effect (hapart : o.Apart w) (hk : w.mem.calls.get? k = some x)
    (hx : ∃ plan n due, x.susp = .callback plan n due) {name : String} {plan : RetryPlan} {n : ℕ}
    {err : Thrown} : Effect cfg w o (attemptFails w k x name plan n err) := by
  have hwait : x.susp.inWait = false := by
    obtain ⟨_, _, _, hx⟩ := hx
    rw [hx]
    rfl
  have hrec : x.susp.recording = true := by
    obtain ⟨_, _, _, hx⟩ := hx
    rw [hx]
    rfl
  have hsilent : ∀ s ∈ [Stmt.recordAttempt x.instanceId name (n + 1) err.message err.name w.clock],
      s.silent = true := by
    intro s hs
    obtain rfl := List.mem_singleton.mp hs
    rfl
  have hmem := Memory.Frame.refl w.mem
  simp only [attemptFails]
  split
  · simp only [retryDelay]
    split
    · exact .parked hapart hk hwait (s := .retryDelay plan n none) rfl (.inl hsilent)
        (fun _ => ⟨hsilent, .inl hrec⟩) (calls_suspend rfl _) ⟨rfl, rfl, hmem.known⟩
    · split
      · exact .reject hapart hk hwait rfl hmem (.inl hsilent)
      · exact .parked hapart hk hwait
          (s := .retryDelay plan n (some (timerDue w.clock _))) rfl (.inl hsilent)
          (fun _ => ⟨hsilent, .inl hrec⟩) (calls_suspend rfl _) ⟨rfl, rfl, hmem.known⟩
  · exact .reject hapart hk hwait rfl hmem (.inl hsilent)

/-- The race between a callback and its timer. -/
theorem callbackSettles_effect (hapart : o.Apart w)
    (hk : w.mem.calls.get? k = some x) (hx : ∃ plan n due, x.susp = .callback plan n due)
    {name : String} {config : StepConfig} (hmethod : x.method = .doStep name config)
    {plan : RetryPlan} {n : ℕ} {outcome : CallbackOutcome} :
    Effect cfg w o (callbackSettles cfg w k x name config plan n outcome) := by
  have hwait : x.susp.inWait = false := by
    obtain ⟨_, _, _, hx⟩ := hx
    rw [hx]
    rfl
  have hrec : x.susp.recording = true := by
    obtain ⟨_, _, _, hx⟩ := hx
    rw [hx]
    rfl
  have hkey : x.key = name := by rw [Call.key, hmethod]; rfl
  simp only [callbackSettles]
  split
  · next v =>
      split
      · next hcache =>
          refine .settle hapart hk hwait rfl (Memory.Frame.refl _) (.inr ⟨.inl hrec, ?_⟩)
          rw [cacheStep_keeps hcache, hkey]
          intro s hs
          rcases List.mem_cons.mp hs with rfl | hs
          · cases v <;> simp [Stmt.notes, Recorded.isEvent]
          · obtain rfl := List.mem_singleton.mp hs
            rfl
      · exact attemptFails_effect hapart hk hx
  · exact attemptFails_effect hapart hk hx
  · exact .reject hapart hk hwait rfl (Memory.Frame.refl _) notes_nil
  · exact attemptFails_effect hapart hk hx

/-- The continuation of a step call. -/
theorem callSegment_effect {g : Seg} (hcall : o.call? = some k)
    (hk : w.mem.calls.get? k = some x) (hg : callSegment cfg w k x o = some g) :
    Effect cfg w o g := by
  have hrefl := Memory.Frame.refl w.mem
  cases o with
  | poll k' =>
    obtain rfl := Option.some.inj hcall
    simp only [callSegment] at hg
    split at hg
    · next hx =>
        have hwait : x.susp.inWait = false := by rw [hx]; rfl
        split at hg
        · obtain rfl := Option.some.inj hg
          simp only [pollPaused]
          split
          · exact .reject (.of rfl) hk hwait rfl hrefl notes_nil
          · simp only [pauseRound]
            split
            · exact .parked (.of rfl) hk hwait (s := .paused _) rfl notes_nil
                (fun h => by cases h) (calls_suspend rfl _) ⟨rfl, rfl, hrefl.known⟩
            · exact .parked (.of rfl) hk hwait (s := .entered) rfl notes_nil
                (fun h => by cases h) (calls_suspend rfl _) ⟨rfl, rfl, hrefl.known⟩
        · cases hg
    · cases hg
  | enter k' =>
    obtain rfl := Option.some.inj hcall
    simp only [callSegment] at hg
    split at hg
    · next hx =>
        obtain rfl := Option.some.inj hg
        exact enter_effect hk hx
    · cases hg
  | callback k' outcome =>
    simp only [callSegment] at hg
    split at hg
    · next hmethod hx =>
        split at hg
        · split at hg
          · obtain rfl := Option.some.inj hg
            exact callbackSettles_effect (.of rfl) hk ⟨_, _, _, hx⟩ hmethod
          · cases hg
        · obtain rfl := Option.some.inj hg
          exact callbackSettles_effect (.of rfl) hk ⟨_, _, _, hx⟩ hmethod
    · cases hg
  | retry k' =>
    simp only [callSegment] at hg
    split at hg
    · next hx =>
        split at hg
        · obtain rfl := Option.some.inj hg
          exact attemptLoop_effect (.of rfl) hk (by rw [hx]; rfl) rfl hrefl
            (.inl (by rw [hx]; rfl))
        · cases hg
    · cases hg
  | sleepOver k' =>
    simp only [callSegment] at hg
    split at hg
    · next hx =>
        split at hg
        · obtain rfl := Option.some.inj hg
          exact .settle (.of rfl) hk (by rw [hx]; rfl) rfl ⟨rfl, rfl, hrefl.known⟩ notes_nil
        · cases hg
    · cases hg
  | eventTimeout k' =>
    obtain rfl := Option.some.inj hcall
    simp only [callSegment] at hg
    split at hg
    · next hmethod hx =>
        split at hg
        · obtain rfl := Option.some.inj hg
          exact .mail (.timedOut hk (Call.waitsIn_iff.mpr ⟨_, _, _, hmethod, hx⟩))
        · cases hg
    · cases hg
  | eventResume k' =>
    obtain rfl := Option.some.inj hcall
    simp only [callSegment] at hg
    split at hg
    · next hmethod hx =>
        obtain rfl := Option.some.inj hg
        exact .mail (.resumed hk hx hmethod)
    · cases hg
  | _ => cases hcall

/-- **Inversion of the steps of one instance.** -/
theorem effect_of_segment {id : String} {g : Seg} (h : Solo id w) (hwithin : o.within id = true)
    (hg : segment cfg w o = some g) : Effect cfg w o g := by
  have hrefl := Memory.Frame.refl w.mem
  have hsingle : ∀ {s : Stmt}, s.silent = true → ∀ s' ∈ [s], s'.silent = true := by
    intro s hs s' hs'
    obtain rfl := List.mem_singleton.mp hs'
    exact hs
  cases o with
  | create | terminate | restart => cases hwithin
  | pause | resume =>
    obtain rfl := Option.some.inj hg
    exact .idle (.of rfl) (hsingle rfl) rfl hrefl
  | skipSleep id' =>
    obtain rfl := Option.some.inj hg
    simp only [skipSleep]
    split
    · next k hk =>
        obtain ⟨x, due, hx, -, hsusp⟩ := h.coherent.linked.sleeper id' k hk
        exact .settles (.of rfl) hx (by rw [hsusp]; rfl) notes_nil rfl ⟨rfl, rfl, hrefl.known⟩
    · exact .idle (.of rfl) forall_mem_nil_kind rfl hrefl
  | sendEvent id' ty payload =>
    obtain rfl := Option.some.inj hg
    simp only [sendEvent]
    split
    · next herr =>
        exact .idle ⟨by simp [handed, herr], fun _ h => by cases h⟩ forall_mem_nil_kind rfl hrefl
    · next herr =>
        split
        · next map k hw =>
            obtain ⟨-, -, x, hk, hid, hx⟩ := h.coherent.linked.waiter_spec hw
            exact .mail (.given herr hw hk hid hx)
        · next hw => exact .mail (.posted herr hw)
  | call c method =>
    obtain ⟨r, -, rfl⟩ := Option.map_eq_some_iff.mp hg
    simp only [stepCall]
    split
    · exact .idle (.of rfl) forall_mem_nil_kind rfl hrefl
    · split
      · exact .idle (.of rfl) forall_mem_nil_kind rfl hrefl
      · refine .called (.of rfl) ?_ rfl rfl ⟨rfl, rfl, hrefl.known⟩
        simp only [pauseRound]
        split <;> rfl
  | poll k | enter k | callback k outcome | retry k | sleepOver k | eventTimeout k
  | eventResume k =>
    obtain ⟨x, hk, hg⟩ := Option.bind_eq_some_iff.mp hg
    exact callSegment_effect rfl hk hg
  | runSettles c outcome =>
    obtain ⟨r, -, hg⟩ := Option.bind_eq_some_iff.mp hg
    split at hg
    · obtain rfl := Option.some.inj hg
      exact .idle (.of rfl) forall_mem_nil_kind rfl ⟨rfl, rfl, hrefl.known⟩
    · cases hg
  | runEnds c =>
    obtain ⟨r, hr, hg⟩ := Option.bind_eq_some_iff.mp hg
    split at hg
    · next outcome hphase =>
        obtain rfl := Option.some.inj hg
        rcases executeEnd_cases w c r outcome with
          ⟨-, hstmts, hmem⟩ | ⟨q, row, hrow, hq, -, -, -⟩
        · refine .mail (.ended hr ?_ hmem)
          rw [hstmts]
          rcases outcome with (_ | _) | _ <;> cases w.mem.aborted c <;>
            simp [endStmts, Stmt.silent]
        · have hstatus := status_endStmts w.db (w.mem.aborted c) r.instanceId w.clock outcome q
          rw [Db.status, hrow, Option.map_some, hq] at hstatus
          exact absurd hstatus.symm (h.not_queued hr outcome q)
    · cases hg

end Lopata.Workflow
