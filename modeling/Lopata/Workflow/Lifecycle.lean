import Lopata.Workflow.Executions

/-!
# Lifecycles

What one segment can do to the executions of the process and to the statuses in the
database. Most segments are continuations of step calls and leave the executions alone; they
touch a status only when a `waitForEvent` starts waiting or resumes. The others are `create`,
`pause`, `resume`, `terminate`, `restart`, the settling of `run()` and the end of an
execution. Every invariant about executions and statuses is derived from the lemmas here.

## Main results

* `status_exec_*`: the status column after a statement.
* `segment_stepOp`: a step operation keeps the executions and moves a status only as `wakes`
  says.
* `create_cases`, `restart_cases`, `executeEnd_cases`: all outcomes of the operations that
  start or end executions.
-/

namespace Lopata.Workflow

variable (cfg : Config)

/-! ### The instance rows after a statement -/

/-- The statements that leave `workflow_instances` alone. -/
def Stmt.keepsInstances : Stmt → Bool
  | .cacheStep .. | .deleteSteps .. | .deleteStepsFrom .. | .recordAttempt ..
  | .deleteAttempt .. | .deleteAttempts .. | .insertEvent .. | .deleteFirstEvent .. => true
  | _ => false

theorem exec_instances {db : Db} {s : Stmt} (h : s.keepsInstances = true) :
    (exec db s).instances = db.instances := by
  cases s <;> first | rfl | cases h

theorem execAll_instances {db : Db} {ss : List Stmt}
    (h : ∀ s ∈ ss, s.keepsInstances = true) : (execAll db ss).instances = db.instances := by
  induction ss generalizing db with
  | nil => rfl
  | cons s ss ih =>
    rw [execAll_cons, ih fun s' hs' => h s' (List.mem_cons_of_mem s hs')]
    exact exec_instances (h s List.mem_cons_self)

/-- The statements a wait runs: its own status, set to `waiting` or `running`, besides
statements that leave the instances alone. -/
def Stmt.wakesOnly (id : String) : Stmt → Bool
  | .setStatus id' s _ => id' = id && s.active
  | s => s.keepsInstances

/-- A row that was set to `waiting` or `running`. -/
def InstanceRow.Woken (r r' : InstanceRow) : Prop :=
  ∃ s now, s.active = true ∧ r' = { r with status := s, updatedAt := now }

/-- Between two databases at most the row of one instance moved, and only by being woken. -/
def WokenAt (id : String) (db db' : Db) : Prop :=
  ∀ id', db'.instances.get? id' = db.instances.get? id' ∨
    (id' = id ∧ ∃ r r', db.instances.get? id' = some r ∧ db'.instances.get? id' = some r' ∧
      r.Woken r')

theorem WokenAt.refl (id : String) (db : Db) : WokenAt id db db := fun _ => Or.inl rfl

theorem WokenAt.trans {id : String} {db db' db'' : Db} (h : WokenAt id db db')
    (h' : WokenAt id db' db'') : WokenAt id db db'' := by
  intro id'
  rcases h id' with hkeep | ⟨rfl, r, r', hr, hr', s, now, hs, rfl⟩
  · rcases h' id' with hkeep' | ⟨rfl, r, r', hr, hr', hw⟩
    · exact Or.inl (hkeep'.trans hkeep)
    · exact Or.inr ⟨rfl, r, r', hkeep ▸ hr, hr', hw⟩
  · rcases h' id' with hkeep' | ⟨-, q, q', hq, hq', s', now', hs', rfl⟩
    · exact Or.inr ⟨rfl, r, _, hr, hkeep'.trans hr', s, now, hs, rfl⟩
    · rw [hr', Option.some.injEq] at hq
      subst hq
      exact Or.inr ⟨rfl, r, _, hr, hq', s', now', hs', rfl⟩

theorem WokenAt.exec {id : String} {db : Db} {s : Stmt} (h : s.wakesOnly id = true) :
    WokenAt id db (exec db s) := by
  by_cases hk : s.keepsInstances = true
  · intro id'
    exact Or.inl (by rw [exec_instances hk])
  · cases s with
    | setStatus id₀ st now =>
      simp only [Stmt.wakesOnly, Bool.and_eq_true, decide_eq_true_eq] at h
      obtain ⟨rfl, hst⟩ := h
      intro id'
      simp only [Workflow.exec, Table.get?_modify]
      split
      · next hid =>
          subst hid
          cases hr : db.instances.get? id' with
          | none => exact Or.inl rfl
          | some r => exact Or.inr ⟨rfl, r, _, rfl, rfl, st, now, hst, rfl⟩
      · exact Or.inl rfl
    | _ => exact absurd h hk

theorem WokenAt.execAll {id : String} {db : Db} {ss : List Stmt}
    (h : ∀ s ∈ ss, s.wakesOnly id = true) : WokenAt id db (execAll db ss) := by
  induction ss generalizing db with
  | nil => exact WokenAt.refl id db
  | cons s ss ih =>
    exact (WokenAt.exec (h s List.mem_cons_self)).trans
      (ih fun s' hs' => h s' (List.mem_cons_of_mem s hs'))

/-- In terms of the status column. -/
theorem WokenAt.status {id : String} {db db' : Db} (h : WokenAt id db db') (id' : String) :
    db'.status id' = db.status id' ∨
      (id' = id ∧ (db.status id').isSome ∧ ∃ s, db'.status id' = some s ∧ s.active = true) := by
  rcases h id' with hkeep | ⟨rfl, r, r', hr, hr', s, now, hs, rfl⟩
  · exact Or.inl (by rw [Db.status, hkeep, Db.status])
  · exact Or.inr ⟨rfl, by simp [Db.status, hr], s, by simp [Db.status, hr'], hs⟩

theorem status_exec_setStatus (db : Db) (id : String) (s : Status) (now : Millis)
    (id' : String) :
    (exec db (.setStatus id s now)).status id' =
      if id' = id then (db.status id').map fun _ => s else db.status id' := by
  simp only [Db.status, exec, Table.get?_modify]
  split
  · cases db.instances.get? id' <;> rfl
  · rfl

theorem status_exec_setStatusFrom (db : Db) (id : String) (s : Status) (p : Status → Bool)
    (now : Millis) (id' : String) :
    (exec db (.setStatusFrom id s p now)).status id' =
      if id' = id then (db.status id').map fun s' => if p s' then s else s'
      else db.status id' := by
  simp only [Db.status, exec, Table.get?_modify]
  split
  · cases hr : db.instances.get? id' with
    | none => rfl
    | some r => cases hp : p r.status <;> simp [hp]
  · rfl

theorem status_exec_resetInstance (db : Db) (id : String) (now : Millis) (id' : String) :
    (exec db (.resetInstance id now)).status id' =
      if id' = id then (db.status id').map fun _ => .running else db.status id' := by
  simp only [Db.status, exec, Table.get?_modify]
  split
  · cases db.instances.get? id' <;> rfl
  · rfl

theorem status_exec_insertInstance (db : Db) (id : String) (r : InstanceRow) (id' : String) :
    (exec db (.insertInstance id r)).status id' =
      if id' = id then some r.status else db.status id' := by
  simp only [Db.status, exec, Table.get?_insert]
  split <;> rfl

/-! ### Step operations -/

/-- The operations that are continuations of step calls, or act on a suspended call. -/
def Op.isStepOp : Op → Bool
  | .skipSleep .. | .sendEvent .. | .call .. | .poll .. | .enter .. | .callback .. | .retry ..
  | .sleepOver .. | .eventTimeout .. | .eventResume .. => true
  | _ => false

/-- The call is a `waitForEvent` that passes its checks and is not cached, so that it sets
the status. -/
def Call.startsWaiting (w : World) (x : Call) : Bool :=
  match x.method with
  | .waitForEvent name ty _ =>
      !w.mem.aborted x.run &&
        ((w.mem.impls x.run).enroll cfg true (waitKey name)).2.isNone &&
        isEventType ty && (w.db.steps.get? (x.instanceId, waitKey name)).isNone
  | _ => false

/-- The instance whose status a continuation of `waitForEvent` writes. -/
def wakes (w : World) : Op → Option String
  | .enter k =>
      (w.mem.calls.get? k).bind fun x =>
        match x.susp with
        | .entered => if x.startsWaiting cfg w then some x.instanceId else none
        | _ => none
  | .eventResume k =>
      (w.mem.calls.get? k).bind fun x =>
        match x.method, x.susp with
        | .waitForEvent .., .delivered .. => some x.instanceId
        | _, _ => none
  | _ => none

theorem isStepOp_of_wakes {cfg : Config} {w : World} {o : Op} {id : String}
    (h : wakes cfg w o = some id) : o.isStepOp = true := by
  cases o <;> first | rfl | cases h

/-- The segment keeps the executions and runs only statements of one kind. -/
structure Seg.Calm (e : Executions) (kind : Stmt → Bool) (g : Seg) : Prop where
  execs : g.mem.toExecutions = e
  stmts : ∀ s ∈ g.stmts, kind s = true

variable {cfg} {w : World} {m : Memory} {k : ℕ} {x : Call} {g : Seg} {e : Executions}
  {kind : Stmt → Bool} {ss : List Stmt}

theorem Seg.Calm.settle (hm : m.toExecutions = e) (hs : ∀ s ∈ ss, kind s = true)
    (r : Reply) : (Seg.settle m k ss r).Calm e kind :=
  ⟨hm, hs⟩

theorem Seg.Calm.reject (hm : m.toExecutions = e) (hs : ∀ s ∈ ss, kind s = true)
    (message : String) : (Seg.reject m k ss message).Calm e kind :=
  ⟨hm, hs⟩

theorem forall_mem_nil_kind : ∀ s ∈ ([] : List Stmt), kind s = true := by
  intro s hs
  cases hs

/-- What `cacheStep` runs leaves the instances alone. -/
theorem cacheStep_keeps {id name : String} {o : Option Recorded} {now : Millis}
    (h : cacheStep cfg id name o now = .ok ss) : ss = [.cacheStep id name o now] := by
  simp only [cacheStep] at h
  split at h
  · cases h
  · exact (Except.ok.inj h).symm

theorem attemptLoop_calm (hm : m.toExecutions = e) {plan : RetryPlan} {n : ℕ}
    {le : Option String} : (attemptLoop w m k x plan n le).Calm e kind := by
  simp only [attemptLoop]
  split
  · exact Seg.Calm.settle hm forall_mem_nil_kind _
  · split
    · exact Seg.Calm.reject hm forall_mem_nil_kind _
    · exact ⟨hm, forall_mem_nil_kind⟩

theorem doBody_calm (hm : m.toExecutions = e) {name : String} {config : StepConfig} :
    (doBody cfg w m k x name config).Calm e kind := by
  simp only [doBody]
  split
  · exact Seg.Calm.settle hm forall_mem_nil_kind _
  · split
    · exact Seg.Calm.reject hm forall_mem_nil_kind _
    · exact attemptLoop_calm hm

theorem sleepFor_calm (hm : m.toExecutions = e) (hs : ∀ s ∈ ss, kind s = true)
    {ms : Millis} : (sleepFor w m k x ss ms).Calm e kind := by
  simp only [sleepFor]
  split
  · exact ⟨hm, hs⟩
  · exact Seg.Calm.settle hm hs _

/-- The kinds of statements a continuation may run that does not wake its instance. -/
def KeepsKind (kind : Stmt → Bool) : Prop :=
  ∀ s, s.keepsInstances = true → kind s = true

theorem KeepsKind.cacheStep (hk : KeepsKind kind) {id name : String} {o : Option Recorded}
    {now : Millis} (h : Workflow.cacheStep cfg id name o now = .ok ss) :
    ∀ s ∈ ss, kind s = true := by
  rw [cacheStep_keeps h]
  intro s hs
  obtain rfl := List.mem_singleton.mp hs
  exact hk _ rfl

theorem sleepBody_calm (hk : KeepsKind kind) (hm : m.toExecutions = e) {name : String}
    {d : Duration} : (sleepBody cfg w m k x name d).Calm e kind := by
  simp only [sleepBody]
  split
  · split
    · exact sleepFor_calm hm forall_mem_nil_kind
    · exact Seg.Calm.reject hm forall_mem_nil_kind _
  · split
    · exact Seg.Calm.reject hm forall_mem_nil_kind _
    · split
      · exact Seg.Calm.reject hm forall_mem_nil_kind _
      · split
        · exact Seg.Calm.reject hm forall_mem_nil_kind _
        · next hc => exact sleepFor_calm hm (hk.cacheStep hc)

theorem sleepUntilBody_calm (hk : KeepsKind kind) (hm : m.toExecutions = e) {name : String}
    {t : Millis} : (sleepUntilBody cfg w m k x name t).Calm e kind := by
  simp only [sleepUntilBody]
  split
  · exact sleepFor_calm hm forall_mem_nil_kind
  · split
    · exact Seg.Calm.reject hm forall_mem_nil_kind _
    · split
      · exact Seg.Calm.reject hm forall_mem_nil_kind _
      · next hc => exact sleepFor_calm hm (hk.cacheStep hc)

theorem attemptFails_calm (hk : KeepsKind kind) (hm : w.mem.toExecutions = e)
    {name : String} {plan : RetryPlan} {n : ℕ} {err : Thrown} :
    (attemptFails w k x name plan n err).Calm e kind := by
  have hs : ∀ s ∈ [Stmt.recordAttempt x.instanceId name (n + 1) err.message err.name w.clock],
      kind s = true := by
    intro s hs
    obtain rfl := List.mem_singleton.mp hs
    exact hk _ rfl
  simp only [attemptFails]
  split
  · simp only [retryDelay]
    split
    · exact ⟨hm, hs⟩
    · split
      · exact Seg.Calm.reject hm hs _
      · exact ⟨hm, hs⟩
  · exact Seg.Calm.reject hm hs _

theorem callbackSettles_calm (hk : KeepsKind kind) (hm : w.mem.toExecutions = e)
    {name : String} {config : StepConfig} {plan : RetryPlan} {n : ℕ}
    {outcome : CallbackOutcome} :
    (callbackSettles cfg w k x name config plan n outcome).Calm e kind := by
  simp only [callbackSettles]
  split
  · split
    · next hc =>
        refine Seg.Calm.settle hm ?_ _
        intro s hs
        rcases List.mem_append.mp hs with hs | hs
        · exact hk.cacheStep hc s hs
        · obtain rfl := List.mem_singleton.mp hs
          exact hk _ rfl
    · exact attemptFails_calm hk hm
  · exact attemptFails_calm hk hm
  · exact Seg.Calm.reject hm forall_mem_nil_kind _
  · exact attemptFails_calm hk hm

@[simp] theorem registerWaiter_toExecutions {ty : String} {ms : Millis} :
    (registerWaiter w m k x ty ms).toExecutions = m.toExecutions := by
  simp only [registerWaiter, Memory.getWaitersForInstance]
  cases m.eventWaiters x.instanceId <;> rfl

theorem recordEvent_calm (hk : KeepsKind kind)
    (hw : kind (.setStatus x.instanceId .running w.clock) = true) (hm : m.toExecutions = e)
    (hs : ∀ s ∈ ss, kind s = true) {name ty : String} {p : Option Json} {t : Millis} :
    (recordEvent cfg m k x ss name ty p t w.clock).Calm e kind := by
  have hs' : ∀ s ∈ ss ++ [Stmt.setStatus x.instanceId .running w.clock], kind s = true := by
    intro s hmem
    rcases List.mem_append.mp hmem with hmem | hmem
    · exact hs s hmem
    · obtain rfl := List.mem_singleton.mp hmem
      exact hw
  simp only [recordEvent]
  split
  · next hc =>
      refine Seg.Calm.settle hm ?_ _
      intro s hmem
      rcases List.mem_append.mp hmem with hmem | hmem
      · exact hs' s hmem
      · exact hk.cacheStep hc s hmem
  · exact Seg.Calm.reject hm hs' _

theorem waitForEventBody_calm (hk : KeepsKind kind) {name ty : String}
    (hw : isEventType ty = true → w.db.steps.get? (x.instanceId, waitKey name) = none →
      ∀ s : Status, s.active = true → kind (.setStatus x.instanceId s w.clock) = true)
    (hm : m.toExecutions = e) {timeout : Option Duration} :
    (waitForEventBody cfg w m k x name ty timeout).Calm e kind := by
  simp only [waitForEventBody]
  split
  · exact Seg.Calm.reject hm forall_mem_nil_kind _
  · next hty =>
      split
      · exact Seg.Calm.settle hm forall_mem_nil_kind _
      · next hnone =>
          have hset := hw (by simpa using hty) hnone
          have hwait : ∀ s ∈ [Stmt.setStatus x.instanceId .waiting w.clock], kind s = true := by
            intro s hs
            obtain rfl := List.mem_singleton.mp hs
            exact hset .waiting rfl
          split
          · refine recordEvent_calm hk (hset .running rfl) hm ?_
            intro s hs
            rcases List.mem_append.mp hs with hs | hs
            · exact hwait s hs
            · obtain rfl := List.mem_singleton.mp hs
              exact hk _ rfl
          · split
            · exact Seg.Calm.reject hm hwait _
            · exact ⟨by rw [registerWaiter_toExecutions, hm], hwait⟩

/-- The continuation after `checkPaused` writes a status only where a wait starts. -/
theorem enter_calm (hk : KeepsKind kind)
    (hw : x.startsWaiting cfg w = true →
      ∀ s : Status, s.active = true → kind (.setStatus x.instanceId s w.clock) = true) :
    (enter cfg w k x).Calm w.mem.toExecutions kind := by
  rw [enter]
  split
  · exact Seg.Calm.reject rfl forall_mem_nil_kind _
  · next hab =>
      split
      · exact Seg.Calm.reject (by rfl) forall_mem_nil_kind _
      · next impl hen =>
          dsimp only
          split
          · exact doBody_calm (by rfl)
          · exact sleepBody_calm hk (by rfl)
          · exact sleepUntilBody_calm hk (by rfl)
          · next name ty timeout hmeth =>
              refine waitForEventBody_calm hk ?_ (by rfl)
              intro hty hnone
              refine hw ?_
              rw [hmeth] at hen
              simp only [StepCall.admission] at hen
              simp [Call.startsWaiting, hmeth, hab, hen, hty, hnone]

/-- The statements a step operation may run, by what it wakes. -/
def allowedBy : Option String → Stmt → Bool
  | some id => Stmt.wakesOnly id
  | none => Stmt.keepsInstances

theorem keepsKind_allowedBy (o : Option String) : KeepsKind (allowedBy o) := by
  intro s hs
  cases o with
  | none => exact hs
  | some id => cases s <;> first | rfl | cases hs

/-- **Step operations.** A step operation keeps the executions, and among the instance rows
it touches at most the status of the one it wakes. -/
theorem segment_stepOp {o : Op} (ho : o.isStepOp = true) (h : segment cfg w o = some g) :
    g.Calm w.mem.toExecutions (allowedBy (wakes cfg w o)) := by
  have hk := keepsKind_allowedBy (wakes cfg w o)
  cases o with
  | skipSleep id =>
    obtain rfl := Option.some.inj h
    simp only [skipSleep]
    split
    · exact ⟨rfl, forall_mem_nil_kind⟩
    · exact ⟨rfl, forall_mem_nil_kind⟩
  | sendEvent id ty payload =>
    obtain rfl := Option.some.inj h
    simp only [sendEvent]
    split
    · exact ⟨rfl, forall_mem_nil_kind⟩
    · split
      · exact ⟨rfl, forall_mem_nil_kind⟩
      · refine ⟨rfl, ?_⟩
        intro s hs
        obtain rfl := List.mem_singleton.mp hs
        rfl
  | call c method =>
    obtain ⟨r, -, rfl⟩ := Option.map_eq_some_iff.mp h
    simp only [stepCall]
    split
    · exact ⟨rfl, forall_mem_nil_kind⟩
    · split
      · exact ⟨rfl, forall_mem_nil_kind⟩
      · exact ⟨rfl, forall_mem_nil_kind⟩
  | poll k =>
    obtain ⟨x, -, h⟩ := Option.bind_eq_some_iff.mp h
    simp only [callSegment] at h
    split at h
    · split at h
      · obtain rfl := Option.some.inj h
        simp only [pollPaused]
        split
        · exact Seg.Calm.reject rfl forall_mem_nil_kind _
        · exact ⟨rfl, forall_mem_nil_kind⟩
      · cases h
    · cases h
  | enter k =>
    obtain ⟨x, hx, h⟩ := Option.bind_eq_some_iff.mp h
    simp only [callSegment] at h
    split at h
    · next hsusp =>
        obtain rfl := Option.some.inj h
        refine enter_calm hk ?_
        intro hstart s hs
        simp [wakes, hx, hsusp, hstart, allowedBy, Stmt.wakesOnly, hs]
    · cases h
  | callback k outcome =>
    obtain ⟨x, -, h⟩ := Option.bind_eq_some_iff.mp h
    simp only [callSegment] at h
    split at h
    · split at h
      · split at h
        · obtain rfl := Option.some.inj h
          exact callbackSettles_calm hk rfl
        · cases h
      · obtain rfl := Option.some.inj h
        exact callbackSettles_calm hk rfl
    · cases h
  | retry k =>
    obtain ⟨x, -, h⟩ := Option.bind_eq_some_iff.mp h
    simp only [callSegment] at h
    split at h
    · split at h
      · obtain rfl := Option.some.inj h
        exact attemptLoop_calm rfl
      · cases h
    · cases h
  | sleepOver k =>
    obtain ⟨x, -, h⟩ := Option.bind_eq_some_iff.mp h
    simp only [callSegment] at h
    split at h
    · split at h
      · obtain rfl := Option.some.inj h
        exact ⟨rfl, forall_mem_nil_kind⟩
      · cases h
    · cases h
  | eventTimeout k =>
    obtain ⟨x, -, h⟩ := Option.bind_eq_some_iff.mp h
    simp only [callSegment] at h
    split at h
    · split at h
      · obtain rfl := Option.some.inj h
        exact ⟨rfl, forall_mem_nil_kind⟩
      · cases h
    · cases h
  | eventResume k =>
    obtain ⟨x, hx, h⟩ := Option.bind_eq_some_iff.mp h
    simp only [callSegment] at h
    split at h
    · next hmeth hsusp =>
        obtain rfl := Option.some.inj h
        refine recordEvent_calm hk ?_ rfl forall_mem_nil_kind
        simp [wakes, hx, hmeth, hsusp, allowedBy, Stmt.wakesOnly, Status.active]
    · cases h
  | _ => cases ho

/-! ### Waits that wake their instance -/

/-- A wait that starts reaches its body. -/
theorem enter_of_startsWaiting (h : x.startsWaiting cfg w = true) :
    ∃ (m : Memory) (name ty : String) (timeout : Option Duration),
      enter cfg w k x = waitForEventBody cfg w m k x name ty timeout ∧
      isEventType ty = true ∧ w.db.steps.get? (x.instanceId, waitKey name) = none := by
  simp only [Call.startsWaiting] at h
  split at h
  · next name ty timeout hmeth =>
      simp only [Bool.and_eq_true, Bool.not_eq_true', Option.isNone_iff_eq_none] at h
      obtain ⟨⟨⟨hab, hen⟩, hty⟩, hnone⟩ := h
      simp only [enter]
      rw [hab, if_neg (by decide), hmeth]
      simp only [StepCall.admission]
      split
      · next impl message heq =>
          rw [heq] at hen
          cases hen
      · exact ⟨_, name, ty, timeout, rfl, hty, hnone⟩
  · cases h

/-- A wait that starts sets its status. -/
theorem waitForEventBody_setsStatus {name ty : String} {timeout : Option Duration}
    (hty : isEventType ty = true)
    (hnone : w.db.steps.get? (x.instanceId, waitKey name) = none) :
    ∃ s ∈ (waitForEventBody cfg w m k x name ty timeout).stmts,
      s.keepsInstances = false := by
  simp only [waitForEventBody]
  rw [hty, hnone]
  simp only [Bool.not_true, Bool.false_eq_true, if_false]
  have hset : (Stmt.setStatus x.instanceId .waiting w.clock).keepsInstances = false := rfl
  split
  · simp only [recordEvent]
    split
    · exact ⟨_, by simp [Seg.settle], hset⟩
    · exact ⟨_, by simp [Seg.reject, Seg.settle], hset⟩
  · split
    · exact ⟨_, by simp [Seg.reject, Seg.settle], hset⟩
    · exact ⟨_, List.mem_singleton_self _, hset⟩

/-- A segment that wakes an instance runs a statement on its row. -/
theorem exists_setStatus_of_wakes {o : Op} {id : String} (hw : wakes cfg w o = some id)
    (h : segment cfg w o = some g) : ∃ s ∈ g.stmts, s.keepsInstances = false := by
  cases o with
  | enter k =>
    obtain ⟨x, hx, hwake⟩ := Option.bind_eq_some_iff.mp hw
    obtain ⟨x', hx', h⟩ := Option.bind_eq_some_iff.mp h
    obtain rfl := Option.some.inj (hx.symm.trans hx')
    simp only [callSegment] at h
    split at hwake
    · next hsusp =>
        split at hwake
        · next hstart =>
            rw [hsusp] at h
            obtain rfl := Option.some.inj h
            obtain ⟨m, name, ty, timeout, heq, hty, hnone⟩ := enter_of_startsWaiting hstart
            rw [heq]
            exact waitForEventBody_setsStatus hty hnone
        · cases hwake
    · cases hwake
  | eventResume k =>
    obtain ⟨x, -, h⟩ := Option.bind_eq_some_iff.mp h
    simp only [callSegment] at h
    split at h
    · obtain rfl := Option.some.inj h
      have hset : (Stmt.setStatus x.instanceId .running w.clock).keepsInstances = false := rfl
      simp only [eventResume, recordEvent]
      split
      · exact ⟨_, by simp [Seg.settle], hset⟩
      · exact ⟨_, by simp [Seg.reject, Seg.settle], hset⟩
    · cases h
  | _ => cases hw

/-- Statements that wake an instance, at least one of which sets the status, leave an
existing row active. -/
theorem status_active_of_wakesOnly {db : Db} {id : String} {s₀ : Status}
    (hall : ∀ s ∈ ss, s.wakesOnly id = true) (hex : ∃ s ∈ ss, s.keepsInstances = false)
    (hrow : db.status id = some s₀) :
    ∃ s, (execAll db ss).status id = some s ∧ s.active = true := by
  induction ss generalizing db s₀ with
  | nil =>
    obtain ⟨s, hs, -⟩ := hex
    cases hs
  | cons s ss ih =>
    have hhead := hall s List.mem_cons_self
    have htail : ∀ s' ∈ ss, s'.wakesOnly id = true := fun s' hs' =>
      hall s' (List.mem_cons_of_mem s hs')
    rw [execAll_cons]
    by_cases hk : s.keepsInstances = true
    · obtain ⟨s', hs', hns'⟩ := hex
      have hmem : s' ∈ ss := by
        rcases List.mem_cons.mp hs' with rfl | hmem
        · rw [hk] at hns'
          cases hns'
        · exact hmem
      have hrow' : (exec db s).status id = some s₀ := by
        rw [Db.status, exec_instances hk]
        exact hrow
      exact ih htail ⟨s', hmem, hns'⟩ hrow'
    · cases s with
      | setStatus id₀ st now =>
        simp only [Stmt.wakesOnly, Bool.and_eq_true, decide_eq_true_eq] at hhead
        obtain ⟨rfl, hst⟩ := hhead
        have hnow : (exec db (.setStatus id₀ st now)).status id₀ = some st := by
          rw [status_exec_setStatus, if_pos rfl, hrow]
          rfl
        have hrest : WokenAt id₀ (exec db (.setStatus id₀ st now))
            (execAll (exec db (.setStatus id₀ st now)) ss) := WokenAt.execAll htail
        rcases hrest.status id₀ with hkeep | ⟨-, -, hwoken⟩
        · exact ⟨st, hkeep.trans hnow, hst⟩
        · exact hwoken
      | _ => exact absurd hhead hk

/-! ### Operations that start or end executions -/

/-- The retention cleanup removes complete and errored instances and changes no other row. -/
theorem get?_cleanup (cfg : Config) (db : Db) (now : Millis) (id : String) :
    (execAll db (cleanupRetentionExpired cfg db now)).instances.get? id =
        db.instances.get? id ∨
      ∃ r, db.instances.get? id = some r ∧ r.status.expirable = true ∧
        (execAll db (cleanupRetentionExpired cfg db now)).instances.get? id = none := by
  simp only [cleanupRetentionExpired]
  split
  · exact Or.inl rfl
  · have hkeep : ∀ s ∈ (db.expiredIds (now - cfg.limits.maxRetentionMs)).map Stmt.deleteAttempts,
        s.keepsInstances = true := by
      intro s hs
      obtain ⟨id', -, rfl⟩ := List.mem_map.mp hs
      rfl
    rw [execAll_append, execAll_cons, execAll_nil]
    simp only [exec, Table.get?_filter, execAll_instances hkeep]
    cases hr : db.instances.get? id with
    | none => exact Or.inl rfl
    | some r =>
      by_cases hexp : (r.status.expirable &&
          decide (r.updatedAt < now - cfg.limits.maxRetentionMs)) = true
      · refine Or.inr ⟨r, rfl, ?_, by simp [Option.filter, hexp]⟩
        simp only [Bool.and_eq_true] at hexp
        exact hexp.1
      · exact Or.inl (by simp [Option.filter, hexp])

/-- All outcomes of `create`. -/
theorem create_cases (cfg : Config) (w : World) (id? : Option String) (params : Option Json) :
    (createAccepts cfg w id? = false ∧
        (create cfg w id? params).stmts = cleanupRetentionExpired cfg w.db w.clock ∧
        (create cfg w id? params).mem.toExecutions = w.mem.toExecutions) ∨
      ∃ id row, id = (newId w id?).1 ∧ createAccepts cfg w id? = true ∧
        row.error = none ∧ row.params = some (params.getD "\x7b\x7d") ∧
        (execAll w.db (cleanupRetentionExpired cfg w.db w.clock)).instances.get? id = none ∧
        (create cfg w id? params).stmts =
          cleanupRetentionExpired cfg w.db w.clock ++ [.insertInstance id row] ∧
        (((execAll w.db (cleanupRetentionExpired cfg w.db w.clock)).atLimit cfg = true ∧
            row.status = .queued ∧
            (create cfg w id? params).mem.toExecutions = w.mem.toExecutions.register id) ∨
          ((execAll w.db (cleanupRetentionExpired cfg w.db w.clock)).atLimit cfg = false ∧
            row.status = .running ∧
            (create cfg w id? params).mem.toExecutions =
              w.mem.toExecutions.launch id (params.getD "\x7b\x7d") w.clock)) := by
  have hid : (newId w id?).2.toExecutions = w.mem.toExecutions := by
    cases id? <;> rfl
  simp only [create, createWith]
  split
  · next hlong => exact Or.inl ⟨by simp [createAccepts, hlong], rfl, hid⟩
  · next hlong =>
      split
      · next hsome => exact Or.inl ⟨by simp [createAccepts, hsome], rfl, hid⟩
      · next hnone =>
          rw [Option.not_isSome_iff_eq_none] at hnone
          have hacc : createAccepts cfg w id? = true := by
            simp only [createAccepts, Bool.and_eq_true, decide_eq_true_eq, hnone,
              Option.isNone_none, and_true]
            omega
          split
          · next hlim =>
              exact Or.inr ⟨_, _, rfl, hacc, rfl, rfl, hnone, rfl,
                Or.inl ⟨hlim, rfl, by simp [Memory.register, hid]⟩⟩
          · next hlim =>
              exact Or.inr ⟨_, _, rfl, hacc, rfl, rfl, hnone, rfl,
                Or.inr ⟨by simpa using hlim, rfl, by simp [Memory.launch, hid]⟩⟩

/-- All outcomes of `restart`. -/
theorem restart_cases (w : World) (id : String) (fromStep : Option String) :
    (w.db.instances.get? id = none ∧ restart w id fromStep =
        ⟨[], w.mem, .threw (some (notFound id))⟩) ∨
      ∃ row, w.db.instances.get? id = some row ∧
        ((∃ step, fromStep = some step ∧ step ≠ "" ∧
            w.db.steps.get? (id, step) = none ∧
            (restart w id fromStep).stmts = [] ∧
            (restart w id fromStep).mem = (w.mem.abortRegistered id).register id) ∨
          ∃ s : Stmt, (s = .deleteSteps id ∨ ∃ t, s = .deleteStepsFrom id t) ∧
            (∀ step, fromStep = some step → step ≠ "" →
              w.db.steps.get? (id, step) ≠ none) ∧
            (restart w id fromStep).stmts =
              [s, .deleteAttempts id, .resetInstance id w.clock] ∧
            (restart w id fromStep).mem =
              (w.mem.abortRegistered id).launch id (row.params.getD "\x7b\x7d")
                row.createdAt) := by
  simp only [restart]
  cases hrow : w.db.instances.get? id with
  | none => exact Or.inl ⟨rfl, rfl⟩
  | some row =>
    refine Or.inr ⟨row, rfl, ?_⟩
    dsimp only
    cases hf : fromStep.filter (fun s => decide (s ≠ "")) with
    | none =>
      refine Or.inr ⟨_, Or.inl rfl, ?_, rfl, rfl⟩
      rintro step rfl hne
      simp [Option.filter, hne] at hf
    | some step =>
      obtain ⟨rfl, hne⟩ := Option.filter_eq_some_iff.mp hf
      have hne : step ≠ "" := by simpa using hne
      cases hs : w.db.steps.get? (id, step) with
      | none =>
        exact Or.inl ⟨step, rfl, hne, hs, by simp [restartSteps, hs],
          by simp [restartSteps, hs]⟩
      | some row' =>
        refine Or.inr ⟨.deleteStepsFrom id row'.completedAt, Or.inr ⟨_, rfl⟩, ?_,
          by simp [restartSteps, hs], by simp [restartSteps, hs]⟩
        rintro step' heq -
        obtain rfl := Option.some.inj heq
        simp [hs]

/-- The oldest row is one of the rows, and there is one unless there is no row. -/
theorem oldest_spec (ps : List (String × InstanceRow)) :
    (ps = [] ∧ oldest ps = none) ∨ ∃ p ∈ ps, oldest ps = some p := by
  induction ps with
  | nil => exact Or.inl ⟨rfl, rfl⟩
  | cons p ps ih =>
    refine Or.inr ?_
    rw [oldest]
    rcases ih with ⟨-, hnone⟩ | ⟨q, hmem, hq⟩
    · rw [hnone]
      exact ⟨p, List.mem_cons_self, rfl⟩
    · rw [hq]
      dsimp only
      split
      · exact ⟨q, List.mem_cons_of_mem _ hmem, rfl⟩
      · exact ⟨p, List.mem_cons_self, rfl⟩

/-- What `firstQueued` finds is a queued row. -/
theorem Db.firstQueued_spec {db : Db} {q : String} {row : InstanceRow}
    (h : db.firstQueued = some (q, row)) :
    db.instances.get? q = some row ∧ row.status = .queued := by
  obtain ⟨p, hmem, hp⟩ := (oldest_spec _).resolve_left fun hnone => nomatch h.symm.trans hnone.2
  obtain rfl : (q, row) = p := Option.some.inj (h.symm.trans hp)
  obtain ⟨hrows, hst⟩ := List.mem_filter.mp hmem
  exact ⟨Table.mem_rows_iff.mp hrows, by simpa using hst⟩

/-- If there is a queued row, `firstQueued` finds one. -/
theorem Db.firstQueued_eq_none {db : Db} (h : db.firstQueued = none) (id : String) :
    db.status id ≠ some .queued := by
  intro hst
  obtain ⟨row, hrow, hq⟩ := Option.map_eq_some_iff.mp hst
  obtain ⟨hnil, -⟩ := (oldest_spec _).resolve_right fun ⟨p, _, hp⟩ => nomatch h.symm.trans hp
  have hmem : (id, row) ∈ db.instances.rows.filter fun p => p.2.status = .queued :=
    List.mem_filter.mpr ⟨Table.mem_of_get? hrow, by simp [hq]⟩
  rw [hnil] at hmem
  cases hmem

/-- All outcomes of the end of an execution. -/
theorem executeEnd_cases (w : World) (c : ℕ) (r : Run) (outcome : Outcome) :
    let stmts := endStmts (w.mem.aborted c) r.instanceId w.clock outcome
    let db := execAll w.db stmts
    (db.firstQueued = none ∧ (executeEnd w c r outcome).stmts = stmts ∧
        (executeEnd w c r outcome).mem = w.mem.finish c r.instanceId) ∨
      ∃ q row, db.instances.get? q = some row ∧ row.status = .queued ∧
        db.firstQueued = some (q, row) ∧
        (executeEnd w c r outcome).stmts = stmts ++ [.setStatus q .running w.clock] ∧
        (executeEnd w c r outcome).mem =
          (w.mem.finish c r.instanceId).launch q (row.params.getD "\x7b\x7d")
            row.createdAt := by
  dsimp only
  simp only [executeEnd]
  split
  · next q row hq =>
      obtain ⟨hrow, hst⟩ := Db.firstQueued_spec hq
      exact Or.inr ⟨q, row, hrow, hst, hq, rfl, rfl⟩
  · next hnone => exact Or.inl ⟨hnone, rfl, rfl⟩

end Lopata.Workflow
