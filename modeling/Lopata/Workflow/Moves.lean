import Lopata.Workflow.Restart

/-!
# Moves

One inversion theorem for the transition function, in terms of the executions and the status
column alone: every step is one of the moves of `Moved`. The invariants about
executions and statuses are case analyses over these moves and look at no segment.

## Main results

* `Moved`: the moves, with all that each does to executions and statuses.
* `act_moves`: every step is one of them.
-/

namespace Lopata.Workflow

variable (cfg : Config)

/-! ### The moves -/

/-- Between two databases some complete or errored instances disappeared. -/
def Expired (db db' : Db) : Prop :=
  ∀ id, db'.status id = db.status id ∨
    (db'.status id = none ∧ ∃ s, db.status id = some s ∧ s.expirable = true)

/-- The status the end of an execution writes, if it writes one. -/
def endStatus (aborted : Bool) : Outcome → Option Status
  | .returned (.ok _) => if aborted then none else some .complete
  | .returned (.error _) => if aborted then none else some .errored
  | .threw _ => if aborted then none else some .errored

/-- An aborted execution writes no status. -/
theorem getD_endStatus_of_aborted (o : Outcome) (s : Status) :
    (endStatus true o).getD s = s := by
  rcases o with (_ | _) | _ <;> rfl

/-- An execution that is not aborted ends with a finished status. -/
theorem not_active_endStatus {o : Outcome} {s : Status} :
    ((endStatus false o).getD s).active = false := by
  rcases o with (_ | _) | _ <;> rfl

/-- The status column after the end of an execution of the instance, before the queue is
served. -/
def statusAfterEnd (w : World) (c : ℕ) (id : String) (o : Outcome) (id' : String) :
    Option Status :=
  if id' = id then (w.db.status id').map fun s => (endStatus (w.mem.aborted c) o).getD s
  else w.db.status id'

/-- The executions after the `finally` block of execution `c`, before the queue is
served. -/
def Executions.afterEnd (e : Executions) (c : ℕ) (id : String) : Executions :=
  (e.setPhase c .ended).unregister id

theorem Executions.Wf.afterEnd {e : Executions} (h : e.Wf) {c : ℕ} {r : Run}
    (hr : e.runs.get? c = some r) : (e.afterEnd c r.instanceId).Wf :=
  h.finish hr

/-- What one step does to the executions and to the status column. -/
inductive Moved (w : World) : Action → World → Prop
  /-- Time passes. -/
  | ticked {ms w'} (hexecs : w'.mem.toExecutions = w.mem.toExecutions)
      (hstatus : ∀ id, w'.db.status id = w.db.status id) :
      Moved w (.tick ms) w'
  /-- A step operation that wakes no row. -/
  | calm {o w'} (hstep : o.isStepOp = true)
      (hwakes : ∀ id, wakes cfg w o = some id → w.db.status id = none)
      (hexecs : w'.mem.toExecutions = w.mem.toExecutions)
      (hstatus : ∀ id, w'.db.status id = w.db.status id) :
      Moved w (.op o) w'
  /-- A wait starts or resumes. -/
  | woken {o id s w'} (hwakes : wakes cfg w o = some id) (hrow : w.db.status id ≠ none)
      (hactive : s.active = true) (hexecs : w'.mem.toExecutions = w.mem.toExecutions)
      (hstatus : ∀ id', w'.db.status id' = if id' = id then some s else w.db.status id') :
      Moved w (.op o) w'
  /-- `create` throws. -/
  | rejected {id? params w'} (haccepts : createAccepts cfg w id? = false)
      (hexecs : w'.mem.toExecutions = w.mem.toExecutions) (hexpired : Expired w.db w'.db) :
      Moved w (.op (.create id? params)) w'
  /-- `create` makes a queued instance. -/
  | queued {id? params id db w'} (haccepts : createAccepts cfg w id? = true)
      (hexpired : Expired w.db db) (hnew : db.status id = none) (hlimit : w.db.atLimit cfg = true)
      (hexecs : w'.mem.toExecutions = w.mem.toExecutions.register id)
      (hstatus : ∀ id', w'.db.status id' = if id' = id then some .queued else db.status id') :
      Moved w (.op (.create id? params)) w'
  /-- `create` starts an instance. -/
  | created {id? params id p t db w'} (haccepts : createAccepts cfg w id? = true)
      (hexpired : Expired w.db db) (hnew : db.status id = none) (hlimit : w.db.atLimit cfg = false)
      (hexecs : w'.mem.toExecutions = w.mem.toExecutions.launch id p t)
      (hstatus : ∀ id', w'.db.status id' = if id' = id then some .running else db.status id') :
      Moved w (.op (.create id? params)) w'
  | paused {id w'} (hexecs : w'.mem.toExecutions = w.mem.toExecutions)
      (hstatus : ∀ id', w'.db.status id' =
        if id' = id then (w.db.status id').map fun s => if s.active then .paused else s
        else w.db.status id') :
      Moved w (.op (.pause id)) w'
  | resumed {id s w'} (hactive : s.active = true)
      (hexecs : w'.mem.toExecutions = w.mem.toExecutions)
      (hstatus : ∀ id', w'.db.status id' =
        if id' = id then (w.db.status id').map fun s' => if s' = .paused then s else s'
        else w.db.status id') :
      Moved w (.op (.resume id)) w'
  | terminated {id w'} (hexecs : w'.mem.toExecutions = w.mem.toExecutions.abortRegistered id)
      (hstatus : ∀ id', w'.db.status id' =
        if id' = id then (w.db.status id').map fun s => if s.terminable then .terminated else s
        else w.db.status id') :
      Moved w (.op (.terminate id)) w'
  /-- `restart` throws because there is no such instance. -/
  | restartMissing {id fromStep w'} (hrow : w.db.status id = none)
      (hexecs : w'.mem.toExecutions = w.mem.toExecutions)
      (hstatus : ∀ id', w'.db.status id' = w.db.status id') :
      Moved w (.op (.restart id fromStep)) w'
  /-- `restart` throws because the step to restart from is not recorded. -/
  | restartFailed {id step w'} (hrow : w.db.status id ≠ none) (hstep : step ≠ "")
      (hnone : w.db.steps.get? (id, step) = none)
      (hexecs : w'.mem.toExecutions = (w.mem.toExecutions.abortRegistered id).register id)
      (hstatus : ∀ id', w'.db.status id' = w.db.status id') :
      Moved w (.op (.restart id (some step))) w'
  | restarted {id fromStep p t w'} (hrow : w.db.status id ≠ none)
      (hfound : ∀ step, fromStep = some step → step ≠ "" →
        w.db.steps.get? (id, step) ≠ none)
      (hexecs : w'.mem.toExecutions = (w.mem.toExecutions.abortRegistered id).launch id p t)
      (hstatus : ∀ id', w'.db.status id' =
        if id' = id then some .running else w.db.status id') :
      Moved w (.op (.restart id fromStep)) w'
  /-- A `run()` promise settles. -/
  | settled {c r o w'} (hrun : w.mem.runs.get? c = some r) (hphase : r.phase = .running)
      (hexecs : w'.mem.toExecutions = w.mem.toExecutions.setPhase c (.settled o))
      (hstatus : ∀ id, w'.db.status id = w.db.status id) :
      Moved w (.op (.runSettles c o)) w'
  /-- An execution ends and nothing is queued. -/
  | ended {c r o w'} (hrun : w.mem.runs.get? c = some r) (hphase : r.phase = .settled o)
      (hexecs : w'.mem.toExecutions = w.mem.toExecutions.afterEnd c r.instanceId)
      (hnone : ∀ q, statusAfterEnd w c r.instanceId o q ≠ some .queued)
      (hstatus : ∀ id, w'.db.status id = statusAfterEnd w c r.instanceId o id) :
      Moved w (.op (.runEnds c)) w'
  /-- An execution ends and a queued instance is started. -/
  | dequeued {c r o q p t w'} (hrun : w.mem.runs.get? c = some r)
      (hphase : r.phase = .settled o)
      (hqueued : statusAfterEnd w c r.instanceId o q = some .queued)
      (hexecs : w'.mem.toExecutions =
        (w.mem.toExecutions.afterEnd c r.instanceId).launch q p t)
      (hstatus : ∀ id, w'.db.status id =
        if id = q then some .running else statusAfterEnd w c r.instanceId o id) :
      Moved w (.op (.runEnds c)) w'
  /-- The process stops and is restarted. -/
  | crashed {a w₀ w'} (hcut : crashPoint cfg w a = some w₀) (hresumed : Resumed w₀ w') :
      Moved w a w'

/-! ### Every step is a move -/

variable {cfg} {w w' : World}

theorem expired_cleanup (cfg : Config) (db : Db) (now : Millis) :
    Expired db (execAll db (cleanupRetentionExpired cfg db now)) := by
  intro id
  simp only [Db.status]
  rcases get?_cleanup cfg db now id with heq | ⟨r, hr, hexp, hnone⟩
  · exact Or.inl (by rw [heq])
  · exact Or.inr ⟨by rw [hnone]; rfl, r.status, by rw [hr]; rfl, hexp⟩

/-- The retention cleanup takes no instance that counts against the limit. -/
theorem countRunning_cleanup (cfg : Config) (db : Db) (now : Millis) :
    (execAll db (cleanupRetentionExpired cfg db now)).countRunning = db.countRunning := by
  simp only [cleanupRetentionExpired]
  split
  · rfl
  · have hkeep : ∀ s ∈ (db.expiredIds (now - cfg.limits.maxRetentionMs)).map Stmt.deleteAttempts,
        s.keepsInstances = true := by
      intro s hs
      obtain ⟨id', -, rfl⟩ := List.mem_map.mp hs
      rfl
    rw [execAll_append, execAll_cons, execAll_nil]
    simp only [Db.countRunning, exec, execAll_instances hkeep]
    refine Table.count_filter_eq ?_
    intro id r hout
    cases hs : r.status <;> simp_all [Status.active, Status.expirable]

theorem atLimit_cleanup (cfg : Config) (db : Db) (now : Millis) :
    (execAll db (cleanupRetentionExpired cfg db now)).atLimit cfg = db.atLimit cfg := by
  simp only [Db.atLimit, countRunning_cleanup]

/-- The end of an execution moves the status of its instance only. -/
theorem status_endStmts (db : Db) (aborted : Bool) (id : String) (now : Millis) (o : Outcome)
    (id' : String) :
    (execAll db (endStmts aborted id now o)).status id' =
      if id' = id then (db.status id').map fun s => (endStatus aborted o).getD s
      else db.status id' := by
  have hsame : ∀ s : Option Status, (s.map fun s => (none : Option Status).getD s) = s := by
    intro s
    cases s <;> rfl
  rcases o with (err | out) | err <;> cases aborted <;>
    simp only [endStmts, endStatus, if_true, Bool.false_eq_true, if_false, execAll_nil,
      execAll_cons, Db.status, exec, Table.get?_modify, hsame, ite_self]
  all_goals
    split
    · cases db.instances.get? id' <;> rfl
    · rfl

theorem moved_create {id? : Option String} {params : Option Json} :
    Moved cfg w (.op (.create id? params)) (w.after (create cfg w id? params)) := by
  have hexp := expired_cleanup cfg w.db w.clock
  rcases create_cases cfg w id? params with
    ⟨hacc, hstmts, hexecs⟩ | ⟨id, row, -, hacc, -, -, hnone, hstmts, hcase⟩
  · refine .rejected hacc hexecs ?_
    simp only [World.after, hstmts]
    exact hexp
  · have hnew : (execAll w.db (cleanupRetentionExpired cfg w.db w.clock)).status id = none := by
      rw [Db.status, hnone]
      rfl
    have hstatus : ∀ id', (w.after (create cfg w id? params)).db.status id' =
        if id' = id then some row.status
        else (execAll w.db (cleanupRetentionExpired cfg w.db w.clock)).status id' := by
      intro id'
      simp only [World.after, hstmts, execAll_append, execAll_cons, execAll_nil]
      exact status_exec_insertInstance ..
    rw [atLimit_cleanup] at hcase
    rcases hcase with ⟨hlim, hrow, hexecs⟩ | ⟨hlim, hrow, hexecs⟩
    · exact .queued hacc hexp hnew hlim hexecs (hrow ▸ hstatus)
    · exact .created hacc hexp hnew hlim hexecs (hrow ▸ hstatus)

theorem moved_restart {id : String} {fromStep : Option String} :
    Moved cfg w (.op (.restart id fromStep)) (w.after (restart w id fromStep)) := by
  rcases restart_cases w id fromStep with
    ⟨hnone, hseg⟩ | ⟨row, hrow,
      ⟨step, rfl, hne, hnone, hstmts, hmem⟩ | ⟨s, hs, hfound, hstmts, hmem⟩⟩
  · rw [hseg]
    exact .restartMissing (by simp [Db.status, hnone]) rfl fun _ => rfl
  · have hst : w.db.status id ≠ none := by simp [Db.status, hrow]
    refine .restartFailed hst hne hnone ?_ ?_
    · simp only [World.after, hmem, Memory.register, Memory.abortRegistered_toExecutions]
    · intro id'
      simp only [World.after, hstmts, execAll_nil]
  · have hst : w.db.status id ≠ none := by simp [Db.status, hrow]
    refine .restarted (p := row.params.getD "\x7b\x7d") (t := row.createdAt) hst hfound ?_ ?_
    · simp only [World.after, hmem, Memory.launch, Memory.abortRegistered_toExecutions]
    · intro id'
      have hkeep : s.keepsInstances = true := by
        rcases hs with rfl | ⟨t, rfl⟩ <;> rfl
      simp only [World.after, hstmts, execAll_cons, execAll_nil]
      rw [status_exec_resetInstance]
      simp only [Db.status, exec_instances hkeep,
        exec_instances (show (Stmt.deleteAttempts id).keepsInstances = true from rfl)]
      split
      · next hid =>
          rw [hid, hrow]
          rfl
      · rfl

theorem moved_runEnds {c : ℕ} {r : Run} {o : Outcome} (hr : w.mem.runs.get? c = some r)
    (hphase : r.phase = .settled o) :
    Moved cfg w (.op (.runEnds c)) (w.after (executeEnd w c r o)) := by
  have hstatus : ∀ id, (execAll w.db
      (endStmts (w.mem.aborted c) r.instanceId w.clock o)).status id =
        statusAfterEnd w c r.instanceId o id :=
    status_endStmts w.db _ _ _ o
  rcases executeEnd_cases w c r o with
    ⟨hnone, hstmts, hmem⟩ | ⟨q, row, hrow, hq, -, hstmts, hmem⟩
  · refine .ended hr hphase ?_ ?_ ?_
    · simp only [World.after, hmem]
      rfl
    · intro q
      rw [← hstatus]
      exact Db.firstQueued_eq_none hnone q
    · intro id
      simp only [World.after, hstmts]
      exact hstatus id
  · have hqueued : statusAfterEnd w c r.instanceId o q = some .queued := by
      rw [← hstatus, Db.status, hrow, ← hq]
      rfl
    refine .dequeued (p := row.params.getD "\x7b\x7d") (t := row.createdAt) hr hphase hqueued
      ?_ ?_
    · simp only [World.after, hmem]
      rfl
    · intro id
      simp only [World.after, hstmts, execAll_append, execAll_cons, execAll_nil,
        status_exec_setStatus, hstatus]
      split
      · next hid =>
          rw [hid, hqueued]
          rfl
      · rfl

theorem moved_stepOp {o : Op} {g : Seg} (ho : o.isStepOp = true)
    (h : segment cfg w o = some g) : Moved cfg w (.op o) (w.after g) := by
  obtain ⟨hexecs, hstmts⟩ := segment_stepOp ho h
  cases hw : wakes cfg w o with
  | none =>
    rw [hw] at hstmts
    refine .calm ho ?_ hexecs ?_
    · intro id hw'
      rw [hw] at hw'
      cases hw'
    · intro id
      simp only [World.after, Db.status]
      rw [execAll_instances hstmts]
  | some id =>
    rw [hw] at hstmts
    have hwoken : WokenAt id w.db (execAll w.db g.stmts) := WokenAt.execAll hstmts
    have hothers : ∀ id', id' ≠ id →
        (execAll w.db g.stmts).status id' = w.db.status id' := by
      intro id' hne
      rcases hwoken.status id' with hkeep | ⟨heq, -⟩
      · exact hkeep
      · exact absurd heq hne
    cases hrow : w.db.status id with
    | none =>
      refine .calm ho ?_ hexecs ?_
      · intro id' hw'
        rw [hw, Option.some.injEq] at hw'
        exact hw' ▸ hrow
      · intro id'
        rcases hwoken.status id' with hkeep | ⟨rfl, hsome, -⟩
        · exact hkeep
        · rw [hrow] at hsome
          cases hsome
    | some s₀ =>
      obtain ⟨s, hs, hact⟩ :=
        status_active_of_wakesOnly hstmts (exists_setStatus_of_wakes hw h) hrow
      refine .woken hw (by rw [hrow]; exact Option.some_ne_none _) hact hexecs ?_
      intro id'
      split
      · next hid => exact hid ▸ hs
      · next hid => exact hothers id' hid

theorem resumedStatus_active (m : Memory) (id : String) :
    (resumedStatus m id).active = true := by
  simp only [resumedStatus]
  split
  · split <;> rfl
  · rfl

/-- **Inversion of the transition function.** -/
theorem act_moves {a : Action} (h : act cfg w a = some w') : Moved cfg w a w' := by
  cases a with
  | tick ms =>
    obtain rfl := Option.some.inj h
    exact .ticked rfl fun _ => rfl
  | crash again =>
    obtain rfl := Option.some.inj h
    exact .crashed rfl (resumed_resumeAfter w again)
  | crashIn o n again =>
    obtain ⟨g, hg, rfl⟩ := Option.map_eq_some_iff.mp h
    have hcut : crashPoint cfg w (.crashIn o n again) =
        some { w with db := execAll w.db (g.stmts.take n) } := by
      simp only [crashPoint, hg, Option.map_some]
    exact .crashed hcut (resumed_resumeAfter _ again)
  | op o =>
    obtain ⟨g, hg, rfl⟩ := Option.map_eq_some_iff.mp h
    cases o with
    | create id? params =>
      obtain rfl := Option.some.inj hg
      exact moved_create
    | pause id =>
      obtain rfl := Option.some.inj hg
      exact .paused rfl fun id' => status_exec_setStatusFrom ..
    | resume id =>
      obtain rfl := Option.some.inj hg
      refine .resumed (resumedStatus_active w.mem id) rfl ?_
      intro id'
      have hst := status_exec_setStatusFrom w.db id (resumedStatus w.mem id)
        (fun s => s = .paused) w.clock id'
      simp only [decide_eq_true_eq] at hst
      exact hst
    | terminate id =>
      obtain rfl := Option.some.inj hg
      exact .terminated (Memory.abortRegistered_toExecutions w.mem id)
        fun id' => status_exec_setStatusFrom ..
    | restart id fromStep =>
      obtain rfl := Option.some.inj hg
      exact moved_restart
    | runSettles c o =>
      obtain ⟨r, hr, hg⟩ := Option.bind_eq_some_iff.mp hg
      split at hg
      · next hphase =>
          obtain rfl := Option.some.inj hg
          exact .settled hr hphase rfl fun _ => rfl
      · cases hg
    | runEnds c =>
      obtain ⟨r, hr, hg⟩ := Option.bind_eq_some_iff.mp hg
      split at hg
      · next o hphase =>
          obtain rfl := Option.some.inj hg
          exact moved_runEnds hr hphase
      · cases hg
    | _ => exact moved_stepOp rfl hg

/-! ### First consequences -/

/-- An instance that is neither complete nor errored does not expire. -/
theorem Expired.status_eq {db db' : Db} (h : Expired db db') {id : String} {s : Status}
    (hs : db.status id = some s) (hkeep : s.expirable = false) : db'.status id = some s := by
  rcases h id with heq | ⟨-, s', hs', hexp⟩
  · exact heq.trans hs
  · rw [hs, Option.some.injEq] at hs'
    rw [← hs', hkeep] at hexp
    cases hexp

/-- Nothing appears in a database by expiry. -/
theorem Expired.status_of_some {db db' : Db} (h : Expired db db') {id : String} {s : Status}
    (hs : db'.status id = some s) : db.status id = some s := by
  rcases h id with heq | ⟨hnone, -⟩
  · exact heq ▸ hs
  · rw [hnone] at hs
    cases hs

/-- The registry stays coherent. -/
theorem Moved.wf {a : Action} (hm : Moved cfg w a w') (h : w.mem.toExecutions.Wf) :
    w'.mem.toExecutions.Wf := by
  cases hm with
  | ticked hexecs | calm _ _ hexecs | woken _ _ _ hexecs | rejected _ hexecs | paused hexecs
  | resumed _ hexecs | restartMissing _ hexecs => exact hexecs ▸ h
  | queued _ _ _ _ hexecs => exact hexecs ▸ h.register _
  | created _ _ _ _ hexecs => exact hexecs ▸ h.launch _ _ _
  | terminated hexecs => exact hexecs ▸ h.abortRegistered _
  | restartFailed _ _ _ hexecs => exact hexecs ▸ (h.abortRegistered _).register _
  | restarted _ _ hexecs => exact hexecs ▸ (h.abortRegistered _).launch _ _ _
  | settled _ _ hexecs => exact hexecs ▸ h.settle _ _
  | ended hrun _ hexecs => exact hexecs ▸ h.afterEnd hrun
  | dequeued hrun _ _ hexecs => exact hexecs ▸ (h.afterEnd hrun).launch _ _ _
  | crashed _ hresumed => exact hresumed.started.wf

/-- The registry is coherent at the start. -/
theorem wf_init : World.init.mem.toExecutions.Wf :=
  Executions.started_empty.wf

end Lopata.Workflow
