import Lopata.Workflow.Step

/-!
# Instances, the Binding and `executeWorkflow`

The operations of an instance handle (`SqliteWorkflowInstance`), of the binding
(`SqliteWorkflowBinding`) and the end of `executeWorkflow`, each as one synchronous segment.
The binding is wired to its class, as it is before any of them can be called.

`tryStartQueued` has no caller in the source and is not modelled; the queue is served by the
`finally` block of `executeWorkflow` alone.

## Main definitions

* `pause`, `resume`, `terminate`, `restart`, `skipSleep`, `sendEvent`: the handle.
* `create`, `createBatch`, `resumeInterrupted`: the binding.
* `executeEnd`: the code of `executeWorkflow` after `run()` has settled, with its `finally`.
-/

namespace Lopata.Workflow

variable (cfg : Config)

/-- The message for an instance that is not in the table. -/
def notFound (id : String) : String :=
  "Workflow instance " ++ id ++ " not found"

/-! ### The instance handle -/

/-- `pause`. -/
def pause (w : World) (id : String) : Seg :=
  ⟨[.setStatusFrom id .paused Status.active w.clock], w.mem, .done⟩

/-- The status `resume` restores: `waiting` if the instance has registered waiters. -/
def resumedStatus (m : Memory) (id : String) : Status :=
  match m.eventWaiters id with
  | some map => if (m.waiterMaps map).rows.isEmpty then .running else .waiting
  | none => .running

/-- `resume`. -/
def resume (w : World) (id : String) : Seg :=
  ⟨[.setStatusFrom id (resumedStatus w.mem id) (fun s => s = .paused) w.clock], w.mem, .done⟩

/-- `terminate`. -/
def terminate (w : World) (id : String) : Seg :=
  ⟨[.setStatusFrom id .terminated Status.terminable w.clock], w.mem.abortRegistered id, .done⟩

/-- The statements by which `restart` drops cached steps: all of them, or those completed
no earlier than a named one. -/
def restartSteps (db : Db) (id : String) : Option String → Except String (List Stmt)
  | none => .ok [.deleteSteps id]
  | some step =>
      match db.steps.get? (id, step) with
      | some row => .ok [.deleteStepsFrom id row.completedAt]
      | none =>
          .error ("Step \"" ++ step ++ "\" not found in workflow instance " ++ id)

/-- `restart`. The running execution is aborted and a new controller registered before the
step to restart from is looked up. An empty `fromStep` counts as none. -/
def restart (w : World) (id : String) (fromStep : Option String) : Seg :=
  match w.db.instances.get? id with
  | none => ⟨[], w.mem, .threw (some (notFound id))⟩
  | some row =>
      let m := w.mem.abortRegistered id
      match restartSteps w.db id (fromStep.filter (· ≠ "")) with
      | .error message => ⟨[], m.register id, .threw (some message)⟩
      | .ok stmts =>
          ⟨stmts ++ [.deleteAttempts id, .resetInstance id w.clock],
            m.launch id (row.params.getD "\x7b\x7d") row.createdAt, .done⟩

/-- `skipSleep`: the registered resolver, if there is one, ends its sleep. -/
def skipSleep (w : World) (id : String) : Seg :=
  match w.mem.sleepResolvers id with
  | some k => ⟨[], (w.mem.deleteSleepResolver id).settle k, .done⟩
  | none => ⟨[], w.mem, .done⟩

/-- The waiter `sendEvent` finds in memory: the call and its inner map. -/
def Memory.waiter (m : Memory) (id ty : String) : Option (ℕ × ℕ) :=
  match m.eventWaiters id with
  | some map => ((m.waiterMaps map).get? ty).map fun k => (map, k)
  | none => none

/-- The name a status has in an error text. -/
def Status.text : Status → String
  | .queued => "queued"
  | .running => "running"
  | .waiting => "waiting"
  | .paused => "paused"
  | .complete => "complete"
  | .errored => "errored"
  | .terminated => "terminated"

/-- The checks of `sendEvent`: the pattern of the type, and a status that still accepts
events. A missing row is let through. -/
def sendEventError (db : Db) (id ty : String) : Option String :=
  if !isEventType ty then some (invalidEventType ty)
  else
    match db.status id with
    | some s =>
        if s.finished then
          some ("Cannot send event to workflow instance \"" ++ id ++ "\" with status \"" ++
            s.text ++ "\"")
        else none
    | none => none

/-- `sendEvent`: to the waiter in memory, else into the table. -/
def sendEvent (w : World) (id ty : String) (payload : Option Json) : Seg :=
  match sendEventError w.db id ty with
  | some message => ⟨[], w.mem, .threw (some message)⟩
  | none =>
      match w.mem.waiter id ty with
      | some (map, k) =>
          ⟨[], (w.mem.deleteWaiter map ty).suspend k (.delivered payload w.clock), .done⟩
      | none => ⟨[.insertEvent ⟨id, ty, payload, w.clock⟩], w.mem, .done⟩

/-! ### The binding -/

/-- `cleanupRetentionExpired`. -/
def cleanupRetentionExpired (db : Db) (now : Millis) : List Stmt :=
  if cfg.limits.maxRetentionMs ≤ 0 then []
  else
    let cutoff := now - cfg.limits.maxRetentionMs
    (db.expiredIds cutoff).map Stmt.deleteAttempts ++ [.deleteExpired cutoff]

/-- The concurrency check of `create`. -/
def Db.atLimit (db : Db) : Bool :=
  cfg.limits.maxConcurrentInstances.any fun n => n ≤ db.countRunning

/-- The id `create` uses: the given one, or one made from the counter and the clock. -/
def newId (w : World) : Option String → String × Memory
  | some id => (id, w.mem)
  | none =>
      ("wf-" ++ toString (w.mem.counter + 1) ++ "-" ++ toString w.clock,
        { w.mem with counter := w.mem.counter + 1 })

/-- `create` once the id is chosen: clean up, check the id, insert the row as `running` or
`queued`, register a controller and, unless queued, start the execution. -/
def createWith (w : World) (m : Memory) (id : String) (params : Json) : Seg :=
  let cleanup := cleanupRetentionExpired cfg w.db w.clock
  let db := execAll w.db cleanup
  if cfg.limits.maxInstanceIdLength < jsLength id then
    ⟨cleanup, m, .threw (some ("Workflow instance ID must be " ++
      toString cfg.limits.maxInstanceIdLength ++ " characters or fewer, got " ++
      toString (jsLength id)))⟩
  else if (db.instances.get? id).isSome then
    ⟨cleanup, m, .threw (some ("Workflow instance with ID \"" ++ id ++
      "\" already exists"))⟩
  else if db.atLimit cfg then
    ⟨cleanup ++ [.insertInstance id
        ⟨some params, .queued, none, none, none, w.clock, w.clock⟩],
      m.register id, .done⟩
  else
    ⟨cleanup ++ [.insertInstance id
        ⟨some params, .running, none, none, none, w.clock, w.clock⟩],
      m.launch id params w.clock, .done⟩

/-- `create`. -/
def create (w : World) (id? : Option String) (params : Option Json) : Seg :=
  createWith cfg w (newId w id?).2 (newId w id?).1 (params.getD "\x7b\x7d")

/-- The checks of `create`: the length of the id, and no row under it once the expired
instances are gone. -/
def createAccepts (w : World) (id? : Option String) : Bool :=
  jsLength (newId w id?).1 ≤ cfg.limits.maxInstanceIdLength &&
    ((execAll w.db (cleanupRetentionExpired cfg w.db w.clock)).instances.get?
      (newId w id?).1).isNone

/-- `createBatch`: the arguments of the `create` calls it makes one after another. -/
def createBatch (batch : List (Option String × Option Json)) :
    Except String (List (Option String × Option Json)) :=
  if cfg.limits.maxBatchSize < batch.length then
    .error ("Batch size " ++ toString batch.length ++ " exceeds maximum of " ++
      toString cfg.limits.maxBatchSize)
  else .ok batch

/-- Start a row that is in the table: its status and a fresh execution for it. -/
def startRow (now : Millis) (g : List Stmt × Memory) (id : String) (row : InstanceRow) :
    List Stmt × Memory :=
  (g.1 ++ [.setStatus id .running now], g.2.launch id (row.params.getD "\x7b\x7d") row.createdAt)

/-- `resumeInterrupted`: every running or waiting instance gets a fresh execution. -/
def resumeInterrupted (w : World) : Seg :=
  let g := (w.db.instances.rows.filter fun p => p.2.status.active).foldl
    (fun g p => startRow w.clock g p.1 p.2) ([], w.mem)
  ⟨g.1, g.2, .done⟩

/-! ### The end of an execution -/

/-- What `executeWorkflow` writes once `run()` has settled. -/
def endStmts (aborted : Bool) (id : String) (now : Millis) : Outcome → List Stmt
  | .returned (.ok output) =>
      if aborted then [] else [.complete id output now, .deleteAttempts id]
  | .returned (.error err) =>
      if aborted then [] else [.fail id err.message err.name now]
  | .threw err =>
      if aborted then [.storeError id err.message err.name now]
      else [.fail id err.message err.name now]

/-- The `finally` block up to the queue: the instance's waiters and controller are dropped
from the registries, whoever registered them. -/
def Memory.finish (m : Memory) (c : ℕ) (id : String) : Memory :=
  { m with
    toExecutions := (m.toExecutions.setPhase c .ended).unregister id
    eventWaiters := Function.update m.eventWaiters id none }

/-- The continuation of `executeWorkflow` after `run()`: the result or the error is stored,
then the `finally` block starts the oldest queued instance. -/
def executeEnd (w : World) (c : ℕ) (r : Run) (outcome : Outcome) : Seg :=
  let stmts := endStmts (w.mem.aborted c) r.instanceId w.clock outcome
  let m := w.mem.finish c r.instanceId
  let db := execAll w.db stmts
  match db.firstQueued with
  | some (q, row) =>
      let g := startRow w.clock (stmts, m) q row
      ⟨g.1, g.2, .done⟩
  | none => ⟨stmts, m, .done⟩

end Lopata.Workflow
