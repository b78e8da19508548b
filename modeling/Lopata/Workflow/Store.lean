import Lopata.Lib.Table
import Lopata.Workflow.Limits

/-!
# The Workflow Database

The four tables the workflow binding keeps in SQLite and the statements it runs against
them. A statement is data, so the code between two suspension points is a list of
statements and a crash between two of them is a prefix of that list.

The model is one binding with the rows of its workflow: every query of the binding that is
not keyed by an instance id filters on `workflow_name`, so that column, and `class_name`
next to it, are constant here and left out. A text column that holds `JSON.stringify`
output holds the value itself; SQL `NULL` is `none`.

## Main definitions

* `Db`: the tables `workflow_instances`, `workflow_steps`, `workflow_step_attempts`,
  `workflow_events`.
* `Stmt`, `exec`, `execAll`: the writing statements of `bindings/workflow.ts`.
* `Db.status`, `Db.countRunning`, `Db.firstQueued`, `Db.firstEvent`: its queries.
-/

namespace Lopata.Workflow

/-- The values of the `status` column. -/
inductive Status
  | queued
  | running
  | waiting
  | paused
  | complete
  | errored
  | terminated
  deriving DecidableEq, Repr

/-- `status IN ('running', 'waiting')`: the instance counts against the concurrency
limit and is picked up after a process restart. -/
def Status.active : Status → Bool
  | .running | .waiting => true
  | _ => false

/-- `status IN ('complete', 'errored')`: what the retention cleanup may delete. -/
def Status.expirable : Status → Bool
  | .complete | .errored => true
  | _ => false

/-- `['complete', 'errored', 'terminated'].includes(status)`: no more events. -/
def Status.finished : Status → Bool
  | .complete | .errored | .terminated => true
  | _ => false

/-- `status IN ('running', 'paused', 'waiting', 'queued')`: what `terminate` may end. -/
def Status.terminable : Status → Bool
  | .running | .paused | .waiting | .queued => true
  | _ => false

/-- A row of `workflow_instances`, under its id. -/
structure InstanceRow where
  params : Option Json
  status : Status
  output : Option Json
  error : Option String
  errorName : Option String
  createdAt : Millis
  updatedAt : Millis
  deriving DecidableEq, Repr

/-- The JSON objects a step records: the result of `do`, the wake-up time of `sleep` and
`sleepUntil`, the event a `waitForEvent` received. -/
inductive Recorded
  | result (json : Json)
  | until (time : Millis)
  | untilIso (time : Millis)
  | event (payload : Option Json) (timestamp : Millis) (type : String)
  deriving DecidableEq, Repr

/-- The length of `Date.prototype.toISOString`: 24 characters for the years 0 to 9999, and
three more for the others. -/
def isoLength (t : Millis) : ℕ :=
  if -62167219200000 ≤ t ∧ t < 253402300800000 then 24 else 27

/-- The length of the text of a number: from `10 ^ 21` on JavaScript writes an exponent, and no
number takes more than 24 characters. -/
def numberLength (n : Millis) : ℕ :=
  min (jsLength (toString n)) 24

/-- `JSON.stringify(output).length` of a recorded object. -/
def Recorded.serializedLength : Recorded → ℕ
  | .result json => jsLength json
  | .until time => jsLength "\x7b\"until\":\x7d" + numberLength time
  | .untilIso time => jsLength "\x7b\"until\":\"\"\x7d" + isoLength time
  | .event (some payload) timestamp type =>
      jsLength "\x7b\"payload\":,\"timestamp\":\"\",\"type\":\"\"\x7d" + jsLength payload +
        isoLength timestamp + jsLength type
  | .event none timestamp type =>
      jsLength "\x7b\"timestamp\":\"\",\"type\":\"\"\x7d" + isoLength timestamp + jsLength type

/-- A row of `workflow_steps`, under its instance id and step name. The output is `NULL`
for a step that returned `undefined`. -/
structure StepRow where
  output : Option Recorded
  completedAt : Millis
  deriving DecidableEq, Repr

/-- A row of `workflow_step_attempts`, under its instance id and step name. -/
structure AttemptRow where
  failedAttempts : ℕ
  lastError : String
  lastErrorName : String
  updatedAt : Millis
  deriving DecidableEq, Repr

/-- A row of `workflow_events`; the autoincremented id is its position. -/
structure EventRow where
  instanceId : String
  eventType : String
  payload : Option Json
  createdAt : Millis
  deriving DecidableEq, Repr

/-- The persistent state. -/
structure Db where
  instances : Table String InstanceRow
  steps : Table (String × String) StepRow
  attempts : Table (String × String) AttemptRow
  events : List EventRow

/-- A database without rows. -/
def Db.empty : Db where
  instances := .empty
  steps := .empty
  attempts := .empty
  events := []

/-! ### Queries -/

/-- `SELECT status FROM workflow_instances WHERE id = ?`. -/
def Db.status (db : Db) (id : String) : Option Status :=
  (db.instances.get? id).map InstanceRow.status

/-- `countRunning`. -/
def Db.countRunning (db : Db) : ℕ :=
  db.instances.count fun r => r.status.active

/-- The ids of the running and waiting instances. -/
def Db.activeIds (db : Db) : Finset String :=
  db.instances.support fun r => r.status.active

theorem Db.card_activeIds (db : Db) : db.activeIds.card = db.countRunning :=
  Table.card_support ..

theorem Db.mem_activeIds {db : Db} {id : String} :
    id ∈ db.activeIds ↔ ∃ s, db.status id = some s ∧ s.active = true := by
  simp only [activeIds, Table.mem_support, status, Option.map_eq_some_iff]
  constructor
  · rintro ⟨r, hr, hact⟩
    exact ⟨r.status, ⟨r, hr, rfl⟩, hact⟩
  · rintro ⟨s, ⟨r, hr, rfl⟩, hact⟩
    exact ⟨r, hr, hact⟩

/-- The ids `cleanupRetentionExpired` selects. -/
def Db.expiredIds (db : Db) (cutoff : Millis) : List String :=
  (db.instances.rows.filter fun p => p.2.status.expirable && p.2.updatedAt < cutoff).map
    Prod.fst

/-- `ORDER BY created_at ASC LIMIT 1`; of rows created at the same time the first in the table
is taken. -/
def oldest : List (String × InstanceRow) → Option (String × InstanceRow)
  | [] => none
  | p :: ps =>
      match oldest ps with
      | none => some p
      | some q => if q.2.createdAt < p.2.createdAt then some q else some p

/-- `SELECT ... WHERE status = 'queued' ORDER BY created_at ASC LIMIT 1`. -/
def Db.firstQueued (db : Db) : Option (String × InstanceRow) :=
  oldest (db.instances.rows.filter fun p => p.2.status = .queued)

/-- The rows of one type of event, oldest first. -/
def Db.eventsOf (db : Db) (id ty : String) : List EventRow :=
  db.events.filter fun e => e.instanceId = id ∧ e.eventType = ty

/-- `SELECT payload, created_at FROM workflow_events WHERE ... ORDER BY id ASC LIMIT 1`. -/
def Db.firstEvent (db : Db) (id ty : String) : Option EventRow :=
  (db.eventsOf id ty).head?

/-! ### Statements -/

/-- The writing statements of the binding, each with its bound values. -/
inductive Stmt
  /-- `create`: the new row. -/
  | insertInstance (id : String) (row : InstanceRow)
  /-- `cleanupRetentionExpired`: delete the expired rows. -/
  | deleteExpired (cutoff : Millis)
  /-- `UPDATE ... SET status = ?, updated_at = ? WHERE id = ?`. -/
  | setStatus (id : String) (status : Status) (now : Millis)
  /-- The same with `AND status IN (...)`. -/
  | setStatusFrom (id : String) (status : Status) (guard : Status → Bool) (now : Millis)
  /-- `executeWorkflow`, normal end. -/
  | complete (id : String) (output : Option Json) (now : Millis)
  /-- `executeWorkflow`, error end. -/
  | fail (id message name : String) (now : Millis)
  /-- `executeWorkflow`, error end of an aborted run: the status is kept. -/
  | storeError (id message name : String) (now : Millis)
  /-- `restart`: back to running with output and error cleared. -/
  | resetInstance (id : String) (now : Millis)
  /-- `INSERT OR REPLACE INTO workflow_steps`. -/
  | cacheStep (id name : String) (output : Option Recorded) (now : Millis)
  | deleteSteps (id : String)
  | deleteStepsFrom (id : String) (completedAt : Millis)
  /-- `INSERT OR REPLACE INTO workflow_step_attempts`. -/
  | recordAttempt (id name : String) (failedAttempts : ℕ) (message errName : String)
      (now : Millis)
  | deleteAttempt (id name : String)
  | deleteAttempts (id : String)
  | insertEvent (row : EventRow)
  /-- `DELETE FROM workflow_events WHERE ... ORDER BY id ASC LIMIT 1`. -/
  | deleteFirstEvent (id ty : String)

/-- What one statement does to the tables. -/
def exec (db : Db) : Stmt → Db
  | .insertInstance id row => { db with instances := db.instances.insert id row }
  | .deleteExpired cutoff =>
      { db with
        instances := db.instances.filter fun _ r =>
          !(r.status.expirable && r.updatedAt < cutoff) }
  | .setStatus id status now =>
      { db with
        instances := db.instances.modify id fun r =>
          { r with status := status, updatedAt := now } }
  | .setStatusFrom id status guard now =>
      { db with
        instances := db.instances.modify id fun r =>
          if guard r.status then { r with status := status, updatedAt := now } else r }
  | .complete id output now =>
      { db with
        instances := db.instances.modify id fun r =>
          { r with status := .complete, output := output, updatedAt := now } }
  | .fail id message name now =>
      { db with
        instances := db.instances.modify id fun r =>
          { r with
            status := .errored, error := some message, errorName := some name,
            updatedAt := now } }
  | .storeError id message name now =>
      { db with
        instances := db.instances.modify id fun r =>
          { r with error := some message, errorName := some name, updatedAt := now } }
  | .resetInstance id now =>
      { db with
        instances := db.instances.modify id fun r =>
          { r with
            status := .running, output := none, error := none, errorName := none,
            updatedAt := now } }
  | .cacheStep id name output now =>
      { db with steps := db.steps.insert (id, name) ⟨output, now⟩ }
  | .deleteSteps id => { db with steps := db.steps.filter fun k _ => k.1 ≠ id }
  | .deleteStepsFrom id completedAt =>
      { db with
        steps := db.steps.filter fun k r => !(k.1 = id ∧ completedAt ≤ r.completedAt) }
  | .recordAttempt id name n message errName now =>
      { db with attempts := db.attempts.insert (id, name) ⟨n, message, errName, now⟩ }
  | .deleteAttempt id name => { db with attempts := db.attempts.erase (id, name) }
  | .deleteAttempts id => { db with attempts := db.attempts.filter fun k _ => k.1 ≠ id }
  | .insertEvent row => { db with events := db.events ++ [row] }
  | .deleteFirstEvent id ty =>
      { db with
        events := db.events.eraseP fun e => e.instanceId = id ∧ e.eventType = ty }

/-- Run statements in order. -/
def execAll (db : Db) (ss : List Stmt) : Db :=
  ss.foldl exec db

@[simp] theorem execAll_nil (db : Db) : execAll db [] = db := rfl

@[simp] theorem execAll_cons (db : Db) (s : Stmt) (ss : List Stmt) :
    execAll db (s :: ss) = execAll (exec db s) ss := rfl

theorem execAll_append (db : Db) (ss ss' : List Stmt) :
    execAll db (ss ++ ss') = execAll (execAll db ss) ss' :=
  List.foldl_append

end Lopata.Workflow
