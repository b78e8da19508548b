import Lopata.Lib.Mailbox
import Lopata.Workflow.Lifecycle

/-!
# The Event Ledger of an Instance

One instance with its events, and a ledger of what happened to them: the events `sendEvent`
has accepted, and the waits that were given one. A wait is known by its key in the step cache,
which it keeps when a stop of the process makes the body run again. The ledger is read off
the statements that were executed and the waiters that were called; the code knows nothing
of it.

## Main definitions

* `Ledger`, `observe`: the ledger of an instance and its transition function.
* `ExactlyOnce`: every event goes to one wait of its type, in order, and none is lost.
* `deliversOnce`: the steps under which this is so.
-/

namespace Lopata.Workflow

/-! ### Steps of one instance -/

/-- The operation belongs to the life of one started instance. -/
def Op.within (id : String) : Op → Bool
  | .create .. | .terminate .. | .restart .. => false
  | .pause id' | .resume id' | .skipSleep id' | .sendEvent id' .. => id' = id
  | .call .. | .poll .. | .enter .. | .callback .. | .retry .. | .sleepOver .. | .eventTimeout ..
  | .eventResume .. | .runSettles .. | .runEnds .. => true

/-- So does the step. -/
def Action.within (id : String) (a : Action) : Bool :=
  a.op?.all fun o => o.within id

/-! ### The ledger -/

/-- The system, the events that were accepted, and the events that waits were given, under the
keys of the waits; each oldest first. -/
structure Ledger where
  world : World
  sent : List EventRow
  served : List (String × EventRow)

/-- An event by its instance and its type. -/
def EventRow.topic (e : EventRow) : String × String := (e.instanceId, e.eventType)

/-- The events as a mailbox: the store is the table. -/
def Ledger.mailbox (s : Ledger) : Mailbox String EventRow where
  sent := s.sent
  served := s.served
  stored := s.world.db.events

/-- The key of a call in the step cache. -/
def Call.key (x : Call) : String := x.method.admission.2

/-- The event a statement stores. -/
def Stmt.inserted : Stmt → Option EventRow
  | .insertEvent row => some row
  | _ => none

/-- The event a statement removes. -/
def Stmt.removed (db : Db) : Stmt → Option EventRow
  | .deleteFirstEvent id ty => db.firstEvent id ty
  | _ => none

variable (cfg : Config)

/-- The statements a step executes before the process goes on or stops. -/
def ran (w : World) : Action → List Stmt
  | .op o => ((segment cfg w o).map Seg.stmts).getD []
  | .crashIn o n _ => ((segment cfg w o).map fun g => g.stmts.take n).getD []
  | .tick _ | .crash _ => []

/-- The waiter `sendEvent` calls, and the event it calls it with. -/
def handed (w : World) : Action → Option (String × EventRow)
  | .op (.sendEvent id ty payload) =>
      match sendEventError w.db id ty with
      | some _ => none
      | none =>
          (w.mem.waiter id ty).bind fun p =>
            (w.mem.calls.get? p.2).map fun x => (x.key, ⟨id, ty, payload, w.clock⟩)
  | _ => none

/-- The wait that takes an event out of the table. -/
def taken (w : World) (a : Action) : List (String × EventRow) :=
  match a.op? with
  | some (.enter k) =>
      match w.mem.calls.get? k with
      | some x => ((ran cfg w a).filterMap (Stmt.removed w.db)).map fun e => (x.key, e)
      | none => []
  | _ => []

/-- The transition function of the ledger: the steps of one instance, with the events they
accept and give away. -/
def observe (id : String) (s : Ledger) (a : Action) : Option Ledger :=
  if a.within id then
    (act cfg s.world a).map fun w =>
      { world := w
        sent := s.sent ++ (ran cfg s.world a).filterMap Stmt.inserted ++
          ((handed s.world a).map Prod.snd).toList
        served := s.served ++ (handed s.world a).toList ++ taken cfg s.world a }
  else none

/-- The instance right after `create` on an empty database at some time. -/
def Ledger.start (id : String) (params : Option Json) (now : ℕ) : Ledger :=
  let w : World := { World.init with clock := now }
  { world := w.after (create cfg w (some id) params)
    sent := []
    served := [] }

/-! ### Exactly once -/

/-- The object a wait records for an event. -/
def EventRow.recorded (e : EventRow) : Recorded :=
  .event e.payload e.createdAt e.eventType

/-- The call is a wait that was given the event and has not recorded it yet. -/
def Call.holds (x : Call) (e : EventRow) : Prop :=
  x.instanceId = e.instanceId ∧ x.susp = .delivered e.payload e.createdAt ∧
    ∃ name timeout, x.method = .waitForEvent name e.eventType timeout

/-- The event is recorded under the key. -/
def Db.records (db : Db) (key : String) (e : EventRow) : Prop :=
  ∃ row, db.steps.get? (e.instanceId, key) = some row ∧ row.output = some e.recorded

/-- A call in flight under the key holds the event. -/
def World.holding (w : World) (key : String) (e : EventRow) : Prop :=
  ∃ k x, w.mem.calls.get? k = some x ∧ x.key = key ∧ x.holds e

/-- The wait of this key has the event: it is recorded, or the call in flight holds it. -/
def World.has (w : World) (key : String) (e : EventRow) : Prop :=
  w.db.records key e ∨ w.holding key e

/-- Events are delivered exactly once. -/
structure ExactlyOnce (s : Ledger) : Prop where
  /-- The waits of a type are served in the order of sending, and what is not served yet is in
  the table: no event is lost, and none is given to two waits. No wait is given two events. -/
  fair : s.mailbox.Fair EventRow.topic
  /-- What the ledger calls served is what the waits have. -/
  had : ∀ key e, (key, e) ∈ s.served ↔ s.world.has key e
  /-- While a wait is pending no event of its type is left in the table. -/
  prompt : ∀ k x map ty, s.world.mem.calls.get? k = some x → x.waitsIn map ty = true →
    s.world.db.eventsOf x.instanceId ty = []

/-! ### The steps that keep it -/

/-- The record of the event fits. -/
def EventRow.fits (e : EventRow) : Bool :=
  e.recorded.serializedLength ≤ cfg.limits.maxStepOutputBytes

/-- A wait of this type is pending. -/
def World.awaits (w : World) (id ty : String) : Bool :=
  w.mem.calls.rows.any fun p =>
    match p.2.method, p.2.susp with
    | .waitForEvent _ ty' _, .waiting _ _ => p.2.instanceId = id && ty' = ty
    | _, _ => false

/-- A wait is pending that the registry has dropped with its execution. -/
def World.abandons (w : World) (id : String) : Bool :=
  w.mem.calls.rows.any fun p =>
    match p.2.susp with
    | .waiting map _ => p.2.instanceId = id && w.mem.eventWaiters id ≠ some map
    | _ => false

/-- A wait other than `k` was given an event and has not recorded it. -/
def World.unrecorded (w : World) (k : Option ℕ) : Bool :=
  w.mem.calls.rows.any fun p =>
    match p.2.susp with
    | .delivered _ _ => k ≠ some p.1
    | _ => false

/-- The wait that starts when call `k` goes on, with its type and its timeout. -/
def World.starts (w : World) (k : ℕ) : Option (Call × String × Option Duration) :=
  (w.mem.calls.get? k).bind fun x =>
    match x.method, x.susp with
    | .waitForEvent _ ty timeout, .entered =>
        if x.startsWaiting cfg w then some (x, ty, timeout) else none
    | _, _ => none

/-- The event call `k` resumes with. -/
def World.resumes (w : World) (k : ℕ) : Option EventRow :=
  (w.mem.calls.get? k).bind fun x =>
    match x.method, x.susp with
    | .waitForEvent _ ty _, .delivered payload timestamp =>
        some ⟨x.instanceId, ty, payload, timestamp⟩
    | _, _ => none

/-- The condition on a step of the instance:

* a wait is only registered when no wait of its type is pending, and the events that waits
  take and resume with fit into a record;
* no wait starts or resumes while a wait of an ended execution is pending;
* the process does not stop between the moment a wait is given an event and the moment the
  event is recorded. -/
def deliversOnce (id : String) (w : World) : Action → Bool
  | .op (.enter k) =>
      match w.starts cfg k with
      | some (x, ty, timeout) =>
          !w.abandons id &&
            match w.db.firstEvent x.instanceId ty with
            | some e => e.fits cfg
            | none => !(waitTimeout cfg timeout).toOption.isSome || !w.awaits id ty
      | none => true
  | .op (.eventResume k) =>
      match w.resumes k with
      | some e => !w.abandons id && e.fits cfg
      | none => true
  | .op _ | .tick _ => true
  | .crash _ => !w.unrecorded none
  | .crashIn (.enter k) n _ =>
      !w.unrecorded none &&
        match w.starts cfg k with
        | some (x, ty, _) =>
            (w.db.firstEvent x.instanceId ty).all fun e => n ≤ 1 || 4 ≤ n && e.fits cfg
        | none => true
  | .crashIn (.eventResume k) n _ =>
      !w.unrecorded (some k) && (w.resumes k).all fun e => 2 ≤ n && e.fits cfg
  | .crashIn _ _ _ => !w.unrecorded none

end Lopata.Workflow
