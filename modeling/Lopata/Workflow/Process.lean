import Lopata.Workflow.Store
import Mathlib.Logic.Function.Basic

/-!
# The Workflow Process

The in-memory half of the workflow binding: the registries the module keeps per process
(`abortControllers`, `eventWaiters`, `sleepResolvers`) and the executions and step calls
that are in flight. All of it is lost when the process stops.

Objects whose identity matters are numbered. An execution is an `executeWorkflow` call and
carries the number of its `AbortController`; the inner map of `eventWaiters` is shared by
the closures of every wait that registered in it, so it has a number of its own; a step
call is a promise returned by a method of `WorkflowStepImpl` that has not settled.

## Main definitions

* `Suspension`: where a step call is suspended.
* `Memory`, `Memory.empty`: the process state.
* `Memory.abort`: `AbortController.abort` with the handlers the suspended calls registered.
* `World`, `Seg`: a state of the system, and the outcome of one synchronous segment of code.
-/

namespace Lopata.Workflow

/-- A call of a method of `WorkflowStepImpl`. -/
inductive StepCall
  | doStep (name : String) (config : StepConfig)
  | sleep (name : String) (duration : Duration)
  | sleepUntil (name : String) (timestamp : Millis)
  | waitForEvent (name type : String) (timeout : Option Duration)
  deriving Repr

/-- The retry parameters `do` computes from its configuration. -/
structure RetryPlan where
  maxRetries : ℕ
  delayMs : Millis
  backoff : Backoff
  timeoutMs : Millis
  deriving DecidableEq, Repr

/-- Where a step call is suspended. -/
inductive Suspension
  /-- In the delay of `checkPaused`. -/
  | paused (due : Millis)
  /-- `checkPaused` has returned and its continuation is queued. -/
  | entered
  /-- A callback of `do` is running; its timer is due at `due`. -/
  | callback (plan : RetryPlan) (attempt : ℕ) (due : Millis)
  /-- In the delay before the next attempt; without a timer if the delay was not positive. -/
  | retryDelay (plan : RetryPlan) (attempt : ℕ) (due : Option Millis)
  /-- In `skippableDelay`. -/
  | sleeping (due : Millis)
  /-- Registered in inner waiter map `map`. -/
  | waiting (map : ℕ) (due : Millis)
  /-- The waiter was called with an event and the continuation is queued. -/
  | delivered (payload : Option Json) (timestamp : Millis)
  deriving DecidableEq, Repr

/-- The suspensions whose abort handler rejects the call. -/
def Suspension.abortable : Suspension → Bool
  | .paused _ | .retryDelay _ _ (some _) | .sleeping _ | .waiting _ _ => true
  | .entered | .callback _ _ _ | .retryDelay _ _ none | .delivered _ _ => false

/-- A step call in flight, with the execution and the instance it belongs to. -/
structure Call where
  run : ℕ
  instanceId : String
  method : StepCall
  susp : Suspension
  deriving Repr

/-- A thrown value, as far as the binding looks at it. -/
structure Thrown where
  name : String
  message : String
  deriving DecidableEq, Repr

/-- How a `run()` promise settled. A returned value may fail to serialize. -/
inductive Outcome
  | returned (output : Except Thrown (Option Json))
  | threw (err : Thrown)

/-- The progress of an `executeWorkflow` call. -/
inductive Phase
  /-- `run()` has not settled. -/
  | running
  /-- `run()` has settled and the code after the `await` is queued. -/
  | settled (outcome : Outcome)
  /-- The `finally` block has run. -/
  | ended

/-- The `finally` block of the execution has not run. -/
def Phase.unended : Phase → Bool
  | .ended => false
  | _ => true

/-- The `run()` promise of the execution has not settled. -/
def Phase.live : Phase → Bool
  | .running => true
  | _ => false

theorem Phase.unended_of_live {p : Phase} (h : p.live = true) : p.unended = true := by
  cases p <;> simp_all [Phase.live, Phase.unended]

/-- An `executeWorkflow` call, with the event it passes to `run()`. -/
structure Run where
  instanceId : String
  payload : Json
  timestamp : Millis
  phase : Phase

/-- The fields of a `WorkflowStepImpl`. -/
structure StepImpl where
  stepCount : ℕ
  knownStepNames : List String
  deriving DecidableEq, Repr

/-- The executions of the process and the registry of their controllers. -/
structure Executions where
  /-- `abortControllers`. -/
  abortControllers : String → Option ℕ
  /-- `signal.aborted` of each controller. -/
  aborted : ℕ → Bool
  /-- The executions, under the number of their controller. -/
  runs : Table ℕ Run
  nextController : ℕ

/-- The state of the process. -/
structure Memory extends Executions where
  /-- The step object of each execution. -/
  impls : ℕ → StepImpl
  /-- The step calls in flight. -/
  calls : Table ℕ Call
  /-- `eventWaiters`: the number of an instance's inner map. -/
  eventWaiters : String → Option ℕ
  /-- The inner maps: the call registered for an event type. -/
  waiterMaps : ℕ → Table String ℕ
  /-- `sleepResolvers`: the call an instance's sleep resolver resolves. -/
  sleepResolvers : String → Option ℕ
  /-- The `counter` of the binding, for generated ids. -/
  counter : ℕ
  nextMap : ℕ
  nextCall : ℕ

/-- The state of a fresh process. -/
def Memory.empty : Memory where
  abortControllers := fun _ => none
  aborted := fun _ => false
  runs := .empty
  nextController := 0
  impls := fun _ => ⟨0, []⟩
  calls := .empty
  eventWaiters := fun _ => none
  waiterMaps := fun _ => .empty
  sleepResolvers := fun _ => none
  counter := 0
  nextMap := 0
  nextCall := 0

/-! ### Executions and their controllers -/

/-- `new AbortController()` and `abortControllers.set(id, ...)`. -/
def Executions.register (e : Executions) (id : String) : Executions :=
  { e with
    abortControllers := Function.update e.abortControllers id (some e.nextController)
    nextController := e.nextController + 1 }

/-- A registration followed by the start of an execution with the new controller. -/
def Executions.launch (e : Executions) (id : String) (payload : Json) (timestamp : Millis) :
    Executions :=
  { e.register id with
    runs := e.runs.insert e.nextController ⟨id, payload, timestamp, .running⟩ }

/-- `signal.aborted` becomes true. -/
def Executions.abort (e : Executions) (c : ℕ) : Executions :=
  { e with aborted := Function.update e.aborted c true }

/-- `abortControllers.get(id)?.abort()`, as far as the signal is concerned. -/
def Executions.abortRegistered (e : Executions) (id : String) : Executions :=
  match e.abortControllers id with
  | some c => e.abort c
  | none => e

/-- The execution moves to another phase. -/
def Executions.setPhase (e : Executions) (c : ℕ) (p : Phase) : Executions :=
  { e with runs := e.runs.modify c fun r => { r with phase := p } }

/-- `abortControllers.delete(id)`. -/
def Executions.unregister (e : Executions) (id : String) : Executions :=
  { e with abortControllers := Function.update e.abortControllers id none }

/-! ### Operations on the registries -/

/-- A new controller under the instance's id, without an execution. -/
def Memory.register (m : Memory) (id : String) : Memory :=
  { m with toExecutions := m.toExecutions.register id }

/-- A new controller under the instance's id and the start of `executeWorkflow` with it: an
execution with a fresh step object. -/
def Memory.launch (m : Memory) (id : String) (payload : Json) (timestamp : Millis) : Memory :=
  { m with
    toExecutions := m.toExecutions.launch id payload timestamp
    impls := Function.update m.impls m.nextController ⟨0, []⟩ }

/-- Rewrite the suspension of a call. -/
def Memory.suspend (m : Memory) (k : ℕ) (s : Suspension) : Memory :=
  { m with calls := m.calls.modify k fun x => { x with susp := s } }

/-- The promise of a call settles. -/
def Memory.settle (m : Memory) (k : ℕ) : Memory :=
  { m with calls := m.calls.erase k }

/-- `waiters.delete(type)` on an inner map. -/
def Memory.deleteWaiter (m : Memory) (map : ℕ) (ty : String) : Memory :=
  { m with
    waiterMaps := Function.update m.waiterMaps map ((m.waiterMaps map).erase ty) }

/-- `sleepResolvers.delete(id)`. -/
def Memory.deleteSleepResolver (m : Memory) (id : String) : Memory :=
  { m with sleepResolvers := Function.update m.sleepResolvers id none }

/-- `getWaitersForInstance`: the number of the inner map, allocated on first use. -/
def Memory.getWaitersForInstance (m : Memory) (id : String) : ℕ × Memory :=
  match m.eventWaiters id with
  | some map => (map, m)
  | none =>
      (m.nextMap,
        { m with
          eventWaiters := Function.update m.eventWaiters id (some m.nextMap)
          waiterMaps := Function.update m.waiterMaps m.nextMap .empty
          nextMap := m.nextMap + 1 })

/-- The event type a call waits for in an inner map. -/
def Call.waitsIn (x : Call) (map : ℕ) (ty : String) : Bool :=
  match x.method, x.susp with
  | .waitForEvent _ ty' _, .waiting map' _ => map' = map ∧ ty' = ty
  | _, _ => false

/-- The call is suspended in a sleep of the instance. -/
def Call.sleepsFor (x : Call) (id : String) : Bool :=
  match x.susp with
  | .sleeping _ => x.instanceId = id
  | _ => false

/-- `abort()`: the first time, the abort handlers of the execution's suspended calls run;
each cleans up its registration and rejects. -/
def Memory.abort (m : Memory) (c : ℕ) : Memory :=
  if m.aborted c then m
  else
    { m with
      toExecutions := m.toExecutions.abort c
      calls := m.calls.filter fun _ x => !(x.run = c && x.susp.abortable)
      waiterMaps := fun map => (m.waiterMaps map).filter fun ty _ =>
        !m.calls.rows.any fun p => p.2.run = c && p.2.waitsIn map ty
      sleepResolvers := fun id =>
        if m.calls.rows.any fun p => p.2.run = c && p.2.sleepsFor id then none
        else m.sleepResolvers id }

/-- `abortControllers.get(id)?.abort()`. -/
def Memory.abortRegistered (m : Memory) (id : String) : Memory :=
  match m.abortControllers id with
  | some c => m.abort c
  | none => m

/-! ### States and segments -/

/-- A state of the system: the database, the process and the clock. -/
structure World where
  db : Db
  mem : Memory
  clock : Millis

/-- The start: no rows, a fresh process. -/
def World.init : World where
  db := .empty
  mem := .empty
  clock := 0

/-- What the caller of a segment sees: a pending promise, a value, a rejection (`none` is
the value `undefined`), or nothing. -/
inductive Reply
  | done
  | pending
  | value (v : Recorded)
  | undefined
  | threw (message : Option String)
  deriving DecidableEq, Repr

/-- The outcome of the code between two suspension points: the statements it ran, in order,
the process state it left, and its reply. -/
structure Seg where
  stmts : List Stmt
  mem : Memory
  reply : Reply

/-- The limits of the binding, and the one property its code reads from a user's JSON. -/
structure Config where
  limits : Limits
  /-- The property `until` of a recorded step result, if it is a number. -/
  untilOf : Json → Option Millis

/-- The default limits, for bodies whose results have no numeric `until`. -/
def Config.defaults : Config where
  limits := workflowDefaults
  untilOf := fun _ => none

/-- The time a host timer set now for `ms` fires: a delay that does not fit in 31 bits is
replaced by one millisecond. -/
def timerDue (now ms : Millis) : Millis :=
  if ms ≤ 2147483647 then now + ms else now + 1

/-- The message a call on an aborted execution rejects with. -/
def terminatedMessage : String := "workflow terminated"

end Lopata.Workflow
