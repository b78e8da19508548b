import Lopata.Lib.Machine
import Lopata.Workflow.Instance

/-!
# The Workflow System

The transition system of one workflow binding. A label is one synchronous segment of code
(an operation of a handle, of the binding, one continuation of a step call or of
`executeWorkflow`), the passing of time, or a stop of the process. The body of a workflow
is arbitrary code: it may call any step method at any time, settle `run()` when it likes,
and leave step calls in flight behind.

A stop may strike between two statements of a segment: the statements before it are in the
database, the memory is gone. It is followed by `resumeInterrupted`, which may be cut short
by further stops.

## Main definitions

* `Op`, `segment`: the operations and the segments they run.
* `Action`, `act`: one step of the system.
* `World.resumeAfter`: a restart of the process.
* `crashPoint`: the state a stop of the process leaves behind.
-/

namespace Lopata.Workflow

variable (cfg : Config)

/-- One synchronous segment. -/
inductive Op
  | create (id? : Option String) (params : Option Json)
  | pause (id : String)
  | resume (id : String)
  | terminate (id : String)
  | restart (id : String) (fromStep : Option String)
  | skipSleep (id : String)
  | sendEvent (id ty : String) (payload : Option Json)
  /-- The code of execution `c` calls a step method. -/
  | call (c : ℕ) (method : StepCall)
  /-- The delay of `checkPaused` in call `k` is over. -/
  | poll (k : ℕ)
  /-- The continuation of call `k` after `checkPaused`. -/
  | enter (k : ℕ)
  /-- The callback of call `k` settles, or its timer fires first. -/
  | callback (k : ℕ) (outcome : CallbackOutcome)
  /-- The delay before the next attempt of call `k` is over. -/
  | retry (k : ℕ)
  /-- The timer of sleep `k` fires. -/
  | sleepOver (k : ℕ)
  /-- The timer of wait `k` fires. -/
  | eventTimeout (k : ℕ)
  /-- The continuation of wait `k` with its event. -/
  | eventResume (k : ℕ)
  /-- The `run()` promise of execution `c` settles. -/
  | runSettles (c : ℕ) (outcome : Outcome)
  /-- The continuation of `executeWorkflow` for execution `c`. -/
  | runEnds (c : ℕ)

/-- The segment a step call runs next, given what happens to it. -/
def callSegment (w : World) (k : ℕ) (x : Call) : Op → Option Seg
  | .poll _ =>
      match x.susp with
      | .paused due => if due ≤ w.clock then some (pollPaused w k x) else none
      | _ => none
  | .enter _ =>
      match x.susp with
      | .entered => some (enter cfg w k x)
      | _ => none
  | .callback _ outcome =>
      match x.method, x.susp with
      | .doStep name config, .callback plan attempt due =>
          match outcome with
          | .timedOut =>
              if due ≤ w.clock then
                some (callbackSettles cfg w k x name config plan attempt outcome)
              else none
          | _ => some (callbackSettles cfg w k x name config plan attempt outcome)
      | _, _ => none
  | .retry _ =>
      match x.susp with
      | .retryDelay plan attempt due =>
          if due.all fun d => d ≤ w.clock then some (retry w k x plan attempt) else none
      | _ => none
  | .sleepOver _ =>
      match x.susp with
      | .sleeping due => if due ≤ w.clock then some (sleepOver w k x) else none
      | _ => none
  | .eventTimeout _ =>
      match x.method, x.susp with
      | .waitForEvent _ ty timeout, .waiting map due =>
          if due ≤ w.clock then some (eventTimeout w k map ty timeout) else none
      | _, _ => none
  | .eventResume _ =>
      match x.method, x.susp with
      | .waitForEvent name ty _, .delivered payload timestamp =>
          some (eventResume cfg w k x name ty payload timestamp)
      | _, _ => none
  | _ => none

/-- The segment of an operation, if it is enabled. -/
def segment (w : World) (o : Op) : Option Seg :=
  match o with
  | .create id? params => some (create cfg w id? params)
  | .pause id => some (pause w id)
  | .resume id => some (resume w id)
  | .terminate id => some (terminate w id)
  | .restart id fromStep => some (restart w id fromStep)
  | .skipSleep id => some (skipSleep w id)
  | .sendEvent id ty payload => some (sendEvent w id ty payload)
  | .call c method => (w.mem.runs.get? c).map fun r => stepCall cfg w c r method
  | .poll k | .enter k | .callback k _ | .retry k | .sleepOver k | .eventTimeout k
  | .eventResume k => (w.mem.calls.get? k).bind fun x => callSegment cfg w k x o
  | .runSettles c outcome =>
      (w.mem.runs.get? c).bind fun r =>
        match r.phase with
        | .running =>
            some ⟨[],
              { w.mem with toExecutions := w.mem.toExecutions.setPhase c (.settled outcome) },
              .done⟩
        | _ => none
  | .runEnds c =>
      (w.mem.runs.get? c).bind fun r =>
        match r.phase with
        | .settled outcome => some (executeEnd w c r outcome)
        | _ => none

/-- The state after a segment. -/
def World.after (w : World) (g : Seg) : World :=
  { w with db := execAll w.db g.stmts, mem := g.mem }

/-- The database and the clock under a fresh process. -/
def World.wipe (w : World) : World :=
  { w with mem := .empty }

/-- A restart of the process: `resumeInterrupted`, cut after the given numbers of statements
by further stops, and at last run to its end. -/
def World.resumeAfter (w : World) : List ℕ → World
  | [] => w.wipe.after (resumeInterrupted w.wipe)
  | n :: again =>
      let cut := execAll w.db ((resumeInterrupted w.wipe).stmts.take n)
      World.resumeAfter { w with db := cut } again

/-- One step of the system. -/
inductive Action
  | op (o : Op)
  /-- Time passes. -/
  | tick (ms : ℕ)
  /-- The process stops after `n` statements of a segment and is restarted. -/
  | crashIn (o : Op) (n : ℕ) (again : List ℕ)
  /-- The process stops between two segments and is restarted. -/
  | crash (again : List ℕ)

/-- The operation a step runs, to its end or up to a stop of the process. -/
def Action.op? : Action → Option Op
  | .op o => some o
  | .crashIn o _ _ => some o
  | _ => none

/-- The step is not a stop of the process. -/
def Action.crashFree : Action → Bool
  | .op _ | .tick _ => true
  | _ => false

/-- The step restarts the instance. -/
def Action.restarts (a : Action) (id : String) : Bool :=
  match a.op? with
  | some (.restart id' _) => id' = id
  | _ => false

/-- The database a stop of the process leaves, under the memory that is lost. -/
def crashPoint (w : World) : Action → Option World
  | .crashIn o n _ =>
      (segment cfg w o).map fun g => { w with db := execAll w.db (g.stmts.take n) }
  | .crash _ => some w
  | _ => none

/-- The transition function. -/
def act (w : World) : Action → Option World
  | .op o => (segment cfg w o).map w.after
  | .tick ms => some { w with clock := w.clock + ms }
  | .crashIn o n again =>
      (segment cfg w o).map fun g =>
        World.resumeAfter { w with db := execAll w.db (g.stmts.take n) } again
  | .crash again => some (w.resumeAfter again)

end Lopata.Workflow
