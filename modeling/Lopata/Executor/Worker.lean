import Lopata.Lib.Machine
import Lopata.Lib.Table

/-!
# The Worker Executor

An executor runs one instance of a Durable Object class in a thread of its own, which the first
command starts. A command waits for the teardown of the container of an earlier executor, then for
the thread; only then is it counted and posted. The namespace asks an executor whether it is active
before it evicts an idle one, and before it replaces the executors at a reload.

A label is a message of the thread, a timer, or one uninterrupted piece of code; a command goes on
with a label of its own when what it waits for has settled.

## Main definitions

* `WorkerExecutor`: an executor with its slot in the namespace, and the commands that have settled.
* `WorkerExecutor.step`: what a label does to it.
-/

namespace Lopata.Executor

/-- `DOCommand`. -/
inductive Command where
  | fetch
  | rpc
  | rpcGet
  | alarm
  /-- The one that `dispose` sends for an object with a container. -/
  | cleanup
  deriving DecidableEq, Repr

/-- A call of `_sendCommand`. -/
structure Call where
  command : Command
  /-- The stream of the body of a request. -/
  streamId : Option ℕ := none
  /-- Whether `postMessage` can clone it. -/
  cloneable : Bool := true
  deriving DecidableEq, Repr

/-- Why an executor is torn down. -/
inductive Cause where
  /-- An eviction, or a reload, has asked `isActive`, which has answered `false`. -/
  | idle
  /-- A reload has asked for as long as it does. -/
  | overdue
  /-- The namespace or the instance is to go, whatever the executor does. -/
  | destroyed
  /-- The thread has reported an error. -/
  | failed
  deriving DecidableEq, Repr

/-- How the promise of a command settles. -/
inductive Outcome where
  | resolved
  /-- The command itself has failed. -/
  | failed
  /-- It came after the teardown. -/
  | refused
  /-- The teardown has rejected it. -/
  | rejected (cause : Cause)
  deriving DecidableEq, Repr

/-- `_ready`. -/
inductive Readiness where
  /-- There has been no thread yet. -/
  | unstarted
  | pending
  | resolved
  | rejected
  deriving DecidableEq, Repr

/-- What the namespace gives an executor. -/
structure ExecutorConfig where
  /-- `containerConfig` is there. -/
  container : Bool
  /-- `_priorDisposal` is there. -/
  priorDisposal : Bool
  evictionTimeoutMs : ℤ

/-- A `WorkerExecutor` and its slot in the namespace. -/
structure WorkerExecutor where
  /-- `_worker` is there. -/
  worker : Bool
  ready : Readiness
  /-- `_priorDisposalGate` has settled. -/
  gateOpen : Bool
  /-- `_disposed`, with the reason. -/
  disposed : Option Cause
  /-- `dispose` waits for the container. -/
  disposing : Option Cause
  /-- The commands that wait for the gate or the thread. -/
  waiting : List Call
  /-- `_pending`. -/
  pending : Table ℕ Call
  nextId : ℕ
  inFlightCount : ℤ
  nextStreamId : ℕ
  blocked : Bool
  aborted : Bool
  openFetchWsIds : List ℕ
  /-- `_fetchStreams`, the bodies of responses. -/
  fetchStreams : List ℕ
  /-- `_fetchRequestStreams`, the bodies of requests. -/
  fetchRequestStreams : List ℕ
  settled : List (Call × Outcome)
  /-- The executor is in `_executors`. -/
  attached : Bool
  lastActivity : ℤ
  /-- `attemptsLeft` of the poll that a reload has left. -/
  polling : Option ℕ

/-- What a thread answers: an error, or a result, for a fetch with the socket and the stream of the
response. -/
inductive Reply where
  | error
  | result (wsId streamId : Option ℕ)
  deriving DecidableEq, Repr

inductive Label where
  /-- `executeFetch`, `executeRpc`, `executeRpcGet` or `executeAlarm`; a stub says when. -/
  | call (command : Command) (body cloneable : Bool) (now : Option ℤ)
  /-- A command goes on behind the gate and `_ready`. -/
  | goOn (index : ℕ)
  /-- The disposal of the earlier executor has settled. -/
  | priorDisposed
  /-- `ready`. -/
  | ready
  /-- `result`. -/
  | result (id : ℕ) (reply : Reply)
  /-- `onerror`, or an error of the start. -/
  | failed
  /-- `do-state`. -/
  | state (aborted blocked : Bool)
  | wsClosed (wsId : ℕ)
  | responseEnded (streamId : ℕ)
  | requestEnded (streamId : ℕ)
  /-- `_evictIdle`. -/
  | evict (now : ℤ)
  /-- `_setExternalClass`. -/
  | reload
  /-- `_pollThenDispose`, when its timer goes off. -/
  | poll
  /-- `destroy` or `deleteInstance`. -/
  | destroy (force : Bool)
  /-- `cleanup` has settled, or has taken too long. -/
  | cleanedUp
  deriving DecidableEq, Repr

namespace WorkerExecutor

variable (cfg : ExecutorConfig) (s : WorkerExecutor)

def start (now : ℤ) : WorkerExecutor where
  worker := false
  ready := .unstarted
  gateOpen := !cfg.priorDisposal
  disposed := none
  disposing := none
  waiting := []
  pending := .empty
  nextId := 1
  inFlightCount := 0
  nextStreamId := 1
  blocked := false
  aborted := false
  openFetchWsIds := []
  fetchStreams := []
  fetchRequestStreams := []
  settled := []
  attached := true
  lastActivity := now
  polling := none

def isActive : Bool :=
  decide (0 < s.inFlightCount) || decide (0 < s.fetchStreams.length) ||
    decide (0 < s.fetchRequestStreams.length)

/-! ### Commands -/

/-- `_ensureWorker`, when the executor has not been disposed. -/
def ensureWorker : WorkerExecutor :=
  if s.worker then s else { s with worker := true, ready := .pending }

/-- `_sendCommand`, up to its first `await`. -/
def sendCommand (call : Call) : WorkerExecutor :=
  if s.disposed.isSome then { s with settled := (call, .refused) :: s.settled }
  else { s.ensureWorker with waiting := s.waiting ++ [call] }

/-- One of the methods that execute a command; a stub notes the time before it calls one. -/
def execute (command : Command) (body cloneable : Bool) (now : Option ℤ) : WorkerExecutor :=
  let s := { s with lastActivity := if s.attached then now.getD s.lastActivity else s.lastActivity }
  if command = .fetch ∧ body then
    { s with nextStreamId := s.nextStreamId + 1 }.sendCommand
      { command := command, streamId := some s.nextStreamId, cloneable := cloneable }
  else s.sendCommand { command := command, cloneable := cloneable }

/-- `_sendCommand`, behind its second `await`. -/
def post (call : Call) : WorkerExecutor :=
  match s.disposed with
  | some cause => { s with settled := (call, .rejected cause) :: s.settled }
  | none =>
      let s := { s with nextId := s.nextId + 1 }
      if call.cloneable then
        { s with
          inFlightCount := s.inFlightCount + 1
          pending := s.pending.insert (s.nextId - 1) call
          fetchRequestStreams := call.streamId.toList ++ s.fetchRequestStreams }
      else { s with settled := (call, .failed) :: s.settled }

def goOn (index : ℕ) : Option WorkerExecutor :=
  if s.gateOpen = false ∨ s.ready = .unstarted ∨ s.ready = .pending then none
  else s.waiting[index]?.map fun call =>
    { s with waiting := s.waiting.eraseIdx index }.post call

/-- What `executeFetch` does with a response. -/
def openResponse (wsId streamId : Option ℕ) : WorkerExecutor :=
  { s with
    openFetchWsIds := wsId.toList ++ s.openFetchWsIds
    fetchStreams := streamId.toList ++ s.fetchStreams }

/-- The `result` of a command. -/
def finish (id : ℕ) (reply : Reply) : WorkerExecutor :=
  match s.pending.get? id with
  | none => s
  | some call =>
      let s := { s with
        pending := s.pending.erase id
        inFlightCount := s.inFlightCount - 1 }
      match reply with
      | .error =>
          { s with
            fetchRequestStreams := s.fetchRequestStreams.filter fun i => call.streamId ≠ some i
            settled := (call, .failed) :: s.settled }
      | .result wsId streamId =>
          let s := { s with settled := (call, .resolved) :: s.settled }
          if call.command = .fetch then s.openResponse wsId streamId else s

/-! ### Teardown -/

/-- `_teardown`. -/
def teardown (cause : Cause) : WorkerExecutor :=
  { s with
    disposed := some (s.disposed.getD cause)
    worker := false
    ready := if s.ready = .pending then .rejected else s.ready
    settled := (s.pending.rows.map fun p => (p.2, .rejected cause)) ++ s.settled
    inFlightCount := s.inFlightCount - s.pending.rows.length
    pending := .empty
    openFetchWsIds := []
    fetchStreams := []
    fetchRequestStreams := [] }

/-- Whether `dispose` waits for the container. -/
def cleansUp : Bool := s.disposed.isNone && s.worker && cfg.container

/-- `dispose`. -/
def dispose (cause : Cause) : WorkerExecutor :=
  if s.cleansUp cfg then { s with disposing := some cause }.sendCommand { command := .cleanup }
  else s.teardown cause

/-- The namespace forgets the executor. -/
def detach : WorkerExecutor := { s with attached := false }

/-- Whether `_evictIdle` takes the executor, which is alive, for an idle one. -/
def isIdle (now : ℤ) : Bool :=
  !s.isActive &&
    (s.aborted ||
      (decide (cfg.evictionTimeoutMs ≤ now - s.lastActivity) && !s.blocked &&
        decide (s.openFetchWsIds.length = 0)))

/-- `_evictIdle`. -/
def evictIdle (now : ℤ) : WorkerExecutor :=
  if s.attached = false then s
  else if s.disposed.isSome then s.detach.dispose cfg .destroyed
  else if s.isIdle cfg now then s.detach.dispose cfg .idle
  else s

/-- `_setExternalClass`. -/
def setExternalClass : WorkerExecutor :=
  if s.attached = false then s
  else if s.isActive then { s.detach with polling := some 199 }
  else s.detach.dispose cfg .idle

/-- `_pollThenDispose`. -/
def pollThenDispose (attemptsLeft : ℕ) : WorkerExecutor :=
  if s.isActive = false then { s with polling := none }.dispose cfg .idle
  else
    match attemptsLeft with
    | 0 => { s with polling := none }.dispose cfg .overdue
    | attemptsLeft + 1 => { s with polling := some attemptsLeft }

/-- `destroy`, or `deleteInstance` with `force`. -/
def destroy (force : Bool) : WorkerExecutor :=
  if s.attached && (force || decide (s.openFetchWsIds.length = 0)) then
    s.detach.dispose cfg .destroyed
  else s

/-- The thread is there to send messages, and they are heard. -/
def Alive : Prop := s.worker = true ∧ s.disposed = none

instance : Decidable s.Alive := inferInstanceAs (Decidable (_ ∧ _))

/-- What a label does; none if it cannot come. -/
def step : WorkerExecutor → Label → Option WorkerExecutor
  | s, .call command body cloneable now =>
      if command = .cleanup then none else some (s.execute command body cloneable now)
  | s, .goOn index => s.goOn index
  | s, .priorDisposed => some { s with gateOpen := true }
  | s, .ready =>
      if s.Alive then some { s with ready := if s.ready = .pending then .resolved else s.ready }
      else none
  | s, .result id reply => if s.Alive then some (s.finish id reply) else none
  | s, .failed => if s.Alive then some (s.teardown .failed) else none
  | s, .state aborted blocked =>
      if s.Alive then some { s with aborted := aborted, blocked := blocked } else none
  | s, .wsClosed wsId => some { s with openFetchWsIds := s.openFetchWsIds.erase wsId }
  | s, .responseEnded streamId => some { s with fetchStreams := s.fetchStreams.erase streamId }
  | s, .requestEnded streamId =>
      some { s with fetchRequestStreams := s.fetchRequestStreams.erase streamId }
  | s, .evict now => if 0 < cfg.evictionTimeoutMs then some (s.evictIdle cfg now) else none
  | s, .reload => some (s.setExternalClass cfg)
  | s, .poll => s.polling.map (s.pollThenDispose cfg)
  | s, .destroy force => some (s.destroy cfg force)
  | s, .cleanedUp =>
      s.disposing.map fun cause => { s with disposing := none }.teardown cause

end WorkerExecutor

end Lopata.Executor
