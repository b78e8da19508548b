import Lopata.Lib.Machine
import Lopata.Lib.Table

/-!
# The Container Runtime

A `ContainerRuntime` runs one Docker container. Its methods and the callbacks of its timers are
asynchronous: each is a task that goes on when what it awaits has been answered, and other tasks
go on in between. A Docker command takes effect when it is answered.

Beside the fields of the source the state says what the claims of the runtime are about: whether
there is a container that it has started or adopted, whether the last call was one that ends the
container, and the status that each failed start has left.
-/

namespace Lopata.Container

inductive Status where
  | stopped
  | running
  | healthy
  | stopping
  | stoppedWithCode
  deriving DecidableEq, Repr

/-- `'running'` or `'healthy'`. -/
def Status.Up (status : Status) : Prop := status = .running ∨ status = .healthy

instance (status : Status) : Decidable status.Up :=
  inferInstanceAs (Decidable (status = .running ∨ status = .healthy))

/-- The state of a container that `docker inspect` tells. -/
inductive DockerState where
  | running
  | exited
  | dead
  | other
  deriving DecidableEq, Repr

/-- `info.state === 'exited' || info.state === 'dead'`. -/
def DockerState.Ended (state : DockerState) : Prop := state = .exited ∨ state = .dead

instance (state : DockerState) : Decidable state.Ended :=
  inferInstanceAs (Decidable (state = .exited ∨ state = .dead))

/-- What `inspect` finds. -/
structure Info where
  state : DockerState
  exitCode : Option ℤ
  /-- The label is the pid of this process. -/
  ownedByThisProcess : Bool
  /-- The mappings that `_recoverPortMappings` recovers. -/
  ports : Table ℕ ℕ

structure Config where
  image : List Char
  defaultPort : ℕ := 8080
  requiredPorts : List ℕ := []
  /-- `_parseSleepAfter()`. -/
  sleepAfter : Option ℕ := none
  /-- There is an `onActivityExpired`. -/
  onActivityExpired : Bool := false

/-- Whether the image looks like the path of a Dockerfile. -/
def Config.isDockerfile (config : Config) : Bool :=
  "DOCKERFILE".toList <:+: config.image.map Char.toUpper || "./".toList <+: config.image ||
    "/".toList <+: config.image

/-- The ports to expose, each once. -/
def Config.ports (config : Config) : List ℕ := (config.defaultPort :: config.requiredPorts).eraseDups

/-! ### Tasks -/

/-- What a `start` awaits. -/
inductive StartPhase where
  | inspecting
  | removing
  | allocating (port : ℕ) (left : List ℕ)
  | building
  | running
  /-- `onStart` of a container that runs. -/
  | started
  /-- `onError`, with the error thrown after it. -/
  | failing
  deriving DecidableEq, Repr

/-- What a `stop` awaits. -/
inductive StopPhase where
  | signalling
  | waiting
  | stopping
  | removing
  /-- The removal on error. -/
  | forcing
  | onStop
  deriving DecidableEq, Repr

inductive DestroyPhase where
  | removing (error : Bool)
  | onError
  deriving DecidableEq, Repr

inductive MonitorPhase where
  | inspecting
  | removing
  | onStop
  deriving DecidableEq, Repr

/-- A task in progress; `latest` if no `start` has been called since. -/
inductive Task where
  | start (phase : StartPhase)
  | stop (phase : StopPhase) (latest : Bool)
  | destroy (phase : DestroyPhase) (latest : Bool)
  | cleanup (latest : Bool)
  /-- A health probe. -/
  | probe
  /-- A tick of the monitor. -/
  | monitor (phase : MonitorPhase)
  deriving DecidableEq, Repr

/-- A start has been called. -/
def Task.surpass : Task → Task
  | .stop phase _ => .stop phase false
  | .destroy phase _ => .destroy phase false
  | .cleanup _ => .cleanup false
  | t => t

/-- A call of `start`, `stop`, `destroy` or `cleanup`. -/
def Task.isOperation : Task → Bool
  | .probe | .monitor _ => false
  | _ => true

/-- A start that has not failed. -/
def Task.starts : Task → Bool
  | .start phase => phase ≠ .failing
  | _ => false

/-- A task that is going to remove the container, or has told Docker to; a start apart. -/
def Task.removes : Task → Bool
  | .stop phase _ => phase ≠ .onStop
  | .destroy phase _ => phase ≠ .onError
  | .cleanup _ => true
  | .monitor phase => phase = .removing
  | _ => false

/-! ### The runtime -/

structure Runtime where
  status : Status
  exitCode : Option ℤ
  hostPorts : Table ℕ ℕ
  /-- `_healthCheckTimer` is armed. -/
  healthCheckTimer : Bool
  activityTimer : Bool
  monitorTimer : Bool
  tasks : Table ℕ Task
  nextTask : ℕ
  /-- A container that the runtime has started or adopted has neither been removed by it nor
  found exited. -/
  holds : Bool
  /-- The last call was a `stop`, `destroy` or `cleanup`, and it has completed. -/
  ended : Bool
  /-- The status that each failed start has left. -/
  failures : List Status

/-- `new ContainerRuntime(...)`. -/
def Runtime.new : Runtime where
  status := .stopped
  exitCode := none
  hostPorts := Table.empty
  healthCheckTimer := false
  activityTimer := false
  monitorTimer := false
  tasks := Table.empty
  nextTask := 0
  holds := false
  ended := false
  failures := []

/-- The answer to what a task awaits. -/
inductive Answer where
  | done
  | threw
  | inspected (info : Option Info)
  | allocated (hostPort : ℕ)
  /-- A response, and whether its status is from 200 to 299. -/
  | responded (ok : Bool)

inductive Label where
  | start
  | stop (signal : Bool)
  | destroy (error : Bool)
  | cleanup
  | fetch (port : ℕ)
  | healthCheckTick
  | monitorTick
  | activityTimeout
  | answer (task : ℕ) (a : Answer)

namespace Runtime

variable (config : Config) (s : Runtime)

/-- `_transition`. -/
def transition (status : Status) (exitCode : Option ℤ) : Runtime :=
  { s with status := status, exitCode := exitCode.or s.exitCode }

/-- `_stopTimers`. -/
def stopTimers : Runtime :=
  { s with healthCheckTimer := false, activityTimer := false, monitorTimer := false }

/-- A method is called that awaits something. -/
def spawn (t : Task) : Runtime :=
  { s with tasks := s.tasks.insert s.nextTask t, nextTask := s.nextTask + 1 }

/-- A task awaits something else. -/
def goOn (i : ℕ) (t : Task) : Runtime := { s with tasks := s.tasks.insert i t }

def finish (i : ℕ) : Runtime := { s with tasks := s.tasks.erase i }

/-- A port of the container is mapped to one of the host. -/
def mapped (port : ℕ) : Bool := (s.hostPorts.get? port).any (· ≠ 0)

/-- The container has been removed. -/
def removed : Runtime := { s with holds := false }

/-- `renewActivityTimeout`. -/
def renewActivityTimeout : Runtime := { s with activityTimer := config.sleepAfter.isSome }

/-! ### `start` -/

def callStart : Runtime :=
  let s := { s with ended := false, tasks := s.tasks.mapRows fun _ t => t.surpass }
  if s.status.Up then s else (s.transition .running none).spawn (.start .inspecting)

/-- A start throws. -/
def fail (i : ℕ) : Runtime := { s with failures := s.status :: s.failures }.finish i

/-- The loop over the ports: the next one, or on to the image. -/
def allocate (i : ℕ) : List ℕ → Runtime
  | port :: left => s.goOn i (.start (.allocating port left))
  | [] => s.goOn i (.start (if config.isDockerfile then .building else .running))

/-- `_hostPorts.clear()`, and the loop over the ports. -/
def exposePorts (i : ℕ) : Runtime :=
  { s with hostPorts := Table.empty }.allocate config i config.ports

/-- A container that has been found. -/
def found (info : Info) : Runtime := { s with holds := s.holds && !decide info.state.Ended }

def answerStart (i : ℕ) : StartPhase → Answer → Option Runtime
  | .failing, _ => some (s.finish i)
  | .running, .threw =>
      let s := s.transition .stopped none
      some ({ s with failures := s.status :: s.failures }.goOn i (.start .failing))
  | _, .threw => some (s.fail i)
  | .inspecting, .inspected none => some (s.exposePorts config i)
  | .inspecting, .inspected (some info) =>
      if info.state = .running ∧ info.ownedByThisProcess then
        some ({ s with hostPorts := info.ports, holds := true }.goOn i (.start .started))
      else some ((s.found info).goOn i (.start .removing))
  | .removing, .done => some (s.removed.exposePorts config i)
  | .allocating port left, .allocated hostPort =>
      some ({ s with hostPorts := s.hostPorts.insert port hostPort }.allocate config i left)
  | .building, .done => some (s.goOn i (.start .running))
  | .running, .done => some ({ s with holds := true }.goOn i (.start .started))
  | .started, .done =>
      some (({ s with healthCheckTimer := true, monitorTimer := true }.renewActivityTimeout
        config).finish i)
  | _, _ => none

/-! ### `stop`, `destroy` and `cleanup` -/

/-- A call that ends the container has completed. -/
def complete (i : ℕ) (latest : Bool) : Runtime := { s with ended := s.ended || latest }.finish i

def callStop (signal : Bool) : Runtime :=
  if s.status.Up then
    (s.transition .stopping none).stopTimers.spawn
      (.stop (if signal then .signalling else .stopping) true)
  else { s with ended := true }

def answerStop (i : ℕ) (latest : Bool) : StopPhase → Answer → Option Runtime
  | .signalling, .done => some (s.goOn i (.stop .waiting latest))
  | .waiting, .done => some (s.goOn i (.stop .stopping latest))
  | .stopping, .done => some (s.goOn i (.stop .removing latest))
  | .removing, .done | .forcing, .done =>
      some ((s.removed.transition .stopped none).goOn i (.stop .onStop latest))
  | .signalling, .threw | .stopping, .threw | .removing, .threw =>
      some (s.goOn i (.stop .forcing latest))
  | .forcing, .threw => some ((s.transition .stopped none).goOn i (.stop .onStop latest))
  | .onStop, _ => some (s.complete i latest)
  | _, _ => none

/-- The container is removed, if that works. -/
def removeQuietly : Answer → Option Runtime
  | .done => some s.removed
  | .threw => some s
  | _ => none

def answerDestroy (i : ℕ) (latest : Bool) : DestroyPhase → Answer → Option Runtime
  | .removing error, a => (s.removeQuietly a).map fun s =>
      let s := s.transition .stopped none
      if error then s.goOn i (.destroy .onError latest) else s.complete i latest
  | .onError, _ => some (s.complete i latest)

def answerCleanup (i : ℕ) (latest : Bool) (a : Answer) : Option Runtime :=
  (s.removeQuietly a).map fun s => (s.transition .stopped none).complete i latest

/-! ### Timers -/

def healthCheckTick : Option Runtime :=
  if s.healthCheckTimer then
    if s.status ≠ .running then some { s with healthCheckTimer := false }
    else if s.mapped config.defaultPort then some (s.spawn .probe)
    else some s
  else none

def answerProbe (i : ℕ) : Answer → Option Runtime
  | .responded true =>
      some ({ s.transition .healthy none with healthCheckTimer := false }.finish i)
  | .responded false | .threw => some (s.finish i)
  | _ => none

def monitorTick : Option Runtime :=
  if s.monitorTimer then
    if s.status.Up then some (s.spawn (.monitor .inspecting))
    else some { s with monitorTimer := false }
  else none

def answerMonitor (i : ℕ) : MonitorPhase → Answer → Option Runtime
  | .inspecting, .inspected (some info) =>
      if info.state.Ended then
        some (((s.found info).stopTimers.transition .stoppedWithCode
          (some (info.exitCode.getD 1))).goOn i (.monitor .removing))
      else some (s.finish i)
  | .inspecting, .inspected none | .inspecting, .threw => some (s.finish i)
  | .removing, a => (s.removeQuietly a).map fun s => s.goOn i (.monitor .onStop)
  | .onStop, _ => some (s.finish i)
  | _, _ => none

def activityTimeout : Option Runtime :=
  if s.activityTimer then
    let s := { s with activityTimer := false }
    if s.status.Up then
      if config.onActivityExpired then some s else some (s.callStop true)
    else some s
  else none

/-- `fetch`, which throws if the port is not mapped. -/
def fetch (port : ℕ) : Runtime :=
  if s.mapped port then s.renewActivityTimeout config else s

/-! ### Steps -/

def answer (i : ℕ) (a : Answer) : Option Runtime :=
  (s.tasks.get? i).bind fun
    | .start phase => s.answerStart config i phase a
    | .stop phase latest => s.answerStop i latest phase a
    | .destroy phase latest => s.answerDestroy i latest phase a
    | .cleanup latest => s.answerCleanup i latest a
    | .probe => s.answerProbe i a
    | .monitor phase => s.answerMonitor i phase a

def step : Runtime → Label → Option Runtime
  | s, .start => some s.callStart
  | s, .stop signal => some (s.callStop signal)
  | s, .destroy error => some (s.stopTimers.spawn (.destroy (.removing error) true))
  | s, .cleanup => some (s.stopTimers.spawn (.cleanup true))
  | s, .fetch port => some (s.fetch config port)
  | s, .healthCheckTick => s.healthCheckTick config
  | s, .monitorTick => s.monitorTick
  | s, .activityTimeout => s.activityTimeout config
  | s, .answer i a => s.answer config i a

end Runtime

end Lopata.Container
