import Lopata.Workflow.System
import Mathlib.Data.Finset.Filter

/-!
# Sequential Workflow Bodies

A body whose `run()` calls `step.do`, `step.sleep` and `step.sleepUntil` one after another is a
tree: after each step the rest of the body is a function of the step's result. The driver
below runs such a body on the workflow system. It holds the place the code of the execution
has reached, makes the call that comes next, and hands replies to the body; a stop of the
process throws the place away and starts the body again.

The callback of a `do` belongs to the world outside the process: what its `n`-th invocation
does does not depend on the process that makes it, and the driver counts invocations across
stops.

## Main definitions

* `Callback`, `StepNode`, `Body`: bodies.
* `Body.trail`, `Body.outcome`: what a body does when nothing goes wrong for good.
* `Replay`, `drive`: the driver.
* `advance`: the next thing an undisturbed process does.
* `Program.Admissible`: every step of the body succeeds within its limits.
-/

namespace Lopata.Workflow

/-! ### Bodies -/

/-- The invocation failed with an error `do` retries. -/
def CallbackOutcome.retryable : CallbackOutcome → Bool
  | .threw _ | .timedOut => true
  | .returned _ | .threwNonRetryable _ => false

/-- The callback of a `do`: it fails at most finitely often, and whenever it returns it
returns the same value. -/
structure Callback where
  /-- The value it returns. -/
  value : Json
  /-- What its `n`-th invocation does. -/
  invoke : ℕ → CallbackOutcome
  /-- The invocations that fail. -/
  failing : Finset ℕ
  returns : ∀ n, n ∉ failing → invoke n = .returned (some value)
  fails : ∀ n, n ∈ failing → (invoke n).retryable = true

/-- A call of a step method by a sequential body. -/
inductive StepNode
  | doStep (name : String) (config : StepConfig) (callback : Callback)
  | sleep (name : String) (duration : Duration)
  | sleepUntil (name : String) (timestamp : Millis)

namespace StepNode

/-- The call the step object sees. -/
def call : StepNode → StepCall
  | .doStep name config _ => .doStep name config
  | .sleep name duration => .sleep name duration
  | .sleepUntil name timestamp => .sleepUntil name timestamp

/-- The key of the step in the cache. -/
def key (node : StepNode) : String := node.call.admission.2

/-- The call counts against the step limit. -/
def counted (node : StepNode) : Bool := node.call.admission.1

/-- What the call resolves to: the value of a `do`, `undefined` for a sleep. -/
def result : StepNode → Option Json
  | .doStep _ _ callback => some callback.value
  | .sleep _ _ | .sleepUntil _ _ => none

/-- The invocation of the callback that is under way, when `n` have been started. -/
def settlement (n : ℕ) : StepNode → Option CallbackOutcome
  | .doStep _ _ callback => some (callback.invoke (n - 1))
  | .sleep _ _ | .sleepUntil _ _ => none

end StepNode

/-- The code of `run()` from one step on. -/
inductive Body
  /-- `run()` returns or throws. -/
  | ret (outcome : Outcome)
  /-- A step, and the code after it as a function of its result. -/
  | step (node : StepNode) (next : Option Json → Body)

/-- The steps of a body whose steps all succeed. -/
def Body.trail : Body → List StepNode
  | .ret _ => []
  | .step node next => node :: (next node.result).trail

/-- How a body ends whose steps all succeed. -/
def Body.outcome : Body → Outcome
  | .ret outcome => outcome
  | .step node next => (next node.result).outcome

/-- An instance of a workflow with a sequential body. -/
structure Program where
  /-- The id of the instance. -/
  id : String
  /-- The parameters it is created with. -/
  params : Json
  /-- The code of `run()`, a function of the parameters. -/
  body : Json → Body

/-- The steps of the instance. -/
def Program.trail (p : Program) : List StepNode := (p.body p.params).trail

/-- The end of its `run()`. -/
def Program.outcome (p : Program) : Outcome := (p.body p.params).outcome

/-! ### The driver -/

/-- The place the code of the execution has reached. -/
inductive Place
  /-- The code runs. -/
  | runs (b : Body)
  /-- The code awaits the call its first step has made. -/
  | awaits (k : ℕ) (b : Body)
  /-- `run()` has settled, or there is no execution. -/
  | idle

/-- The system, the place of its execution, and how often the callback of each step was
started. -/
structure Replay where
  world : World
  place : Place
  invoked : String → ℕ

/-- The error an awaited rejection throws in the body. -/
def rejection (message : Option String) : Thrown :=
  ⟨"Error", message.getD "undefined"⟩

/-- The value a reply hands to the body. Only a `do` is answered with a recorded result. -/
def Recorded.json? : Recorded → Option Json
  | .result json => some json
  | .until _ | .untilIso _ | .event _ _ _ => none

/-- What happens next to a call of the body. -/
def StepNode.continuation (node : StepNode) (k invoked : ℕ) : Suspension → Option Op
  | .paused _ => some (.poll k)
  | .entered => some (.enter k)
  | .callback _ _ _ => (node.settlement invoked).map (.callback k)
  | .retryDelay _ _ _ => some (.retry k)
  | .sleeping _ => some (.sleepOver k)
  | .waiting _ _ | .delivered _ _ => none

namespace Replay

/-- The operation the execution runs next. In a process with one instance the execution
is the first of its process. -/
def op? (s : Replay) : Option Op :=
  match s.place with
  | .runs (.ret outcome) => some (.runSettles 0 outcome)
  | .runs (.step node _) => some (.call 0 node.call)
  | .awaits k (.step node _) =>
      (s.world.mem.calls.get? k).bind fun x => node.continuation k (s.invoked node.key) x.susp
  | .awaits _ (.ret _) => none
  | .idle => some (.runEnds 0)

/-- The place after the reply to the operation; `k` is the number a new call gets. -/
def placeAfter (k : ℕ) (reply : Reply) : Place → Place
  | .runs (.step node next) =>
      match reply with
      | .threw message => .runs (.ret (.threw (rejection message)))
      | _ => .awaits k (.step node next)
  | .awaits k' (.step node next) =>
      match reply with
      | .value v => .runs (next v.json?)
      | .undefined => .runs (next none)
      | .threw message => .runs (.ret (.threw (rejection message)))
      | .pending | .done => .awaits k' (.step node next)
  | .runs (.ret _) | .awaits _ (.ret _) | .idle => .idle

/-- The step whose callback a segment has started. -/
def started (place : Place) (m : Memory) : Option String :=
  match place with
  | .awaits k (.step node _) =>
      match (m.calls.get? k).map Call.susp with
      | some (.callback _ _ _) => some node.key
      | _ => none
  | _ => none

/-- The driver after a segment. A call whose callback was already running is not in a
`callback` suspension after it. -/
def after (s : Replay) (g : Seg) : Replay where
  world := s.world.after g
  place := placeAfter s.world.mem.nextCall g.reply s.place
  invoked := fun name => s.invoked name + if started s.place g.mem = some name then 1 else 0

/-- The driver after a restart of the process. -/
def restart (s : Replay) (p : Program) (w : World) : Replay where
  world := w
  place :=
    match w.mem.runs.get? 0 with
    | some r => .runs (p.body r.payload)
    | none => .idle
  invoked := s.invoked

/-- The instance has ended: its execution is over, or a stop of the process came after the
end was written. -/
def ended (s : Replay) : Bool :=
  match s.place with
  | .idle => !(s.world.mem.runs.get? 0).any fun r => r.phase.unended
  | _ => false

end Replay

/-- One step of the driver. -/
inductive Drive
  /-- The next segment of the execution. -/
  | proceed
  /-- Time passes. -/
  | tick (ms : ℕ)
  /-- A stop after `n` statements of the next segment. -/
  | crashIn (n : ℕ) (again : List ℕ)
  /-- A stop between two segments. -/
  | crash (again : List ℕ)

/-- The step is not a stop of the process. -/
def Drive.crashFree : Drive → Bool
  | .proceed | .tick _ => true
  | .crashIn _ _ | .crash _ => false

variable (cfg : Config)

/-- The transition function of the driver. -/
def drive (p : Program) (s : Replay) : Drive → Option Replay
  | .proceed => s.op?.bind fun o => (segment cfg s.world o).map s.after
  | .tick ms => (act cfg s.world (.tick ms)).map fun w => { s with world := w }
  | .crashIn n again =>
      s.op?.bind fun o => (act cfg s.world (.crashIn o n again)).map (s.restart p)
  | .crash again => (act cfg s.world (.crash again)).map (s.restart p)

/-- The driver after `create` on an empty database at some time. -/
def Program.start (p : Program) (now : ℕ) : Replay :=
  let w : World := { World.init with clock := now }
  { world := w.after (create cfg w (some p.id) (some p.params))
    place := .runs (p.body p.params)
    invoked := fun _ => 0 }

/-- The time the suspension ends, if a timer ends it. -/
def Suspension.due? : Suspension → Option Millis
  | .paused due | .callback _ _ due | .sleeping due | .waiting _ due => some due
  | .retryDelay _ _ due => due
  | .entered | .delivered _ _ => none

/-- How long the next segment has to wait at most. -/
def Replay.wait (s : Replay) : ℕ :=
  match s.place with
  | .awaits k _ =>
      (((s.world.mem.calls.get? k).bind fun x => x.susp.due?).map
        fun due => (due - s.world.clock).toNat).getD 0
  | _ => 0

/-- What an undisturbed process does next: time passes, and the next segment runs. -/
def advance (p : Program) (s : Replay) : Replay :=
  ((drive cfg p s (.tick s.wait)).bind fun s' => drive cfg p s' .proceed).getD s

/-! ### Admissible programs -/

/-- The step succeeds when the instance was created at `now`: its arguments are within the
limits, what it records fits, and its callback fails no more often than it is retried. -/
def StepNode.Succeeds (now : Millis) : StepNode → Prop
  | .doStep name config callback =>
      jsLength name ≤ cfg.limits.maxStepNameLength ∧
      (Recorded.result callback.value).serializedLength ≤ cfg.limits.maxStepOutputBytes ∧
      ∃ plan, retryPlan cfg config = .ok plan ∧ callback.failing.card ≤ plan.maxRetries
  | .sleep _ duration =>
      (∃ ms, parseDuration duration = .ok ms ∧ ms ≤ cfg.limits.maxSleepMs) ∧
      ∀ t, (Recorded.until t).serializedLength ≤ cfg.limits.maxStepOutputBytes
  | .sleepUntil _ timestamp =>
      max 0 (timestamp - now) ≤ cfg.limits.maxSleepMs ∧
      (Recorded.untilIso timestamp).serializedLength ≤ cfg.limits.maxStepOutputBytes

/-- The instance can be created and started at `now`, and every step its body takes succeeds
under a name of its own. -/
structure Program.Admissible (p : Program) (now : ℕ) : Prop where
  idLength : jsLength p.id ≤ cfg.limits.maxInstanceIdLength
  started : cfg.limits.maxConcurrentInstances ≠ some 0
  succeeds : ∀ node ∈ p.trail, node.Succeeds cfg now
  few : p.trail.countP StepNode.counted ≤ cfg.limits.maxStepsPerWorkflow
  distinct : (p.trail.map StepNode.key).Nodup

/-! ### What an instance leaves behind -/

/-- A recorded object without the wake-up time a sleep notes when it is first called. -/
def Recorded.untimed : Recorded → Recorded
  | .until _ => .until 0
  | r => r

/-- Status, output, error and the recorded step results of an instance. -/
structure Summary where
  status : Option Status
  output : Option Json
  error : Option (Option String × Option String)
  steps : String → Option (Option Recorded)

/-- The summary of an instance. -/
def Db.summary (db : Db) (id : String) : Summary where
  status := db.status id
  output := (db.instances.get? id).bind InstanceRow.output
  error := (db.instances.get? id).map fun r => (r.error, r.errorName)
  steps := fun key =>
    (db.steps.get? (id, key)).map fun row => row.output.map Recorded.untimed

end Lopata.Workflow
