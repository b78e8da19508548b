import Lopata.Workflow.Process

/-!
# `WorkflowStepImpl`

The methods of the step object, cut at their suspension points. Each definition below is
the code one continuation runs without interruption, as the statements it executes and the
process state it leaves. The registries that only tests fill (step, sleep and event mocks,
notification callbacks) are empty here.

## Main definitions

* `stepCall`: the call of a method, up to the first suspension in `checkPaused`.
* `enter`: the continuation after `checkPaused`, one clause per method (`doBody`,
  `sleepBody`, `sleepUntilBody`, `waitForEventBody`).
* `callbackSettles`, `retry`: the retry loop of `do`.
* `sleepOver`, `eventTimeout`, `eventResume`: the ends of sleeps and waits.
-/

namespace Lopata.Workflow

variable (cfg : Config)

/-- The call settles with this reply. -/
def Seg.settle (m : Memory) (k : ℕ) (stmts : List Stmt) (reply : Reply) : Seg :=
  ⟨stmts, m.settle k, reply⟩

/-- The call rejects with an error of this message. -/
def Seg.reject (m : Memory) (k : ℕ) (stmts : List Stmt) (message : String) : Seg :=
  Seg.settle m k stmts (.threw (some message))

/-! ### `checkPaused` -/

/-- One round of `checkPaused` for an execution that is not aborted: wait 50 ms more while
the row says `paused`, else return. -/
def pauseRound (w : World) (id : String) : Suspension :=
  if w.db.status id = some .paused then .paused (timerDue w.clock 50) else .entered

/-- The call of a step method by the code of execution `c`: the name check of `do`, then
the first round of `checkPaused`. -/
def stepCall (w : World) (c : ℕ) (r : Run) (method : StepCall) : Seg :=
  let tooLong : Option String :=
    match method with
    | .doStep name _ =>
        if cfg.limits.maxStepNameLength < jsLength name then
          some ("Step name must be " ++ toString cfg.limits.maxStepNameLength ++
            " characters or fewer, got " ++ toString (jsLength name))
        else none
    | _ => none
  match tooLong with
  | some message => ⟨[], w.mem, .threw (some message)⟩
  | none =>
      if w.mem.aborted c then ⟨[], w.mem, .threw (some terminatedMessage)⟩
      else
        let x : Call := ⟨c, r.instanceId, method, pauseRound w r.instanceId⟩
        ⟨[],
          { w.mem with
            calls := w.mem.calls.insert w.mem.nextCall x
            nextCall := w.mem.nextCall + 1 },
          .pending⟩

/-- The delay of `checkPaused` is over: another round. -/
def pollPaused (w : World) (k : ℕ) (x : Call) : Seg :=
  if w.mem.aborted x.run then Seg.reject w.mem k [] terminatedMessage
  else ⟨[], w.mem.suspend k (pauseRound w x.instanceId), .pending⟩

/-! ### Checks and the step cache -/

/-- `checkStepLimit`. -/
def StepImpl.checkStepLimit (i : StepImpl) : StepImpl × Option String :=
  ({ i with stepCount := i.stepCount + 1 },
    if cfg.limits.maxStepsPerWorkflow < i.stepCount + 1 then
      some ("Workflow exceeded maximum of " ++ toString cfg.limits.maxStepsPerWorkflow ++
        " steps")
    else none)

/-- `checkDuplicateStepName`. -/
def StepImpl.checkDuplicateStepName (i : StepImpl) (key : String) : StepImpl × Option String :=
  if key ∈ i.knownStepNames then
    (i, some ("Duplicate step name \"" ++ key ++
      "\". Step names must be unique within a workflow execution."))
  else ({ i with knownStepNames := key :: i.knownStepNames }, none)

/-- The checks a method makes after `checkPaused`; only `do` and `waitForEvent` count
against the step limit. -/
def StepImpl.enroll (i : StepImpl) (counted : Bool) (key : String) : StepImpl × Option String :=
  if counted then
    match i.checkStepLimit cfg with
    | (i', some message) => (i', some message)
    | (i', none) => i'.checkDuplicateStepName key
  else i.checkDuplicateStepName key

/-- `cacheStep`: the statement, or the error for an output that is too large. -/
def cacheStep (id name : String) (output : Option Recorded) (now : Millis) :
    Except String (List Stmt) :=
  if output.any fun o => cfg.limits.maxStepOutputBytes < o.serializedLength then
    .error ("Step \"" ++ name ++ "\" output exceeds maximum size of 1 MiB")
  else .ok [.cacheStep id name output now]

/-- `JSON.parse(cached.output)`: a `NULL` column reads as the value `null`. -/
def StepRow.parsed (row : StepRow) : Recorded :=
  row.output.getD (.result "null")

/-! ### `do` -/

/-- The retry parameters of a configuration. A delay or timeout that is falsy counts as
missing. -/
def retryPlan (config : StepConfig) : Except String RetryPlan := do
  let delayMs ← match config.delay.filter Duration.truthy with
    | some d => parseDuration d
    | none => .ok cfg.limits.defaultRetryDelayMs
  let timeoutMs ← match config.timeout.filter Duration.truthy with
    | some d => parseDuration d
    | none => .ok cfg.limits.defaultStepTimeoutMs
  if cfg.limits.maxStepDoTimeoutMs < timeoutMs then
    .error ("Step timeout " ++ toString timeoutMs ++ "ms exceeds maximum of " ++
      toString cfg.limits.maxStepDoTimeoutMs ++ "ms")
  else
    .ok ⟨config.limit.getD cfg.limits.defaultRetryLimit, delayMs,
      config.backoff.getD cfg.limits.defaultRetryBackoff, timeoutMs⟩

/-- The head of the retry loop of `do` with its counter at `attempt`: the callback starts,
or the loop is over and `lastError` is thrown. -/
def attemptLoop (w : World) (m : Memory) (k : ℕ) (x : Call) (plan : RetryPlan) (attempt : ℕ)
    (lastError : Option String) : Seg :=
  if plan.maxRetries < attempt then Seg.settle m k [] (.threw lastError)
  else if w.mem.aborted x.run then Seg.reject m k [] terminatedMessage
  else
    ⟨[], m.suspend k (.callback plan attempt (timerDue w.clock plan.timeoutMs)), .pending⟩

/-- `do` after its checks: the cached result, or the first attempt. -/
def doBody (w : World) (m : Memory) (k : ℕ) (x : Call) (name : String)
    (config : StepConfig) : Seg :=
  match w.db.steps.get? (x.instanceId, name) with
  | some row => Seg.settle m k [] (.value row.parsed)
  | none =>
      match retryPlan cfg config with
      | .error message => Seg.reject m k [] message
      | .ok plan =>
          let startAttempt :=
            ((w.db.attempts.get? (x.instanceId, name)).map AttemptRow.failedAttempts).getD 0
          attemptLoop w m k x plan startAttempt none

/-- How the race between a callback and its timer ends. -/
inductive CallbackOutcome
  | returned (v : Option Json)
  | threw (err : Thrown)
  /-- The callback threw a `NonRetryableError`. -/
  | threwNonRetryable (message : String)
  | timedOut

/-- `interruptibleDelay` before the next attempt. -/
def retryDelay (w : World) (stmts : List Stmt) (k : ℕ) (x : Call) (plan : RetryPlan)
    (attempt : ℕ) : Seg :=
  let d := computeDelay plan.delayMs attempt plan.backoff
  if d ≤ 0 then ⟨stmts, w.mem.suspend k (.retryDelay plan attempt none), .pending⟩
  else if w.mem.aborted x.run then Seg.reject w.mem k stmts terminatedMessage
  else ⟨stmts, w.mem.suspend k (.retryDelay plan attempt (some (timerDue w.clock d))), .pending⟩

/-- The `catch` block of an attempt: the failure is recorded, then the next attempt is
prepared or the error thrown. -/
def attemptFails (w : World) (k : ℕ) (x : Call) (name : String) (plan : RetryPlan)
    (attempt : ℕ) (err : Thrown) : Seg :=
  let stmts :=
    [Stmt.recordAttempt x.instanceId name (attempt + 1) err.message err.name w.clock]
  if attempt < plan.maxRetries then retryDelay w stmts k x plan attempt
  else Seg.reject w.mem k stmts err.message

/-- The text of the timeout option in a timeout error. -/
def Duration.show : Duration → String
  | .ms n => toString n
  | .text s => s

/-- The race between the callback of a `do` call and its timer is over. -/
def callbackSettles (w : World) (k : ℕ) (x : Call) (name : String) (config : StepConfig)
    (plan : RetryPlan) (attempt : ℕ) : CallbackOutcome → Seg
  | .returned v =>
      match cacheStep cfg x.instanceId name (v.map .result) w.clock with
      | .ok stmts =>
          Seg.settle w.mem k (stmts ++ [.deleteAttempt x.instanceId name])
            ((v.map fun j => Reply.value (.result j)).getD .undefined)
      | .error message => attemptFails w k x name plan attempt ⟨"Error", message⟩
  | .threw err => attemptFails w k x name plan attempt err
  | .threwNonRetryable message => Seg.reject w.mem k [] message
  | .timedOut =>
      attemptFails w k x name plan attempt
        ⟨"Error", "Step \"" ++ name ++ "\" timed out after " ++
          ((config.timeout.map Duration.show).getD "10 minutes")⟩

/-- The delay after a failed attempt is over. -/
def retry (w : World) (k : ℕ) (x : Call) (plan : RetryPlan) (attempt : ℕ) : Seg :=
  attemptLoop w w.mem k x plan (attempt + 1) none

/-! ### Sleeps -/

/-- `skippableDelay` of a positive duration on an execution that is not aborted. -/
def skippableDelay (w : World) (m : Memory) (k : ℕ) (x : Call) (stmts : List Stmt)
    (ms : Millis) : Seg :=
  let m := m.suspend k (.sleeping (timerDue w.clock ms))
  ⟨stmts, { m with sleepResolvers := Function.update m.sleepResolvers x.instanceId (some k) },
    .pending⟩

/-- The property `until` of a cached row, where the code reads one. -/
def Recorded.untilNumber : Recorded → Option Millis
  | .until t => some t
  | .result json => cfg.untilOf json
  | .untilIso _ | .event _ _ _ => none

/-- Sleep for `ms` more, or return at once. -/
def sleepFor (w : World) (m : Memory) (k : ℕ) (x : Call) (stmts : List Stmt)
    (ms : Millis) : Seg :=
  if 0 < ms then skippableDelay w m k x stmts ms else Seg.settle m k stmts .undefined

/-- `sleep` after its checks. -/
def sleepBody (w : World) (m : Memory) (k : ℕ) (x : Call) (name : String)
    (duration : Duration) : Seg :=
  let key := "sleep:" ++ name
  match w.db.steps.get? (x.instanceId, key) with
  | some row =>
      match row.output with
      | some o => sleepFor w m k x [] (((o.untilNumber cfg).map (· - w.clock)).getD 0)
      | none => Seg.reject m k [] "Cannot destructure null"
  | none =>
      match parseDuration duration with
      | .error message => Seg.reject m k [] message
      | .ok ms =>
          if cfg.limits.maxSleepMs < ms then
            Seg.reject m k [] ("Sleep duration " ++ toString ms ++ "ms exceeds maximum of " ++
              toString cfg.limits.maxSleepMs ++ "ms")
          else
            match cacheStep cfg x.instanceId key (some (.until (w.clock + ms))) w.clock with
            | .error message => Seg.reject m k [] message
            | .ok stmts => sleepFor w m k x stmts ms

/-- `sleepUntil` after its checks. -/
def sleepUntilBody (w : World) (m : Memory) (k : ℕ) (x : Call) (name : String)
    (timestamp : Millis) : Seg :=
  let key := "sleepUntil:" ++ name
  match w.db.steps.get? (x.instanceId, key) with
  | some _ => sleepFor w m k x [] (timestamp - w.clock)
  | none =>
      let delay := max 0 (timestamp - w.clock)
      if cfg.limits.maxSleepMs < delay then
        Seg.reject m k [] ("Sleep duration " ++ toString delay ++ "ms exceeds maximum of " ++
          toString cfg.limits.maxSleepMs ++ "ms")
      else
        match cacheStep cfg x.instanceId key (some (.untilIso timestamp)) w.clock with
        | .error message => Seg.reject m k [] message
        | .ok stmts => sleepFor w m k x stmts delay

/-- The timer of a sleep fires. -/
def sleepOver (w : World) (k : ℕ) (x : Call) : Seg :=
  Seg.settle (w.mem.deleteSleepResolver x.instanceId) k [] .undefined

/-! ### `waitForEvent` -/

/-- The key of a wait in the step cache. -/
def waitKey (name : String) : String :=
  "waitForEvent:" ++ name

/-- The timeout of a wait, with the checks on its range. -/
def waitTimeout (timeout : Option Duration) : Except String Millis := do
  let timeoutMs ← match timeout.filter Duration.truthy with
    | some d => parseDuration d
    | none => .ok cfg.limits.defaultWaitForEventTimeoutMs
  if timeoutMs < cfg.limits.minWaitForEventTimeoutMs then
    .error ("waitForEvent timeout " ++ toString timeoutMs ++ "ms is below minimum of " ++
      toString cfg.limits.minWaitForEventTimeoutMs ++ "ms")
  else if cfg.limits.maxWaitForEventTimeoutMs < timeoutMs then
    .error ("waitForEvent timeout " ++ toString timeoutMs ++ "ms exceeds maximum of " ++
      toString cfg.limits.maxWaitForEventTimeoutMs ++ "ms")
  else .ok timeoutMs

/-- The call registers as the waiter of its type, in place of an earlier one. -/
def registerWaiter (w : World) (m : Memory) (k : ℕ) (x : Call) (ty : String)
    (timeoutMs : Millis) : Memory :=
  let (map, m) := m.getWaitersForInstance x.instanceId
  let m := m.suspend k (.waiting map (timerDue w.clock timeoutMs))
  { m with
    waiterMaps := Function.update m.waiterMaps map ((m.waiterMaps map).insert ty k) }

/-- The end of a wait that has its event: back to `running`, then the checkpoint. -/
def recordEvent (m : Memory) (k : ℕ) (x : Call) (before : List Stmt) (name ty : String)
    (payload : Option Json) (timestamp now : Millis) : Seg :=
  let stmts := before ++ [Stmt.setStatus x.instanceId .running now]
  match cacheStep cfg x.instanceId (waitKey name) (some (.event payload timestamp ty)) now with
  | .ok cache => Seg.settle m k (stmts ++ cache) (.value (.event payload timestamp ty))
  | .error message => Seg.reject m k stmts message

/-- `waitForEvent` after its checks: the cached event, the oldest stored event, or a
registered waiter. -/
def waitForEventBody (w : World) (m : Memory) (k : ℕ) (x : Call) (name ty : String)
    (timeout : Option Duration) : Seg :=
  if !isEventType ty then Seg.reject m k [] (invalidEventType ty)
  else
    match w.db.steps.get? (x.instanceId, waitKey name) with
    | some row => Seg.settle m k [] (.value row.parsed)
    | none =>
        let waiting := [Stmt.setStatus x.instanceId .waiting w.clock]
        match w.db.firstEvent x.instanceId ty with
        | some e =>
            recordEvent cfg m k x (waiting ++ [.deleteFirstEvent x.instanceId ty]) name ty
              e.payload e.createdAt w.clock
        | none =>
            match waitTimeout cfg timeout with
            | .error message => Seg.reject m k waiting message
            | .ok timeoutMs => ⟨waiting, registerWaiter w m k x ty timeoutMs, .pending⟩

/-- The timer of a wait fires. -/
def eventTimeout (w : World) (k map : ℕ) (ty : String) (timeout : Option Duration) : Seg :=
  Seg.reject (w.mem.deleteWaiter map ty) k []
    ("waitForEvent timed out after " ++ (timeout.map Duration.show).getD "24 hours")

/-- The continuation of a wait whose waiter was called. -/
def eventResume (w : World) (k : ℕ) (x : Call) (name ty : String) (payload : Option Json)
    (timestamp : Millis) : Seg :=
  recordEvent cfg w.mem k x [] name ty payload timestamp w.clock

/-! ### The continuation after `checkPaused` -/

/-- The name a method is checked under, and whether it counts as a step. -/
def StepCall.admission : StepCall → Bool × String
  | .doStep name _ => (true, name)
  | .sleep name _ => (false, "sleep:" ++ name)
  | .sleepUntil name _ => (false, "sleepUntil:" ++ name)
  | .waitForEvent name _ _ => (true, waitKey name)

/-- A method after `checkPaused`: the abort check, the admission checks, the body. -/
def enter (w : World) (k : ℕ) (x : Call) : Seg :=
  if w.mem.aborted x.run then Seg.reject w.mem k [] terminatedMessage
  else
    match (w.mem.impls x.run).enroll cfg x.method.admission.1 x.method.admission.2 with
    | (impl, some message) =>
        Seg.reject { w.mem with impls := Function.update w.mem.impls x.run impl } k [] message
    | (impl, none) =>
        let m := { w.mem with impls := Function.update w.mem.impls x.run impl }
        match x.method with
        | .doStep name config => doBody cfg w m k x name config
        | .sleep name duration => sleepBody cfg w m k x name duration
        | .sleepUntil name timestamp => sleepUntilBody cfg w m k x name timestamp
        | .waitForEvent name ty timeout => waitForEventBody cfg w m k x name ty timeout

end Lopata.Workflow
