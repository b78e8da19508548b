import Lopata.Workflow.Checkpoint

/-!
# Replaying a Sequential Body

The place of the code in the body, the memory of its execution and the checkpoint in the
database fit together in every state of the driver (`Reached`). Each segment keeps that, and
each uses up some of the work that is left, so an undisturbed process comes to the end of the
body; a stop of the process keeps the checkpoint and starts again from it.

## Main results

* `Reached.proceed`: what the next segment does, case by case.
* `Reached.drive`: the invariant survives every step of the driver, stops included.
* `crashTransparent`: the end of a run with stops is the end of the run without.
-/

namespace Lopata.Workflow

variable {cfg : Config} {p : Program} {now : ℕ} {s : Replay} {g : Seg} {b : Body}
  {node : StepNode} {next : Option Json → Body} {i j k : ℕ} {m : Memory}

/-! ### The place in the body -/

/-- The code is at `b` after `i` steps of the program. -/
structure Body.At (b : Body) (p : Program) (i : ℕ) : Prop where
  trail : b.trail = p.trail.drop i
  outcome : b.outcome = p.outcome

namespace Body.At

/-- The body starts with its first step. -/
theorem start (p : Program) : (p.body p.params).At p 0 := ⟨rfl, rfl⟩

/-- The step the code is at is the next step of the program. -/
theorem getElem? (h : (Body.step node next).At p i) : p.trail[i]? = some node := by
  rw [← List.head?_drop, ← h.trail]
  rfl

/-- The code after the step. -/
theorem step (h : (Body.step node next).At p i) : (next node.result).At p (i + 1) where
  trail := by
    rw [← List.tail_drop, ← h.trail]
    rfl
  outcome := h.outcome

/-- At the end all steps are done. -/
theorem length_le {outcome : Outcome} (h : (Body.ret outcome).At p i) : p.trail.length ≤ i :=
  List.drop_eq_nil_iff.mp h.trail.symm

end Body.At

/-- The step object after `i` steps. -/
def Program.implAt (p : Program) (i : ℕ) : StepImpl where
  stepCount := (p.trail.take i).countP StepNode.counted
  knownStepNames := ((p.trail.take i).map StepNode.key).reverse

/-- The next step passes the admission checks. -/
theorem Program.Admissible.enroll (hp : p.Admissible cfg now) (hnode : p.trail[i]? = some node) :
    (p.implAt i).enroll cfg node.counted node.key = (p.implAt (i + 1), none) := by
  have htake : p.trail.take (i + 1) = p.trail.take i ++ [node] := by
    rw [List.take_add_one, hnode]
    rfl
  have hcount : (p.trail.take (i + 1)).countP StepNode.counted ≤
      cfg.limits.maxStepsPerWorkflow :=
    ((List.take_sublist _ _).countP_le).trans hp.few
  have hfresh : node.key ∉ (p.trail.take i).map StepNode.key := by
    have hnd : ((p.trail.take (i + 1)).map StepNode.key).Nodup :=
      ((List.take_sublist _ _).map _).nodup hp.distinct
    rw [htake, List.map_append, List.nodup_append] at hnd
    intro hmem
    exact hnd.2.2 node.key hmem node.key (List.mem_singleton_self _) rfl
  have hnames : ((p.trail.take (i + 1)).map StepNode.key).reverse =
      node.key :: ((p.trail.take i).map StepNode.key).reverse := by
    rw [htake, List.map_append, List.reverse_append]
    rfl
  rw [htake, List.countP_append, List.countP_singleton] at hcount
  have hsteps : (p.trail.take (i + 1)).countP StepNode.counted =
      (p.trail.take i).countP StepNode.counted + if node.counted then 1 else 0 := by
    rw [htake, List.countP_append, List.countP_singleton]
  simp only [Program.implAt, hnames, hsteps, StepImpl.enroll, StepImpl.checkStepLimit,
    StepImpl.checkDuplicateStepName]
  cases hcounted : node.counted with
  | false => simpa using hfresh
  | true =>
    rw [hcounted, if_pos rfl] at hcount
    simpa [hcount.not_gt] using hfresh

/-! ### Work -/

/-- The segments left in a list of steps, if no process stops. -/
def cost (invoked : String → ℕ) (nodes : List StepNode) : ℕ :=
  (nodes.map fun node => 4 + 2 * node.remaining (invoked node.key)).sum

/-- The segments left in a call. -/
def StepNode.work (node : StepNode) (invoked : ℕ) : Suspension → ℕ
  | .entered => 3 + 2 * node.remaining invoked
  | .callback _ _ _ => 2 + 2 * node.remaining (invoked - 1)
  | .retryDelay _ _ _ => 3 + 2 * node.remaining invoked
  | .sleeping _ => 2
  | .paused _ | .waiting _ _ | .delivered _ _ => 0

/-- The segments left in the driver. -/
def Replay.work (s : Replay) : ℕ :=
  match s.place with
  | .runs b => 2 + cost s.invoked b.trail
  | .awaits k (.step node next) =>
      2 + cost s.invoked (next node.result).trail +
        (((s.world.mem.calls.get? k).map fun x =>
          node.work (s.invoked node.key) x.susp).getD 0)
  | .awaits _ (.ret _) => 0
  | .idle => if s.ended then 0 else 1

theorem cost_cons (invoked : String → ℕ) (node : StepNode) (nodes : List StepNode) :
    cost invoked (node :: nodes) =
      4 + 2 * node.remaining (invoked node.key) + cost invoked nodes := by
  rw [cost, List.map_cons, List.sum_cons]
  rfl

/-- Invocations only use work up. -/
theorem cost_anti {invoked invoked' : String → ℕ} (hle : ∀ name, invoked name ≤ invoked' name)
    (nodes : List StepNode) : cost invoked' nodes ≤ cost invoked nodes := by
  induction nodes with
  | nil => exact le_rfl
  | cons node nodes ih =>
    have hnode := node.remaining_anti (hle node.key)
    rw [cost_cons, cost_cons]
    omega

/-! ### The invariant -/

/-- The execution of the instance has `run()` pending, and its step object has seen `i`
steps. -/
structure Executing (p : Program) (now : ℕ) (m : Memory) (i : ℕ) : Prop where
  run : m.runs.get? 0 = some ⟨p.id, p.params, now, .running⟩
  live : m.aborted 0 = false
  impl : m.impls 0 = p.implAt i

/-- The call the code awaits. -/
def awaited (p : Program) (node : StepNode) (susp : Suspension) : Call :=
  ⟨0, p.id, node.call, susp⟩

/-- **The driver's invariant**, by the place of the code. -/
inductive Reached (cfg : Config) (p : Program) (now : ℕ) (s : Replay) : Prop
  /-- The code runs; all steps before it are recorded. -/
  | runs (b : Body) (i j : ℕ) (hplace : s.place = .runs b) (hat : b.At p i)
      (hexec : Executing p now s.world.mem i) (hon : Ongoing p now s.invoked s.world.db j)
      (hij : i ≤ j)
  /-- A call has passed `checkPaused`. -/
  | entered (k : ℕ) (node : StepNode) (next : Option Json → Body) (i j : ℕ)
      (hplace : s.place = .awaits k (.step node next)) (hat : (Body.step node next).At p i)
      (hexec : Executing p now s.world.mem i)
      (hcall : s.world.mem.calls.get? k = some (awaited p node .entered))
      (hon : Ongoing p now s.invoked s.world.db j) (hij : i ≤ j)
  /-- A callback runs; its step is the next to be recorded. -/
  | trying (k : ℕ) (name : String) (config : StepConfig) (callback : Callback)
      (next : Option Json → Body) (i : ℕ) (plan : RetryPlan) (attempt : ℕ) (due : Millis)
      (hplace : s.place = .awaits k (.step (.doStep name config callback) next))
      (hat : (Body.step (.doStep name config callback) next).At p i)
      (hexec : Executing p now s.world.mem (i + 1))
      (hcall : s.world.mem.calls.get? k =
        some (awaited p (.doStep name config callback) (.callback plan attempt due)))
      (hon : Ongoing p now s.invoked s.world.db i) (hplan : retryPlan cfg config = .ok plan)
      (hstarted : 1 ≤ s.invoked name)
      (hattempt : attempt ≤
        (StepNode.doStep name config callback).failures (s.invoked name - 1))
  /-- A callback has failed and is retried. -/
  | delaying (k : ℕ) (name : String) (config : StepConfig) (callback : Callback)
      (next : Option Json → Body) (i : ℕ) (plan : RetryPlan) (attempt : ℕ) (due : Option Millis)
      (hplace : s.place = .awaits k (.step (.doStep name config callback) next))
      (hat : (Body.step (.doStep name config callback) next).At p i)
      (hexec : Executing p now s.world.mem (i + 1))
      (hcall : s.world.mem.calls.get? k =
        some (awaited p (.doStep name config callback) (.retryDelay plan attempt due)))
      (hon : Ongoing p now s.invoked s.world.db i) (hplan : retryPlan cfg config = .ok plan)
      (hattempt : attempt + 1 ≤
        (StepNode.doStep name config callback).failures (s.invoked name))
  /-- A sleep is under way; its wake-up time is recorded. -/
  | sleeping (k : ℕ) (node : StepNode) (next : Option Json → Body) (i j : ℕ) (due : Millis)
      (hplace : s.place = .awaits k (.step node next)) (hat : (Body.step node next).At p i)
      (hexec : Executing p now s.world.mem (i + 1))
      (hcall : s.world.mem.calls.get? k = some (awaited p node (.sleeping due)))
      (hresult : node.result = none) (hon : Ongoing p now s.invoked s.world.db j)
      (hij : i + 1 ≤ j)
  /-- `run()` has settled; its end is not written. -/
  | settled (hplace : s.place = .idle)
      (hrun : s.world.mem.runs.get? 0 = some ⟨p.id, p.params, now, .settled p.outcome⟩)
      (hlive : s.world.mem.aborted 0 = false)
      (hon : Ongoing p now s.invoked s.world.db p.trail.length)
  /-- The end is written. -/
  | ended (hplace : s.place = .idle) (hended : s.ended = true)
      (hclosed : Closed p s.invoked s.world.db)

/-- In every state the database holds a checkpoint. -/
theorem Reached.kept (h : Reached cfg p now s) : Kept p now s.invoked s.world.db := by
  cases h with
  | runs b i j _ _ _ hon _ => exact .active j hon
  | entered k node next i j _ _ _ _ hon _ => exact .active j hon
  | trying k name config callback next i plan attempt due _ _ _ _ hon _ _ _ => exact .active i hon
  | delaying k name config callback next i plan attempt due _ _ _ _ hon _ _ => exact .active i hon
  | sleeping k node next i j due _ _ _ _ _ hon _ => exact .active j hon
  | settled _ _ _ hon => exact .active _ hon
  | ended _ _ hclosed => exact .closed hclosed

/-! ### Segments -/

/-- What a segment of the execution does: between its statements the checkpoint stands, after
it the invariant holds with less work left, and it starts no callback whose result is
recorded. -/
structure Good (cfg : Config) (p : Program) (now : ℕ) (s : Replay) (g : Seg) : Prop where
  keeps : Keeps (Kept p now s.invoked) s.world.db g.stmts
  reached : Reached cfg p now (s.after g)
  lower : (s.after g).work < s.work
  once : ∀ name, Replay.started s.place g.mem = some name →
    s.world.db.steps.get? (p.id, name) = none

theorem Replay.place_after (s : Replay) (g : Seg) :
    (s.after g).place = Replay.placeAfter s.world.mem.nextCall g.reply s.place := rfl

/-- A segment that starts no callback. -/
theorem Replay.invoked_after (h : Replay.started s.place g.mem = none) :
    (s.after g).invoked = s.invoked := by
  funext name
  simp [Replay.after, h]

/-- A call that has settled starts no callback. -/
theorem Replay.started_settle (hplace : s.place = .awaits k (.step node next)) :
    Replay.started s.place (m.settle k) = none := by
  rw [hplace]
  simp [Replay.started, Memory.settle, Table.get?_erase]

/-- The reply of a call that succeeds. -/
def StepNode.reply (node : StepNode) : Reply :=
  match node.result with
  | some v => .value (.result v)
  | none => .undefined

/-- The reply of a call that succeeds hands its result to the body. -/
theorem Replay.placeAfter_reply (n : ℕ) :
    Replay.placeAfter n node.reply (.awaits k (.step node next)) = .runs (next node.result) := by
  cases hresult : node.result <;> simp [StepNode.reply, hresult, Replay.placeAfter, Recorded.json?]

/-- A call succeeds: its step is recorded, the body goes on. -/
theorem Good.settle {stmts : List Stmt} (hplace : s.place = .awaits k (.step node next))
    (hat : (Body.step node next).At p i) (hexec : Executing p now m (i + 1))
    (hkeeps : Keeps (Kept p now s.invoked) s.world.db stmts)
    (hon : Ongoing p now s.invoked (execAll s.world.db stmts) j) (hij : i + 1 ≤ j)
    (hwork : 2 + cost s.invoked (next node.result).trail < s.work) :
    Good cfg p now s (Seg.settle m k stmts node.reply) := by
  have hnone := Replay.started_settle (m := m) hplace
  have hinvoked : (s.after (Seg.settle m k stmts node.reply)).invoked = s.invoked :=
    Replay.invoked_after hnone
  have hafter : (s.after (Seg.settle m k stmts node.reply)).place = .runs (next node.result) := by
    rw [Replay.place_after, hplace]
    exact Replay.placeAfter_reply _
  refine ⟨hkeeps, ?_, ?_, ?_⟩
  · refine .runs (next node.result) (i + 1) j hafter hat.step ⟨hexec.run, hexec.live, hexec.impl⟩
      ?_ hij
    rw [hinvoked]
    exact hon
  · rw [Replay.work, hafter, hinvoked]
    exact hwork
  · intro name hname
    rw [show Replay.started s.place (Seg.settle m k stmts node.reply).mem = none from hnone]
      at hname
    cases hname

/-- The work left while the code awaits a call. -/
theorem Replay.work_awaits {susp : Suspension} (hplace : s.place = .awaits k (.step node next))
    (hcall : s.world.mem.calls.get? k = some (awaited p node susp)) :
    s.work = 2 + cost s.invoked (next node.result).trail +
      node.work (s.invoked node.key) susp := by
  rw [Replay.work, hplace]
  simp only [hcall]
  rfl

/-- A call is suspended again without starting a callback. -/
theorem Replay.after_suspend {susp susp' : Suspension}
    (hplace : s.place = .awaits k (.step node next))
    (hcall : m.calls.get? k = some (awaited p node susp))
    (hsusp : ∀ plan attempt due, susp' ≠ .callback plan attempt due) (m' : Memory)
    (hcalls : m'.calls = (m.suspend k susp').calls) :
    Replay.started s.place m' = none ∧
      m'.calls.get? k = some (awaited p node susp') := by
  have hget : m'.calls.get? k = some (awaited p node susp') := by
    rw [hcalls, Memory.suspend, Table.get?_modify_self, hcall]
    rfl
  refine ⟨?_, hget⟩
  rw [hplace]
  simp only [Replay.started, hget, Option.map_some, awaited]
  split
  · next plan attempt due heq => exact absurd (Option.some.inj heq) (hsusp plan attempt due)
  · rfl

/-- A callback is started. -/
theorem Good.tryCallback {name : String} {config : StepConfig} {callback : Callback}
    {susp : Suspension} {plan : RetryPlan} {attempt : ℕ} (due : Millis)
    (hp : p.Admissible cfg now)
    (hplace : s.place = .awaits k (.step (.doStep name config callback) next))
    (hat : (Body.step (.doStep name config callback) next).At p i)
    (hexec : Executing p now m (i + 1))
    (hcall : m.calls.get? k = some (awaited p (.doStep name config callback) susp))
    (hon : Ongoing p now s.invoked s.world.db i) (hplan : retryPlan cfg config = .ok plan)
    (hattempt : attempt ≤ (StepNode.doStep name config callback).failures (s.invoked name))
    (hwork : 2 + cost s.invoked (next (some callback.value)).trail +
      (2 + 2 * (StepNode.doStep name config callback).remaining (s.invoked name)) < s.work) :
    Good cfg p now s ⟨[], m.suspend k (.callback plan attempt due), .pending⟩ := by
  let g : Seg := ⟨[], m.suspend k (.callback plan attempt due), .pending⟩
  have hget : g.mem.calls.get? k =
      some (awaited p (.doStep name config callback) (.callback plan attempt due)) := by
    show (m.suspend k _).calls.get? k = _
    rw [Memory.suspend, Table.get?_modify_self, hcall]
    rfl
  have hstarted : Replay.started s.place g.mem = some name := by
    rw [hplace]
    simp only [Replay.started, hget]
    rfl
  have hafter : (s.after g).place = .awaits k (.step (.doStep name config callback) next) := by
    rw [Replay.place_after, hplace]
    rfl
  have hcount : (s.after g).invoked name = s.invoked name + 1 := by
    simp [Replay.after, hstarted]
  have hle : ∀ n, s.invoked n ≤ (s.after g).invoked n := fun n => Nat.le_add_right _ _
  refine ⟨.active i hon, ?_, ?_, ?_⟩
  · refine .trying k name config callback next i plan attempt due hafter hat
      ⟨hexec.run, hexec.live, hexec.impl⟩ hget (hon.mono hle) hplan ?_ ?_
    · rw [hcount]
      omega
    · rw [hcount]
      exact hattempt
  · rw [Replay.work_awaits hafter hget]
    have hcost := cost_anti hle (next (some callback.value)).trail
    have hcount' : (s.after g).invoked (StepNode.doStep name config callback).key =
        s.invoked name + 1 := hcount
    simp only [StepNode.work, StepNode.result, hcount', Nat.add_sub_cancel]
    omega
  · intro name' hname'
    obtain rfl : name = name' := Option.some.inj (hstarted.symm.trans hname')
    exact hon.saved.get?_eq_none hp hat.getElem? le_rfl

/-- A failure count within the failing invocations is within the retry limit. -/
theorem StepNode.failures_le {name : String} {config : StepConfig} {callback : Callback}
    {plan : RetryPlan} (hsucceeds : (StepNode.doStep name config callback).Succeeds cfg now)
    (hplan : retryPlan cfg config = .ok plan) (n : ℕ) :
    (StepNode.doStep name config callback).failures n ≤ plan.maxRetries := by
  obtain ⟨-, -, plan', hplan', hcard⟩ := hsucceeds
  obtain rfl : plan = plan' := Except.ok.inj (hplan.symm.trans hplan')
  exact (Finset.card_filter_le _ _).trans hcard

/-- The head of the retry loop, while attempts are left. -/
theorem attemptLoop_eq {w : World} {x : Call} {plan : RetryPlan} {attempt : ℕ}
    (hle : attempt ≤ plan.maxRetries) (hlive : w.mem.aborted x.run = false)
    (lastError : Option String) :
    attemptLoop w m k x plan attempt lastError =
      ⟨[], m.suspend k (.callback plan attempt (timerDue w.clock plan.timeoutMs)), .pending⟩ := by
  rw [attemptLoop, if_neg (by omega), if_neg (by simp [hlive])]

/-- A sleep waits for what is left, or returns at once. -/
theorem Good.sleepFor {stmts : List Stmt} {susp : Suspension}
    (hplace : s.place = .awaits k (.step node next)) (hat : (Body.step node next).At p i)
    (hexec : Executing p now m (i + 1)) (hcall : m.calls.get? k = some (awaited p node susp))
    (hresult : node.result = none) (hkeeps : Keeps (Kept p now s.invoked) s.world.db stmts)
    (hon : Ongoing p now s.invoked (execAll s.world.db stmts) j) (hij : i + 1 ≤ j)
    (hwork : 2 + cost s.invoked (next node.result).trail + 2 < s.work) (x : Call) (ms : Millis) :
    Good cfg p now s (sleepFor s.world m k x stmts ms) := by
  rw [Workflow.sleepFor]
  split
  · have hsusp : ∀ plan attempt due,
        Suspension.sleeping (timerDue s.world.clock ms) ≠ .callback plan attempt due := nofun
    obtain ⟨hnone, hget⟩ := Replay.after_suspend (s := s) hplace hcall hsusp
      (skippableDelay s.world m k x stmts ms).mem rfl
    have hinvoked := Replay.invoked_after hnone
    have hafter : (s.after (skippableDelay s.world m k x stmts ms)).place =
        .awaits k (.step node next) := by
      rw [Replay.place_after, hplace]
      rfl
    refine ⟨hkeeps, ?_, ?_, ?_⟩
    · refine .sleeping k node next i j _ hafter hat ⟨hexec.run, hexec.live, hexec.impl⟩ hget
        hresult ?_ hij
      rw [hinvoked]
      exact hon
    · rw [Replay.work_awaits hafter hget, hinvoked]
      exact hwork
    · intro name hname
      rw [hnone] at hname
      cases hname
  · have hreply : node.reply = .undefined := by rw [StepNode.reply, hresult]
    rw [← hreply]
    exact Good.settle hplace hat hexec hkeeps hon hij (by omega)

/-! ### The continuation after `checkPaused` -/

/-- The process state once the call has passed the admission checks. -/
def Memory.admitted (m : Memory) (impl : StepImpl) : Memory :=
  { m with impls := Function.update m.impls 0 impl }

/-- The call passes the abort check and the admission checks. -/
theorem enter_eq (hp : p.Admissible cfg now) (hat : (Body.step node next).At p i)
    (hexec : Executing p now s.world.mem i) :
    enter cfg s.world k (awaited p node .entered) =
      match node with
      | .doStep name config _ =>
        doBody cfg s.world (s.world.mem.admitted (p.implAt (i + 1))) k
          (awaited p node .entered) name config
      | .sleep name duration =>
        sleepBody cfg s.world (s.world.mem.admitted (p.implAt (i + 1))) k
          (awaited p node .entered) name duration
      | .sleepUntil name timestamp =>
        sleepUntilBody cfg s.world (s.world.mem.admitted (p.implAt (i + 1))) k
          (awaited p node .entered) name timestamp := by
  have henroll : (s.world.mem.impls (awaited p node .entered).run).enroll cfg
      (awaited p node .entered).method.admission.1
      (awaited p node .entered).method.admission.2 = (p.implAt (i + 1), none) := by
    have himpl : s.world.mem.impls (awaited p node .entered).run = p.implAt i := hexec.impl
    rw [himpl]
    exact hp.enroll hat.getElem?
  have hlive : s.world.mem.aborted (awaited p node .entered).run = false := hexec.live
  simp only [enter]
  rw [if_neg (by simp [hlive]), henroll]
  cases node <;> rfl

/-- What the call finds is the memory of its execution, one step further. -/
theorem Executing.admitted (hexec : Executing p now m i) :
    Executing p now (m.admitted (p.implAt (i + 1))) (i + 1) :=
  ⟨hexec.run, hexec.live, by simp [Memory.admitted]⟩

/-- `do`: the recorded result, or the first attempt of this process. -/
theorem Good.doBody {name : String} {config : StepConfig} {callback : Callback}
    (hp : p.Admissible cfg now)
    (hplace : s.place = .awaits k (.step (.doStep name config callback) next))
    (hat : (Body.step (.doStep name config callback) next).At p i)
    (hexec : Executing p now s.world.mem i)
    (hcall : s.world.mem.calls.get? k =
      some (awaited p (.doStep name config callback) .entered))
    (hon : Ongoing p now s.invoked s.world.db j) (hij : i ≤ j) :
    Good cfg p now s (doBody cfg s.world (s.world.mem.admitted (p.implAt (i + 1))) k
      (awaited p (.doStep name config callback) .entered) name config) := by
  have hwork := Replay.work_awaits hplace hcall
  have hnode := hat.getElem?
  have hexec' := hexec.admitted
  simp only [StepNode.work, StepNode.key, StepNode.call, StepCall.admission,
    StepNode.result] at hwork
  simp only [Workflow.doBody, awaited]
  rcases Nat.lt_or_ge i j with hlt | hge
  · -- the result was recorded by an earlier process
    obtain ⟨row, hrow, hrecords⟩ := hon.saved.done i _ hnode hlt
    have hrow' : s.world.db.steps.get? (p.id, name) = some row := hrow
    have hparsed : row.parsed = .result callback.value := by
      rw [StepRow.parsed, show row.output = _ from hrecords]
      rfl
    rw [hrow']
    simp only [hparsed]
    have hkeeps : Keeps (Kept p now s.invoked) s.world.db [] := Kept.active j hon
    have hless : 2 + cost s.invoked (next (some callback.value)).trail < s.work := by omega
    exact Good.settle hplace hat hexec' hkeeps hon hlt hless
  · obtain rfl : i = j := Nat.le_antisymm hij hge
    have hnone : s.world.db.steps.get? (p.id, name) = none :=
      hon.saved.get?_eq_none hp hnode le_rfl
    obtain ⟨-, -, plan, hplan, -⟩ := hp.succeeds _ (List.mem_of_getElem? hnode)
    have hfew := StepNode.failures_le (hp.succeeds _ (List.mem_of_getElem? hnode)) hplan
    have hattempt : ((s.world.db.attempts.get? (p.id, name)).map
        AttemptRow.failedAttempts).getD 0 ≤
          (StepNode.doStep name config callback).failures (s.invoked name) := by
      cases hrow : s.world.db.attempts.get? (p.id, name) with
      | none => exact Nat.zero_le _
      | some row => exact hon.saved.attempts _ (List.mem_of_getElem? hnode) row hrow
    rw [hnone]
    simp only [hplan]
    rw [attemptLoop_eq (hattempt.trans (hfew _)) hexec'.live]
    exact Good.tryCallback _ hp hplace hat hexec' hcall hon hplan hattempt (by omega)

/-- The statement of `cacheStep` for an output that fits. -/
theorem cacheStep_eq {id name : String} {o : Recorded} {time : Millis}
    (h : o.serializedLength ≤ cfg.limits.maxStepOutputBytes) :
    cacheStep cfg id name (some o) time = .ok [.cacheStep id name (some o) time] := by
  simp [cacheStep, h.not_gt]

/-- The next step is recorded by a statement of its own. -/
theorem Ongoing.cacheStep {invoked : String → ℕ} {db : Db} (hp : p.Admissible cfg now)
    (hon : Ongoing p now invoked db i) (hnode : p.trail[i]? = some node)
    {output : Option Recorded} {time : Millis} (hrecords : node.Records ⟨output, time⟩) :
    Ongoing p now invoked (exec db (.cacheStep p.id node.key output time)) (i + 1) :=
  ⟨hon.row, hon.saved.cacheStep hp hnode hrecords⟩

/-- `sleep`: what is left of a recorded sleep, or a new one. -/
theorem Good.sleepBody {name : String} {duration : Duration} (hp : p.Admissible cfg now)
    (hplace : s.place = .awaits k (.step (.sleep name duration) next))
    (hat : (Body.step (.sleep name duration) next).At p i)
    (hexec : Executing p now s.world.mem i)
    (hcall : s.world.mem.calls.get? k = some (awaited p (.sleep name duration) .entered))
    (hon : Ongoing p now s.invoked s.world.db j) (hij : i ≤ j) :
    Good cfg p now s (sleepBody cfg s.world (s.world.mem.admitted (p.implAt (i + 1))) k
      (awaited p (.sleep name duration) .entered) name duration) := by
  have hwork := Replay.work_awaits hplace hcall
  have hnode := hat.getElem?
  have hexec' := hexec.admitted
  simp only [StepNode.work, StepNode.remaining] at hwork
  simp only [Workflow.sleepBody]
  rcases Nat.lt_or_ge i j with hlt | hge
  · -- the wake-up time was recorded by an earlier process
    obtain ⟨row, hrow, t, ht⟩ := hon.saved.done i _ hnode hlt
    have hrow' : s.world.db.steps.get?
        ((awaited p (.sleep name duration) .entered).instanceId, "sleep:" ++ name) = some row :=
      hrow
    rw [hrow']
    simp only [ht]
    have hkeeps : Keeps (Kept p now s.invoked) s.world.db [] := Kept.active j hon
    exact Good.sleepFor hplace hat hexec' hcall rfl hkeeps hon hlt (by omega) _ _
  · obtain rfl : i = j := Nat.le_antisymm hij hge
    have hnone : s.world.db.steps.get?
        ((awaited p (.sleep name duration) .entered).instanceId, "sleep:" ++ name) = none :=
      hon.saved.get?_eq_none hp hnode le_rfl
    obtain ⟨⟨ms, hms, hmax⟩, hfits⟩ := hp.succeeds _ (List.mem_of_getElem? hnode)
    have hrecords : (StepNode.sleep name duration).Records
        ⟨some (.until (s.world.clock + ms)), s.world.clock⟩ := ⟨_, rfl⟩
    have hnext := hon.cacheStep hp hnode hrecords
    have hkeeps : Keeps (Kept p now s.invoked) s.world.db
        [.cacheStep p.id ("sleep:" ++ name) (some (.until (s.world.clock + ms))) s.world.clock] :=
      ⟨.active i hon, .active _ hnext⟩
    rw [hnone]
    simp only [hms]
    rw [if_neg hmax.not_gt, cacheStep_eq (hfits _)]
    exact Good.sleepFor hplace hat hexec' hcall rfl hkeeps hnext le_rfl (by omega) _ _

/-- `sleepUntil`: likewise, with the time in the call. -/
theorem Good.sleepUntilBody {name : String} {timestamp : Millis} (hp : p.Admissible cfg now)
    (hclock : (now : Millis) ≤ s.world.clock)
    (hplace : s.place = .awaits k (.step (.sleepUntil name timestamp) next))
    (hat : (Body.step (.sleepUntil name timestamp) next).At p i)
    (hexec : Executing p now s.world.mem i)
    (hcall : s.world.mem.calls.get? k = some (awaited p (.sleepUntil name timestamp) .entered))
    (hon : Ongoing p now s.invoked s.world.db j) (hij : i ≤ j) :
    Good cfg p now s (sleepUntilBody cfg s.world (s.world.mem.admitted (p.implAt (i + 1))) k
      (awaited p (.sleepUntil name timestamp) .entered) name timestamp) := by
  have hwork := Replay.work_awaits hplace hcall
  have hnode := hat.getElem?
  have hexec' := hexec.admitted
  simp only [StepNode.work, StepNode.remaining] at hwork
  simp only [Workflow.sleepUntilBody]
  rcases Nat.lt_or_ge i j with hlt | hge
  · obtain ⟨row, hrow, -⟩ := hon.saved.done i _ hnode hlt
    have hrow' : s.world.db.steps.get?
        ((awaited p (.sleepUntil name timestamp) .entered).instanceId, "sleepUntil:" ++ name) =
          some row := hrow
    rw [hrow']
    have hkeeps : Keeps (Kept p now s.invoked) s.world.db [] := Kept.active j hon
    exact Good.sleepFor hplace hat hexec' hcall rfl hkeeps hon hlt (by omega) _ _
  · obtain rfl : i = j := Nat.le_antisymm hij hge
    have hnone : s.world.db.steps.get?
        ((awaited p (.sleepUntil name timestamp) .entered).instanceId, "sleepUntil:" ++ name) =
          none := hon.saved.get?_eq_none hp hnode le_rfl
    obtain ⟨hmax, hfits⟩ := hp.succeeds _ (List.mem_of_getElem? hnode)
    have hrecords : (StepNode.sleepUntil name timestamp).Records
        ⟨some (.untilIso timestamp), s.world.clock⟩ := rfl
    have hnext := hon.cacheStep hp hnode hrecords
    have hdelay : max 0 (timestamp - s.world.clock) ≤ cfg.limits.maxSleepMs :=
      (max_le_max le_rfl (Int.sub_le_sub_left hclock _)).trans hmax
    have hkeeps : Keeps (Kept p now s.invoked) s.world.db
        [.cacheStep p.id ("sleepUntil:" ++ name) (some (.untilIso timestamp)) s.world.clock] :=
      ⟨.active i hon, .active _ hnext⟩
    rw [hnone]
    dsimp only
    rw [if_neg hdelay.not_gt, cacheStep_eq hfits]
    exact Good.sleepFor hplace hat hexec' hcall rfl hkeeps hnext le_rfl (by omega) _ _

/-- The continuation of a call after `checkPaused`, for each kind of step. -/
theorem Good.enter (hp : p.Admissible cfg now) (hclock : (now : Millis) ≤ s.world.clock)
    (hplace : s.place = .awaits k (.step node next)) (hat : (Body.step node next).At p i)
    (hexec : Executing p now s.world.mem i)
    (hcall : s.world.mem.calls.get? k = some (awaited p node .entered))
    (hon : Ongoing p now s.invoked s.world.db j) (hij : i ≤ j) :
    Good cfg p now s (enter cfg s.world k (awaited p node .entered)) := by
  rw [enter_eq hp hat hexec]
  cases node with
  | doStep name config callback => exact Good.doBody hp hplace hat hexec hcall hon hij
  | sleep name duration => exact Good.sleepBody hp hplace hat hexec hcall hon hij
  | sleepUntil name timestamp =>
    exact Good.sleepUntilBody hp hclock hplace hat hexec hcall hon hij

/-! ### The retry loop -/

/-- A failed attempt with attempts left is recorded and retried after a delay. -/
theorem attemptFails_eq {w : World} {x : Call} {name : String} {plan : RetryPlan} {attempt : ℕ}
    (hlt : attempt < plan.maxRetries) (hlive : w.mem.aborted x.run = false) (err : Thrown) :
    ∃ due, attemptFails w k x name plan attempt err =
      ⟨[.recordAttempt x.instanceId name (attempt + 1) err.message err.name w.clock],
        w.mem.suspend k (.retryDelay plan attempt due), .pending⟩ := by
  rw [attemptFails, if_pos hlt, retryDelay]
  split
  · exact ⟨none, rfl⟩
  · rw [if_neg (by simp [hlive])]
    exact ⟨_, rfl⟩

/-- An attempt fails: the failure is recorded before the next one. -/
theorem Good.attemptFails {name : String} {config : StepConfig} {callback : Callback}
    {plan : RetryPlan} {attempt : ℕ} {due : Millis} (hp : p.Admissible cfg now)
    (hplace : s.place = .awaits k (.step (.doStep name config callback) next))
    (hat : (Body.step (.doStep name config callback) next).At p i)
    (hexec : Executing p now s.world.mem (i + 1))
    (hcall : s.world.mem.calls.get? k =
      some (awaited p (.doStep name config callback) (.callback plan attempt due)))
    (hon : Ongoing p now s.invoked s.world.db i) (hplan : retryPlan cfg config = .ok plan)
    (hstarted : 1 ≤ s.invoked name)
    (hattempt : attempt ≤ (StepNode.doStep name config callback).failures (s.invoked name - 1))
    (hfailing : s.invoked name - 1 ∈ callback.failing) (err : Thrown) :
    Good cfg p now s (attemptFails s.world k
      (awaited p (.doStep name config callback) (.callback plan attempt due)) name plan attempt
        err) := by
  have hwork := Replay.work_awaits hplace hcall
  have hnode := List.mem_of_getElem? hat.getElem?
  have hlast : s.invoked name - 1 + 1 = s.invoked name := by omega
  have hcount : attempt + 1 ≤
      (StepNode.doStep name config callback).failures (s.invoked name) := by
    have hmore := callback.card_filter_lt_succ hfailing
    rw [hlast] at hmore
    simp only [StepNode.failures] at hattempt ⊢
    omega
  have hleft : (StepNode.doStep name config callback).remaining (s.invoked name - 1) =
      (StepNode.doStep name config callback).remaining (s.invoked name) + 1 := by
    have hless := callback.card_filter_le hfailing
    rw [hlast] at hless
    exact hless
  have hlt : attempt < plan.maxRetries :=
    hcount.trans (StepNode.failures_le (hp.succeeds _ hnode) hplan _)
  obtain ⟨due', heq⟩ : ∃ due', Workflow.attemptFails s.world k
      (awaited p (.doStep name config callback) (.callback plan attempt due)) name plan attempt
        err = ⟨[.recordAttempt p.id name (attempt + 1) err.message err.name s.world.clock],
          s.world.mem.suspend k (.retryDelay plan attempt due'), .pending⟩ :=
    attemptFails_eq hlt hexec.live err
  rw [heq]
  have hsusp : ∀ plan' attempt' due'',
      Suspension.retryDelay plan attempt due' ≠ .callback plan' attempt' due'' := nofun
  obtain ⟨hnone, hget⟩ := Replay.after_suspend hplace hcall hsusp _ rfl
  have hrecord : Ongoing p now s.invoked (exec s.world.db
      (.recordAttempt p.id name (attempt + 1) err.message err.name s.world.clock)) i :=
    ⟨hon.row, hon.saved.recordAttempt hp hnode hcount⟩
  let g : Seg :=
    ⟨[.recordAttempt p.id name (attempt + 1) err.message err.name s.world.clock],
      s.world.mem.suspend k (.retryDelay plan attempt due'), .pending⟩
  have hinvoked : (s.after g).invoked = s.invoked := Replay.invoked_after hnone
  have hafter : (s.after g).place = .awaits k (.step (.doStep name config callback) next) := by
    rw [Replay.place_after, hplace]
    rfl
  refine ⟨⟨.active i hon, .active i hrecord⟩, ?_, ?_, ?_⟩
  · refine .delaying k name config callback next i plan attempt due' hafter hat
      ⟨hexec.run, hexec.live, hexec.impl⟩ hget ?_ hplan ?_
    · rw [hinvoked]
      exact hrecord
    · rw [hinvoked]
      exact hcount
  · rw [Replay.work_awaits hafter hget, hwork, hinvoked]
    simp only [StepNode.work, StepNode.key, StepNode.call, StepCall.admission]
    omega
  · intro name' hname'
    rw [hnone] at hname'
    cases hname'

/-- A callback settles: its result is recorded, or its failure. -/
theorem Good.callbackSettles {name : String} {config : StepConfig} {callback : Callback}
    {plan : RetryPlan} {attempt : ℕ} {due : Millis} (hp : p.Admissible cfg now)
    (hplace : s.place = .awaits k (.step (.doStep name config callback) next))
    (hat : (Body.step (.doStep name config callback) next).At p i)
    (hexec : Executing p now s.world.mem (i + 1))
    (hcall : s.world.mem.calls.get? k =
      some (awaited p (.doStep name config callback) (.callback plan attempt due)))
    (hon : Ongoing p now s.invoked s.world.db i) (hplan : retryPlan cfg config = .ok plan)
    (hstarted : 1 ≤ s.invoked name)
    (hattempt : attempt ≤ (StepNode.doStep name config callback).failures (s.invoked name - 1)) :
    Good cfg p now s (callbackSettles cfg s.world k
      (awaited p (.doStep name config callback) (.callback plan attempt due)) name config plan
        attempt (callback.invoke (s.invoked name - 1))) := by
  by_cases hfailing : s.invoked name - 1 ∈ callback.failing
  · have hfails := Good.attemptFails hp hplace hat hexec hcall hon hplan hstarted hattempt hfailing
    have hretry := callback.fails _ hfailing
    cases houtcome : callback.invoke (s.invoked name - 1) with
    | threw err => exact hfails err
    | timedOut => exact hfails _
    | returned v =>
      rw [houtcome] at hretry
      cases hretry
    | threwNonRetryable message =>
      rw [houtcome] at hretry
      cases hretry
  · have hnode := hat.getElem?
    have hwork := Replay.work_awaits hplace hcall
    simp only [StepNode.work] at hwork
    have hrecords : (StepNode.doStep name config callback).Records
        ⟨some (.result callback.value), s.world.clock⟩ := rfl
    have hnext := hon.cacheStep hp hnode hrecords
    have hlast : Ongoing p now s.invoked (exec (exec s.world.db
        (.cacheStep p.id name (some (.result callback.value)) s.world.clock))
          (.deleteAttempt p.id name)) (i + 1) := ⟨hnext.row, hnext.saved.deleteAttempt name⟩
    have hkeeps : Keeps (Kept p now s.invoked) s.world.db
        [.cacheStep p.id name (some (.result callback.value)) s.world.clock,
          .deleteAttempt p.id name] := ⟨.active i hon, .active _ hnext, .active _ hlast⟩
    obtain ⟨-, hfits, -⟩ := hp.succeeds _ (List.mem_of_getElem? hnode)
    rw [callback.returns _ hfailing]
    simp only [Workflow.callbackSettles, Option.map_some]
    rw [cacheStep_eq hfits]
    exact Good.settle hplace hat hexec hkeeps hlast le_rfl (by omega)

/-- The delay before the next attempt is over. -/
theorem Good.retry {name : String} {config : StepConfig} {callback : Callback}
    {plan : RetryPlan} {attempt : ℕ} {due : Option Millis} (hp : p.Admissible cfg now)
    (hplace : s.place = .awaits k (.step (.doStep name config callback) next))
    (hat : (Body.step (.doStep name config callback) next).At p i)
    (hexec : Executing p now s.world.mem (i + 1))
    (hcall : s.world.mem.calls.get? k =
      some (awaited p (.doStep name config callback) (.retryDelay plan attempt due)))
    (hon : Ongoing p now s.invoked s.world.db i) (hplan : retryPlan cfg config = .ok plan)
    (hattempt : attempt + 1 ≤ (StepNode.doStep name config callback).failures (s.invoked name)) :
    Good cfg p now s (retry s.world k
      (awaited p (.doStep name config callback) (.retryDelay plan attempt due)) plan attempt) := by
  have hwork := Replay.work_awaits hplace hcall
  have hnode := List.mem_of_getElem? hat.getElem?
  have hle : attempt + 1 ≤ plan.maxRetries :=
    hattempt.trans (StepNode.failures_le (hp.succeeds _ hnode) hplan _)
  simp only [StepNode.work, StepNode.key, StepNode.call, StepCall.admission,
    StepNode.result] at hwork
  rw [Workflow.retry, attemptLoop_eq hle hexec.live]
  exact Good.tryCallback _ hp hplace hat hexec hcall hon hplan hattempt (by omega)

/-! ### The other segments -/

/-- The timer of a sleep fires. -/
theorem Good.sleepOver {due : Millis} (hplace : s.place = .awaits k (.step node next))
    (hat : (Body.step node next).At p i) (hexec : Executing p now s.world.mem (i + 1))
    (hcall : s.world.mem.calls.get? k = some (awaited p node (.sleeping due)))
    (hresult : node.result = none) (hon : Ongoing p now s.invoked s.world.db j)
    (hij : i + 1 ≤ j) :
    Good cfg p now s (sleepOver s.world k (awaited p node (.sleeping due))) := by
  have hwork := Replay.work_awaits hplace hcall
  simp only [StepNode.work] at hwork
  have hreply : node.reply = .undefined := by rw [StepNode.reply, hresult]
  have hkeeps : Keeps (Kept p now s.invoked) s.world.db [] := Kept.active j hon
  have hexec' : Executing p now (s.world.mem.deleteSleepResolver p.id) (i + 1) :=
    ⟨hexec.run, hexec.live, hexec.impl⟩
  rw [Workflow.sleepOver, ← hreply]
  exact Good.settle hplace hat hexec' hkeeps hon hij (by omega)

/-- The body makes its next call. -/
theorem Good.call {r : Run} (hp : p.Admissible cfg now)
    (hr : r = ⟨p.id, p.params, now, .running⟩) (hplace : s.place = .runs (.step node next))
    (hat : (Body.step node next).At p i) (hexec : Executing p now s.world.mem i)
    (hon : Ongoing p now s.invoked s.world.db j) (hij : i ≤ j) :
    Good cfg p now s (stepCall cfg s.world 0 r node.call) := by
  obtain ⟨row, hrow, hunder⟩ := hon.row
  have hround : pauseRound s.world p.id = .entered := by
    rw [pauseRound, hrow.status, hunder.status, if_neg (by decide)]
  have heq : stepCall cfg s.world 0 r node.call =
      ⟨[],
        { s.world.mem with
          calls := s.world.mem.calls.insert s.world.mem.nextCall (awaited p node .entered)
          nextCall := s.world.mem.nextCall + 1 },
        .pending⟩ := by
    have hsucceeds := hp.succeeds _ (List.mem_of_getElem? hat.getElem?)
    subst hr
    simp only [stepCall]
    cases node with
    | doStep name config callback =>
      simp [StepNode.call, hsucceeds.1.not_gt, hexec.live, hround, awaited]
    | sleep | sleepUntil => simp [StepNode.call, hexec.live, hround, awaited]
  rw [heq]
  let g : Seg :=
    ⟨[],
      { s.world.mem with
        calls := s.world.mem.calls.insert s.world.mem.nextCall (awaited p node .entered)
        nextCall := s.world.mem.nextCall + 1 },
      .pending⟩
  have hnone : Replay.started s.place g.mem = none := by
    rw [hplace]
    rfl
  have hinvoked : (s.after g).invoked = s.invoked := Replay.invoked_after hnone
  have hafter : (s.after g).place = .awaits s.world.mem.nextCall (.step node next) := by
    rw [Replay.place_after, hplace]
    rfl
  have hget : (s.after g).world.mem.calls.get? s.world.mem.nextCall =
      some (awaited p node .entered) := Table.get?_insert_self ..
  refine ⟨.active j hon, ?_, ?_, ?_⟩
  · refine .entered _ node next i j hafter hat ⟨hexec.run, hexec.live, hexec.impl⟩ hget ?_ hij
    rw [hinvoked]
    exact hon
  · rw [Replay.work_awaits hafter hget, hinvoked, Replay.work, hplace]
    simp only [Body.trail, cost_cons, StepNode.work]
    omega
  · intro name hname
    rw [hnone] at hname
    cases hname

/-- `run()` settles. -/
theorem Good.runSettles {outcome : Outcome} (hplace : s.place = .runs (.ret outcome))
    (hat : (Body.ret outcome).At p i) (hexec : Executing p now s.world.mem i)
    (hon : Ongoing p now s.invoked s.world.db j) (hij : i ≤ j) :
    Good cfg p now s ⟨[], { s.world.mem with
      toExecutions := s.world.mem.toExecutions.setPhase 0 (.settled outcome) }, .done⟩ := by
  obtain rfl : outcome = p.outcome := hat.outcome
  obtain rfl : j = p.trail.length :=
    Nat.le_antisymm hon.saved.le (hat.length_le.trans hij)
  let g : Seg := ⟨[], { s.world.mem with
    toExecutions := s.world.mem.toExecutions.setPhase 0 (.settled p.outcome) }, .done⟩
  have hnone : Replay.started s.place g.mem = none := by
    rw [hplace]
    rfl
  have hinvoked : (s.after g).invoked = s.invoked := Replay.invoked_after hnone
  have hafter : (s.after g).place = .idle := by
    rw [Replay.place_after, hplace]
    rfl
  have hrun : g.mem.runs.get? 0 = some ⟨p.id, p.params, now, .settled p.outcome⟩ := by
    show (s.world.mem.runs.modify 0 _).get? 0 = _
    rw [Table.get?_modify_self, hexec.run]
    rfl
  refine ⟨.active _ hon, ?_, ?_, ?_⟩
  · refine .settled hafter hrun hexec.live ?_
    rw [hinvoked]
    exact hon
  · have hle : (s.after g).work ≤ 1 := by
      rw [Replay.work, hafter]
      dsimp only
      split <;> omega
    have hbefore : 2 ≤ s.work := by
      rw [Replay.work, hplace]
      exact Nat.le_add_right _ _
    exact hle.trans_lt hbefore
  · intro name hname
    rw [hnone] at hname
    cases hname

/-- `executeWorkflow` writes the end. -/
theorem Good.executeEnd {r : Run} (hr : r.instanceId = p.id) (hplace : s.place = .idle)
    (hrun : s.world.mem.runs.get? 0 = some ⟨p.id, p.params, now, .settled p.outcome⟩)
    (hlive : s.world.mem.aborted 0 = false)
    (hon : Ongoing p now s.invoked s.world.db p.trail.length) :
    Good cfg p now s (executeEnd s.world 0 r p.outcome) := by
  obtain ⟨hkeeps, hclosed⟩ := hon.endStmts s.world.clock
  obtain ⟨row, hrow, hcloses⟩ := hclosed.row
  have hqueued : row.status ≠ .queued := by
    intro h
    rcases houtcome : p.outcome with (_ | _) | _ <;> rw [houtcome] at hcloses <;>
      cases h.symm.trans hcloses.1
  have heq : Workflow.executeEnd s.world 0 r p.outcome =
      ⟨endStmts false p.id s.world.clock p.outcome, s.world.mem.finish 0 p.id, .done⟩ := by
    rw [Workflow.executeEnd]
    rw [hlive, hr]
    dsimp only
    rw [hrow.firstQueued hqueued]
  rw [heq]
  let g : Seg := ⟨endStmts false p.id s.world.clock p.outcome, s.world.mem.finish 0 p.id, .done⟩
  have hnone : Replay.started s.place g.mem = none := by
    rw [hplace]
    rfl
  have hinvoked : (s.after g).invoked = s.invoked := Replay.invoked_after hnone
  have hafter : (s.after g).place = .idle := by
    rw [Replay.place_after, hplace]
    rfl
  have hget : g.mem.runs.get? 0 = some ⟨p.id, p.params, now, .ended⟩ := by
    show (s.world.mem.runs.modify 0 _).get? 0 = _
    rw [Table.get?_modify_self, hrun]
    rfl
  have hended : (s.after g).ended = true := by
    rw [Replay.ended, hafter]
    simp only [show (s.after g).world.mem.runs.get? 0 = _ from hget]
    rfl
  refine ⟨hkeeps, .ended hafter hended ?_, ?_, ?_⟩
  · rw [hinvoked]
    exact hclosed
  · have hbefore : s.ended = false := by
      rw [Replay.ended, hplace]
      simp only [hrun]
      rfl
    have hzero : (s.after g).work = 0 := by
      rw [Replay.work, hafter]
      exact if_pos hended
    have hone : s.work = 1 := by
      rw [Replay.work, hplace]
      exact if_neg (by simp [hbefore])
    exact (hzero.trans_lt Nat.one_pos).trans_eq hone.symm
  · intro name hname
    rw [hnone] at hname
    cases hname

/-! ### The next segment -/

/-- A pending timer of the awaited call has come due. -/
theorem Replay.due_of_wait {susp : Suspension} {due : Millis}
    (hplace : s.place = .awaits k (.step node next))
    (hcall : s.world.mem.calls.get? k = some (awaited p node susp))
    (hdue : susp.due? = some due) (hwait : s.wait = 0) : due ≤ s.world.clock := by
  rw [Replay.wait, hplace] at hwait
  simp only [hcall, Option.bind_some, awaited, hdue, Option.map_some, Option.getD_some] at hwait
  exact Int.le_of_sub_nonpos (Int.toNat_eq_zero.mp hwait)

/-- **The next segment.** Before the end there is one; once its timer is due it is enabled;
and it does what it should. -/
theorem Reached.proceed (h : Reached cfg p now s) (hp : p.Admissible cfg now)
    (hclock : (now : Millis) ≤ s.world.clock) (hend : s.ended = false) :
    ∃ o, s.op? = some o ∧ (∀ g, segment cfg s.world o = some g → Good cfg p now s g) ∧
      (s.wait = 0 → (segment cfg s.world o).isSome = true) := by
  cases h with
  | runs b i j hplace hat hexec hon hij =>
    cases b with
    | ret outcome =>
      refine ⟨.runSettles 0 outcome, by simp [Replay.op?, hplace], ?_, ?_⟩
      · intro g hg
        simp only [segment, hexec.run, Option.bind_some] at hg
        obtain rfl := Option.some.inj hg
        exact Good.runSettles hplace hat hexec hon hij
      · intro _
        simp [segment, hexec.run]
    | step node next =>
      refine ⟨.call 0 node.call, by simp [Replay.op?, hplace], ?_, ?_⟩
      · intro g hg
        simp only [segment, hexec.run, Option.map_some] at hg
        obtain rfl := Option.some.inj hg
        exact Good.call hp rfl hplace hat hexec hon hij
      · intro _
        simp [segment, hexec.run]
  | entered k node next i j hplace hat hexec hcall hon hij =>
    refine ⟨.enter k, ?_, ?_, ?_⟩
    · simp [Replay.op?, hplace, hcall, awaited, StepNode.continuation]
    · intro g hg
      simp only [segment, hcall, Option.bind_some, callSegment, awaited] at hg
      obtain rfl := Option.some.inj hg
      exact Good.enter hp hclock hplace hat hexec hcall hon hij
    · intro _
      simp [segment, hcall, callSegment, awaited]
  | trying k name config callback next i plan attempt due hplace hat hexec hcall hon hplan
      hstarted hattempt =>
      have hgood := Good.callbackSettles hp hplace hat hexec hcall hon hplan hstarted hattempt
      refine ⟨.callback k (callback.invoke (s.invoked name - 1)), ?_, ?_, ?_⟩
      · simp [Replay.op?, hplace, hcall, awaited, StepNode.continuation, StepNode.settlement,
          StepNode.key, StepNode.call, StepCall.admission]
      · intro g hg
        simp only [segment, hcall, Option.bind_some, callSegment, awaited, StepNode.call] at hg
        cases houtcome : callback.invoke (s.invoked name - 1) with
        | timedOut =>
          rw [houtcome] at hg hgood
          obtain ⟨-, rfl⟩ := Option.ite_some_none_eq_some.mp hg
          exact hgood
        | returned v | threw err | threwNonRetryable message =>
          rw [houtcome] at hg hgood
          obtain rfl := Option.some.inj hg
          exact hgood
      · intro hwait
        have hdue := Replay.due_of_wait hplace hcall rfl hwait
        cases houtcome : callback.invoke (s.invoked name - 1) <;>
          simp [segment, hcall, callSegment, awaited, StepNode.call, hdue]
  | delaying k name config callback next i plan attempt due hplace hat hexec hcall hon hplan
      hattempt =>
      refine ⟨.retry k, ?_, ?_, ?_⟩
      · simp [Replay.op?, hplace, hcall, awaited, StepNode.continuation]
      · intro g hg
        simp only [segment, hcall, Option.bind_some, callSegment, awaited] at hg
        obtain ⟨-, rfl⟩ := Option.ite_some_none_eq_some.mp hg
        exact Good.retry hp hplace hat hexec hcall hon hplan hattempt
      · intro hwait
        cases due with
        | none => simp [segment, hcall, callSegment, awaited]
        | some due =>
          have hdue := Replay.due_of_wait hplace hcall rfl hwait
          simp [segment, hcall, callSegment, awaited, hdue]
  | sleeping k node next i j due hplace hat hexec hcall hresult hon hij =>
    refine ⟨.sleepOver k, ?_, ?_, ?_⟩
    · simp [Replay.op?, hplace, hcall, awaited, StepNode.continuation]
    · intro g hg
      simp only [segment, hcall, Option.bind_some, callSegment, awaited] at hg
      obtain ⟨-, rfl⟩ := Option.ite_some_none_eq_some.mp hg
      exact Good.sleepOver hplace hat hexec hcall hresult hon hij
    · intro hwait
      have hdue := Replay.due_of_wait hplace hcall rfl hwait
      simp [segment, hcall, callSegment, awaited, hdue]
  | settled hplace hrun hlive hon =>
    refine ⟨.runEnds 0, by simp [Replay.op?, hplace], ?_, ?_⟩
    · intro g hg
      simp only [segment, hrun, Option.bind_some] at hg
      obtain rfl := Option.some.inj hg
      exact Good.executeEnd rfl hplace hrun hlive hon
    · intro _
      simp [segment, hrun]
  | ended _ hended _ =>
    rw [hended] at hend
    cases hend

/-- After the end nothing is left to run. -/
theorem Replay.segment_of_ended (cfg : Config) (hended : s.ended = true) :
    ∃ o, s.op? = some o ∧ segment cfg s.world o = none := by
  simp only [Replay.ended] at hended
  split at hended
  · next hplace =>
      refine ⟨.runEnds 0, by simp [Replay.op?, hplace], ?_⟩
      cases hrun : s.world.mem.runs.get? 0 with
      | none => simp [segment, hrun]
      | some r =>
        rw [hrun] at hended
        cases hphase : r.phase with
        | running | settled => simp [hphase, Phase.unended] at hended
        | ended => simp [segment, hrun, hphase]
  · cases hended

/-! ### The driver -/

/-- The invariant of the driver, with its clock. -/
structure Replaying (cfg : Config) (p : Program) (now : ℕ) (s : Replay) : Prop where
  reached : Reached cfg p now s
  clock : (now : Millis) ≤ s.world.clock

/-- `create` starts the instance. -/
theorem Replaying.start (hp : p.Admissible cfg now) : Replaying cfg p now (p.start cfg now) := by
  let w : World := { World.init with clock := now }
  let row : InstanceRow := ⟨some p.params, .running, none, none, none, now, now⟩
  let cleanup := cleanupRetentionExpired cfg w.db w.clock
  have hclean : execAll w.db cleanup = Db.empty := by
    show execAll w.db (cleanupRetentionExpired cfg w.db w.clock) = Db.empty
    simp only [cleanupRetentionExpired]
    split <;> rfl
  have hlimit : Db.empty.atLimit cfg = false := by
    simp only [Db.atLimit]
    cases hmax : cfg.limits.maxConcurrentInstances with
    | none => rfl
    | some n =>
      have hne : n ≠ 0 := fun h => hp.started (hmax.trans (congrArg some h))
      have hzero : Db.empty.countRunning = 0 := rfl
      rw [hzero]
      simpa using hne
  have hcreate : create cfg w (some p.id) (some p.params) =
      ⟨cleanup ++ [.insertInstance p.id row], w.mem.launch p.id p.params now, .done⟩ := by
    show createWith cfg w w.mem p.id p.params = _
    simp only [createWith]
    rw [if_neg hp.idLength.not_gt]
    rw [show execAll w.db (cleanupRetentionExpired cfg w.db w.clock) = Db.empty from hclean]
    rw [if_neg (by simp [Db.empty]), if_neg (by simp [hlimit])]
  have hdb : (p.start cfg now).world.db = exec Db.empty (.insertInstance p.id row) := by
    show execAll w.db (create cfg w (some p.id) (some p.params)).stmts = _
    rw [hcreate, execAll_append, hclean]
    rfl
  have hmem : (p.start cfg now).world.mem = w.mem.launch p.id p.params now := by
    show (create cfg w (some p.id) (some p.params)).mem = _
    rw [hcreate]
  have hsaved : Saved p (p.start cfg now).invoked (p.start cfg now).world.db 0 := by
    rw [hdb]
    exact ⟨Nat.zero_le _, fun _ _ _ h => absurd h (Nat.not_lt_zero _), fun _ _ => rfl,
      fun _ _ _ h => by cases h⟩
  refine ⟨.runs (p.body p.params) 0 0 rfl (.start p) ?_
    ⟨⟨row, ?_, rfl, rfl, rfl, rfl, rfl, rfl⟩, hsaved⟩ le_rfl, le_rfl⟩
  · rw [hmem]
    exact ⟨rfl, rfl, rfl⟩
  · rw [hdb]
    rfl

/-- What a restart of the process finds is a state of the driver. -/
theorem Resurrected.reached {w : World} (h : Resurrected p now s.invoked w) :
    Reached cfg p now (s.restart p w) := by
  cases h with
  | active j hon hmem =>
    have hrun : w.mem.runs.get? 0 = some ⟨p.id, p.params, now, .running⟩ := by
      rw [hmem]
      rfl
    have hplace : (s.restart p w).place = .runs (p.body p.params) := by
      simp only [Replay.restart, hrun]
    refine .runs (p.body p.params) 0 j hplace (.start p) ⟨hrun, ?_, ?_⟩ hon (Nat.zero_le j)
    · show w.mem.aborted 0 = false
      rw [hmem]
      rfl
    · show w.mem.impls 0 = _
      rw [hmem]
      rfl
  | closed hclosed hmem =>
    have hrun : w.mem.runs.get? 0 = none := by
      rw [hmem]
      rfl
    have hplace : (s.restart p w).place = .idle := by
      simp only [Replay.restart, hrun]
    refine .ended hplace ?_ hclosed
    rw [Replay.ended, hplace]
    simp only [Replay.restart, hrun]
    rfl

namespace Replaying

variable {t : Replay}

/-- The passing of time. -/
theorem tick (h : Replaying cfg p now s) (ms : ℕ) :
    Replaying cfg p now { s with world := { s.world with clock := s.world.clock + ms } } := by
  obtain ⟨hreached, hclock⟩ := h
  have hlater : (now : Millis) ≤ s.world.clock + ms :=
    hclock.trans (Int.le_add_of_nonneg_right (Int.natCast_nonneg ms))
  refine ⟨?_, hlater⟩
  cases hreached with
  | runs b i j hplace hat hexec hon hij => exact .runs b i j hplace hat hexec hon hij
  | entered k node next i j hplace hat hexec hcall hon hij =>
    exact .entered k node next i j hplace hat hexec hcall hon hij
  | trying k name config callback next i plan attempt due hplace hat hexec hcall hon hplan
      hstarted hattempt =>
      exact .trying k name config callback next i plan attempt due hplace hat hexec hcall hon
        hplan hstarted hattempt
  | delaying k name config callback next i plan attempt due hplace hat hexec hcall hon hplan
      hattempt =>
      exact .delaying k name config callback next i plan attempt due hplace hat hexec hcall hon
        hplan hattempt
  | sleeping k node next i j due hplace hat hexec hcall hresult hon hij =>
    exact .sleeping k node next i j due hplace hat hexec hcall hresult hon hij
  | settled hplace hrun hlive hon => exact .settled hplace hrun hlive hon
  | ended hplace hended hclosed => exact .ended hplace hended hclosed

/-- The next segment of a driver that has one is good. -/
theorem good (h : Replaying cfg p now s) (hp : p.Admissible cfg now) {o : Op}
    (ho : s.op? = some o) (hg : segment cfg s.world o = some g) : Good cfg p now s g := by
  cases hend : s.ended with
  | true =>
    obtain ⟨o', ho', hnone⟩ := Replay.segment_of_ended cfg hend
    obtain rfl := Option.some.inj (ho.symm.trans ho')
    rw [hg] at hnone
    cases hnone
  | false =>
    obtain ⟨o', ho', hgood, -⟩ := h.reached.proceed hp h.clock hend
    obtain rfl := Option.some.inj (ho.symm.trans ho')
    exact hgood g hg

/-- A stop of the process at a checkpoint. -/
theorem restart (h : Replaying cfg p now s) {db : Db} (hkept : Kept p now s.invoked db)
    (again : List ℕ) :
    Replaying cfg p now (s.restart p (World.resumeAfter { s.world with db := db } again)) := by
  obtain ⟨hback, hclock⟩ := Kept.resumeAfter (w := { s.world with db := db }) hkept again
  refine ⟨hback.reached, ?_⟩
  show _ ≤ (World.resumeAfter _ again).clock
  rw [hclock]
  exact h.clock

/-- **Every step of the driver keeps the invariant**, stops of the process included. -/
theorem drive {a : Drive} (h : Replaying cfg p now s) (hp : p.Admissible cfg now)
    (hstep : drive cfg p s a = some t) : Replaying cfg p now t := by
  cases a with
  | proceed =>
    obtain ⟨o, ho, hstep⟩ := Option.bind_eq_some_iff.mp hstep
    obtain ⟨g, hg, rfl⟩ := Option.map_eq_some_iff.mp hstep
    exact ⟨(h.good hp ho hg).reached, h.clock⟩
  | tick ms =>
    obtain rfl := Option.some.inj hstep
    exact h.tick ms
  | crashIn n again =>
    obtain ⟨o, ho, hstep⟩ := Option.bind_eq_some_iff.mp hstep
    obtain ⟨w, hw, rfl⟩ := Option.map_eq_some_iff.mp hstep
    obtain ⟨g, hg, rfl⟩ := Option.map_eq_some_iff.mp hw
    exact h.restart ((h.good hp ho hg).keeps.take n) again
  | crash again =>
    obtain rfl := Option.some.inj hstep
    exact h.restart h.reached.kept again

/-- After the wait nothing is left to wait for. -/
theorem wait_tick (s : Replay) :
    Replay.wait { s with world := { s.world with clock := s.world.clock + s.wait } } = 0 := by
  cases hplace : s.place with
  | runs b => simp only [Replay.wait]
  | idle => simp only [Replay.wait]
  | awaits k b =>
    cases hdue : (s.world.mem.calls.get? k).bind fun x => x.susp.due? with
    | none => simp only [Replay.wait, hplace, hdue, Option.map_none, Option.getD_none]
    | some due =>
      simp only [Replay.wait, hplace, hdue, Option.map_some, Option.getD_some]
      have hle : due - s.world.clock ≤ (due - s.world.clock).toNat := Int.self_le_toNat _
      exact Int.toNat_eq_zero.mpr (Int.sub_nonpos_of_le (Int.le_add_of_sub_left_le hle))

/-- An undisturbed process keeps going until the end. -/
theorem advance (h : Replaying cfg p now s) (hp : p.Admissible cfg now)
    (hend : s.ended = false) :
    Replaying cfg p now (advance cfg p s) ∧ (advance cfg p s).work < s.work := by
  let s' : Replay := { s with world := { s.world with clock := s.world.clock + s.wait } }
  have hwait : s'.wait = 0 := wait_tick s
  have hready := (h.tick s.wait).reached.proceed hp (h.tick s.wait).clock hend
  obtain ⟨o, ho, hgood, henabled⟩ := hready
  obtain ⟨g, hg⟩ := Option.isSome_iff_exists.mp (henabled hwait)
  have hstep : Workflow.advance cfg p s = s'.after g := by
    show ((s'.op?.bind fun o => (segment cfg s'.world o).map s'.after)).getD s = _
    rw [show s'.op? = some o from ho]
    simp only [Option.bind_some, show segment cfg s'.world o = some g from hg]
    rfl
  rw [hstep]
  have hnext := hgood g hg
  exact ⟨⟨hnext.reached, (h.tick s.wait).clock⟩, hnext.lower⟩

/-- An undisturbed process comes to the end. -/
theorem ends (h : Replaying cfg p now s) (hp : p.Admissible cfg now) :
    ∃ n, ((Workflow.advance cfg p)^[n] s).ended = true := by
  induction hwork : s.work using Nat.strong_induction_on generalizing s with
  | _ work ih =>
    cases hend : s.ended with
    | true => exact ⟨0, hend⟩
    | false =>
      obtain ⟨hnext, hlower⟩ := h.advance hp hend
      obtain ⟨n, hn⟩ := ih _ (hwork ▸ hlower) hnext rfl
      exact ⟨n + 1, hn⟩

/-- At the end the instance is closed. -/
theorem closed (h : Replaying cfg p now s) (hend : s.ended = true) :
    Closed p s.invoked s.world.db := by
  have hover : ∀ {r : Run}, s.world.mem.runs.get? 0 = some r → r.phase.unended = false := by
    intro r hr
    simp only [Replay.ended] at hend
    split at hend
    · simpa [hr] using hend
    · cases hend
  cases h.reached with
  | runs b i j _ _ hexec => cases hover hexec.run
  | entered k node next i j _ _ hexec => cases hover hexec.run
  | trying k name config callback next i plan attempt due _ _ hexec =>
    cases hover hexec.run
  | delaying k name config callback next i plan attempt due _ _ hexec =>
    cases hover hexec.run
  | sleeping k node next i j due _ _ hexec => cases hover hexec.run
  | settled _ hrun => cases hover hrun
  | ended _ _ hclosed => exact hclosed

end Replaying

/-! ### What the instance leaves behind -/

/-- What a step records, without the wake-up time of a sleep. -/
def StepNode.record : StepNode → Option Recorded
  | .doStep _ _ callback => some (.result callback.value)
  | .sleep _ _ => some (.until 0)
  | .sleepUntil _ timestamp => some (.untilIso timestamp)

/-- What an instance leaves behind, read off its body: the end of `run()`, and the record of
every step the body takes. -/
def Program.summary (p : Program) : Summary where
  status :=
    match p.outcome with
    | .returned (.ok _) => some .complete
    | .returned (.error _) | .threw _ => some .errored
  output :=
    match p.outcome with
    | .returned (.ok output) => output
    | .returned (.error _) | .threw _ => none
  error :=
    match p.outcome with
    | .returned (.ok _) => some (none, none)
    | .returned (.error err) | .threw err => some (some err.message, some err.name)
  steps := fun key => (p.trail.find? fun node => node.key = key).map StepNode.record

/-- A recorded step leaves its record behind. -/
theorem StepNode.Records.untimed {row : StepRow} (h : node.Records row) :
    row.output.map Recorded.untimed = node.record := by
  cases node with
  | doStep name config callback =>
    have hrow : row.output = some (.result callback.value) := h
    rw [hrow]
    rfl
  | sleep name duration =>
    obtain ⟨t, ht⟩ := h
    rw [ht]
    rfl
  | sleepUntil name timestamp =>
    have hrow : row.output = some (.untilIso timestamp) := h
    rw [hrow]
    rfl

/-- **The end is the body's.** An instance that has ended has left behind what its body
says. -/
theorem Closed.summary {invoked : String → ℕ} {db : Db} (h : Closed p invoked db) :
    db.summary p.id = p.summary := by
  obtain ⟨⟨row, hrow, hcloses⟩, hsaved⟩ := h
  have hsteps : ∀ key, (db.steps.get? (p.id, key)).map
      (fun row => row.output.map Recorded.untimed) =
        (p.trail.find? fun node => node.key = key).map StepNode.record := by
    intro key
    cases hfind : p.trail.find? fun node => node.key = key with
    | none =>
      have hnone : db.steps.get? (p.id, key) = none := by
        refine hsaved.rest key ?_
        intro i node hnode _ hkey
        have := List.find?_eq_none.mp hfind node (List.mem_of_getElem? hnode)
        simp [hkey] at this
      rw [hnone]
      rfl
    | some node =>
      have hkey : node.key = key := by simpa using List.find?_some hfind
      obtain ⟨i, hi⟩ := List.getElem?_of_mem (List.mem_of_find?_eq_some hfind)
      obtain ⟨hlt, -⟩ := List.getElem?_eq_some_iff.mp hi
      obtain ⟨row, hget, hrecords⟩ := hsaved.done i node hi hlt
      rw [hkey] at hget
      rw [hget, Option.map_some, hrecords.untimed]
      rfl
  have hsteps' : (db.summary p.id).steps = p.summary.steps := funext hsteps
  have hrest : (db.summary p.id).status = p.summary.status ∧
      (db.summary p.id).output = p.summary.output ∧
      (db.summary p.id).error = p.summary.error := by
    simp only [Db.summary, Program.summary, hrow.status, hrow.get?, Option.bind_some,
      Option.map_some]
    rcases houtcome : p.outcome with (err | output) | err <;> rw [houtcome] at hcloses <;>
      obtain ⟨hstatus, houtput, herror, hname⟩ := hcloses <;>
      simp [hstatus, houtput, herror, hname]
  obtain ⟨hstatus, houtput, herror⟩ := hrest
  calc db.summary p.id
      = ⟨(db.summary p.id).status, (db.summary p.id).output, (db.summary p.id).error,
          (db.summary p.id).steps⟩ := rfl
    _ = p.summary := by rw [hstatus, houtput, herror, hsteps']

/-! ### The results -/

/-- **Crash transparency.** Whatever stops a run of an admissible program has met, an
undisturbed process brings it to its end; there the instance has the status, the output, the
error and the recorded step results of every run without stops, which are those its body says;
and no step of the driver starts a callback whose result is recorded. -/
theorem crashTransparent (hp : p.Admissible cfg now)
    (h : Reaches (drive cfg p) unguarded (p.start cfg now) s) :
    (∃ n, ((advance cfg p)^[n] s).ended = true) ∧
    (s.ended = true → s.world.db.summary p.id = p.summary ∧
      ∀ t, Reaches (drive cfg p) (fun _ a => a.crashFree = true) (p.start cfg now) t →
        t.ended = true → s.world.db.summary p.id = t.world.db.summary p.id) ∧
    ∀ a t name, drive cfg p s a = some t → t.invoked name ≠ s.invoked name →
      s.world.db.steps.get? (p.id, name) = none := by
  have hinv : ∀ {ok : Replay → Drive → Prop} {t : Replay},
      Reaches (drive cfg p) ok (p.start cfg now) t → Replaying cfg p now t := by
    intro ok t ht
    exact ht.invariant (.start hp) fun _ _ _ hI _ hstep => hI.drive hp hstep
  have hs := hinv h
  refine ⟨hs.ends hp, ?_, ?_⟩
  · intro hend
    refine ⟨(hs.closed hend).summary, ?_⟩
    intro t ht htend
    rw [(hs.closed hend).summary, ((hinv ht).closed htend).summary]
  · intro a t name hstep hne
    cases a with
    | proceed =>
        obtain ⟨o, ho, hstep⟩ := Option.bind_eq_some_iff.mp hstep
        obtain ⟨g, hg, rfl⟩ := Option.map_eq_some_iff.mp hstep
        refine (hs.good hp ho hg).once name ?_
        by_contra hstarted
        simp [Replay.after, hstarted] at hne
    | tick ms =>
        obtain rfl := Option.some.inj hstep
        exact absurd rfl hne
    | crashIn n again =>
        obtain ⟨o, ho, hstep⟩ := Option.bind_eq_some_iff.mp hstep
        obtain ⟨w, hw, rfl⟩ := Option.map_eq_some_iff.mp hstep
        exact absurd rfl hne
    | crash again =>
        obtain rfl := Option.some.inj hstep
        exact absurd rfl hne

/-- A callback whose first invocation fails. -/
def Callback.secondTry : Callback where
  value := "1"
  invoke := fun n => if n = 0 then .threw ⟨"Error", "busy"⟩ else .returned (some "1")
  failing := {0}
  returns := by
    intro n hn
    rw [Finset.mem_singleton] at hn
    rw [if_neg hn]
  fails := by
    intro n hn
    rw [Finset.mem_singleton.mp hn]
    rfl

/-- A body that loads a value, sleeps, and returns it. -/
def Program.loadAndSleep : Program where
  id := "a"
  params := "\x7b\x7d"
  body := fun _ =>
    .step (.doStep "load" {} .secondTry) fun v =>
      .step (.sleep "pause" (.ms 1000)) fun _ => .ret (.returned (.ok v))

theorem admissible_loadAndSleep : Program.loadAndSleep.Admissible .defaults 0 where
  idLength := by decide
  started := nofun
  succeeds := by
    have hload : (StepNode.doStep "load" {} .secondTry).Succeeds .defaults ((0 : ℕ) : Millis) :=
      ⟨by decide, by decide, _, rfl, by decide⟩
    have hsleep : (StepNode.sleep "pause" (.ms 1000)).Succeeds .defaults ((0 : ℕ) : Millis) := by
      refine ⟨⟨1000, rfl, by decide⟩, ?_⟩
      intro t
      have hnumber : numberLength t ≤ 24 := Nat.min_le_right _ _
      have htext : jsLength "\x7b\"until\":\x7d" = 10 := by decide
      show jsLength "\x7b\"until\":\x7d" + numberLength t ≤ 1024 * 1024
      omega
    intro node hnode
    rcases List.mem_cons.mp hnode with rfl | hnode
    · exact hload
    · obtain rfl := List.mem_singleton.mp hnode
      exact hsleep
  few := by decide
  distinct := by decide

/-- A stop after the first failed attempt, and one between the record of the result and the
removal of the attempts. -/
theorem crashTransparent_loadAndSleep :
    ∃ s, Reaches (drive .defaults .loadAndSleep) unguarded
        (Program.loadAndSleep.start .defaults 0) s ∧
      s.ended = true ∧ s.invoked "load" = 2 ∧
      s.world.db.summary "a" = Program.loadAndSleep.summary := by
  have hrun : (play (restrict (drive .defaults .loadAndSleep) unguarded)
      (Program.loadAndSleep.start .defaults 0)
      [.proceed, .proceed, .proceed, .crash [], .proceed, .proceed, .crashIn 1 [0],
        .proceed, .proceed, .proceed, .proceed, .tick 1000, .proceed, .proceed, .proceed]).any
      (fun s => s.ended = true ∧ s.invoked "load" = 2) = true := by
    decide
  obtain ⟨s, hreach, hs⟩ := exists_reaches_of_play hrun
  obtain ⟨hend, hinvoked⟩ := of_decide_eq_true hs
  obtain ⟨-, hsummary, -⟩ := crashTransparent admissible_loadAndSleep hreach
  exact ⟨s, hreach, hend, hinvoked, (hsummary hend).1⟩

end Lopata.Workflow
