import Lopata.Lib.Log
import Lopata.Lib.Machine
import Lopata.Lib.Table
import Lopata.Lib.Text
import Mathlib.Data.Int.Notation

/-!
# The Generation Manager

`GenerationManager` of `generation-manager.ts` with the states of its generations. The
synchronous pieces of its methods are functions on `Manager`: what `_doReload` does once the new
worker is ready, the continuation of `_scheduleDrainAndStop`, the timer that forgets a stopped
generation, and the calls of the dashboard. What a generation is busy with is not part of the
state; whether `isIdle()` holds when it is asked is chosen by the environment.

The calls that reach the workers, `Generation.stop` and `resumeInterrupted`, are kept in a log.

## Main definitions

* `Manager`, `Action`, `step`: the machine.
* `doReload`, `finish`, `stopGeneration`, `resumeWorkflows`: the pieces of the methods.
-/

namespace Lopata.Generations

/-! ### Generations -/

/-- `GenerationState`. -/
inductive GenerationState
  | active
  | draining
  | stopped
  deriving DecidableEq, Repr

/-- `Generation`, as far as its manager is concerned. -/
structure Generation where
  state : GenerationState := .active
  createdAt : ℤ
  deriving DecidableEq, Repr

namespace Generation

/-- `drain`. -/
def drain (g : Generation) : Generation :=
  if g.state = .stopped then g else { g with state := .draining }

/-- `stop`. -/
def stop (g : Generation) : Generation :=
  if g.state = .stopped then g else { g.drain with state := .stopped }

@[simp] theorem state_stop (g : Generation) : g.stop.state = .stopped := by
  simp only [stop]
  split <;> simp_all

theorem state_drain_eq_stopped {g : Generation} :
    g.drain.state = .stopped ↔ g.state = .stopped := by
  simp only [drain]
  split <;> simp_all

end Generation

/-! ### Cron expressions -/

/-- `toLowerCase` of the characters whose lower case is in ASCII. -/
def lower (c : Char) : Char :=
  if c.toNat = 8490 then 'k' else c.toLower

/-- The keys of `SPECIAL_CRONS`. -/
def specialCrons : List String :=
  ["@daily", "@midnight", "@hourly", "@weekly", "@monthly", "@yearly", "@annually"]

/-- `parseCron`, without the fields it parses: they never fail. -/
def parseCron (expression : String) : Except String Unit :=
  let trimmed := ((expression.toList.dropWhile isSpace).reverse.dropWhile isSpace).reverse
  let parts := (trimmed.splitOnP isSpace).filter fun part => part ≠ []
  if String.ofList (trimmed.map lower) ∈ specialCrons then .ok ()
  else if parts.length = 5 then .ok ()
  else .error s!"Invalid cron expression: \"{expression}\" (expected 5 fields)"

/-! ### The manager -/

/-- What a manager is built for. -/
structure Worker where
  /-- It has a script: `workerPath !== null`. -/
  script : Bool := true
  /-- The length of `registry.workflows`. -/
  workflows : ℕ
  cronEnabled : Bool := false
  /-- `config.triggers.crons`. -/
  crons : List String := []
  deriving DecidableEq, Repr

/-- `startConsumers`: the cron timer is started, if all expressions can be parsed. -/
def Worker.startConsumers (w : Worker) : Except String Unit :=
  if w.cronEnabled && w.script then w.crons.forM parseCron else .ok ()

/-- A call that reaches the worker of a generation. -/
inductive Event
  /-- `Generation.stop`: the worker is disposed. -/
  | stopped (id : ℕ)
  /-- The workflow bindings are told to resume interrupted instances. -/
  | resumed (id : ℕ)
  deriving DecidableEq, Repr

/-- `GenerationManager`. -/
structure Manager where
  generations : Table ℕ Generation
  nextGenId : ℕ
  activeGenId : Option ℕ
  resumedGenIds : List ℕ
  /-- The generations whose drain-and-stop continuation has not run yet. -/
  continuations : List ℕ
  /-- The generations whose 60 s timer has not fired yet. -/
  removals : List ℕ
  /-- The calls that reached the workers, newest first. -/
  log : List Event

namespace Manager

variable (m : Manager) (w : Worker)

/-- A new manager. -/
def start : Manager :=
  ⟨.empty, 1, none, [], [], [], []⟩

/-- `active`, by its id. -/
def active : Option ℕ :=
  m.activeGenId.filter fun id => (m.generations.get? id).isSome

/-- `_resumeWorkflows`. -/
def resumeWorkflows (id : ℕ) : Manager :=
  if w.workflows = 0 then m
  else if id ∈ m.resumedGenIds then m
  else { m with resumedGenIds := id :: m.resumedGenIds, log := .resumed id :: m.log }

/-- `_stopGeneration`. -/
def stopGeneration (genId : ℕ) : Manager :=
  match m.generations.get? genId with
  | none => m
  | some gen =>
      if gen.state = .stopped then m
      else
        { m with
          generations := m.generations.modify genId Generation.stop
          removals := genId :: m.removals
          log := .stopped genId :: m.log }

/-- `drain` of a generation that the manager knows. -/
def drain (genId : ℕ) : Manager :=
  { m with generations := m.generations.modify genId Generation.drain }

/-- A generation before `id` is not stopped. -/
def olderRunning (id : ℕ) : Bool :=
  m.generations.rows.any fun p => p.1 < id && p.2.state ≠ .stopped

/-- `finish` of `_scheduleDrainAndStop`. -/
def finish (genId : ℕ) : Manager :=
  let m := m.stopGeneration genId
  match m.active with
  | none => m
  | some active => if m.olderRunning active then m else m.resumeWorkflows w active

/-- `_scheduleDrainAndStop`; `idle` is what `isIdle()` returns. -/
def scheduleDrainAndStop (genId : ℕ) (idle : Bool) : Manager :=
  if idle then m.finish w genId else { m with continuations := genId :: m.continuations }

/-- The previous generation is drained, and stopped now or later. -/
def drainPrevious (idle : Bool) : Manager :=
  match m.activeGenId with
  | none => m
  | some oldGenId =>
      match m.generations.get? oldGenId with
      | none => m
      | some oldGen =>
          if oldGen.state = .active then (m.drain oldGenId).scheduleDrainAndStop w oldGenId idle
          else m

/-- A new generation in the map. -/
def create (now : ℤ) : Manager :=
  { m with
    nextGenId := m.nextGenId + 1
    generations := m.generations.insert m.nextGenId { createdAt := now } }

/-- `_doReload` from the creation of the generation on, with its outcome. -/
def doReload (idle : Bool) (now : ℤ) : Manager × Except String ℕ :=
  let genId := m.nextGenId
  let activated := { (m.create now).drainPrevious w idle with activeGenId := some genId }
  if w.script then
    match w.startConsumers with
    | .error e => (activated, .error e)
    | .ok () =>
        (if m.activeGenId = none then activated.resumeWorkflows w genId else activated, .ok genId)
  else (activated, .ok genId)

/-- The 60 s timer of a stopped generation. -/
def remove (genId : ℕ) : Manager :=
  { m with
    generations := m.generations.erase genId
    resumedGenIds := m.resumedGenIds.filter (· ≠ genId)
    removals := m.removals.erase genId }

/-- The draining generations. -/
def draining : List (ℕ × Generation) :=
  m.generations.rows.filter fun p => p.2.state = .draining

/-- `gens.reduce((a, b) => a.createdAt < b.createdAt ? a : b)`. -/
def oldest (gen : ℕ × Generation) (gens : List (ℕ × Generation)) : ℕ × Generation :=
  gens.foldl (fun a b => if a.2.createdAt < b.2.createdAt then a else b) gen

/-- The request `generations.drain` of the dashboard; without draining generations it throws. -/
def drainRequest : Manager :=
  match m.draining with
  | [] => m
  | gen :: gens => m.stopGeneration (oldest gen gens).1

/-! ### What the pieces leave alone -/

@[simp] theorem activeGenId_resumeWorkflows (id : ℕ) :
    (m.resumeWorkflows w id).activeGenId = m.activeGenId := by
  simp only [resumeWorkflows]
  split
  · rfl
  · split <;> rfl

@[simp] theorem nextGenId_resumeWorkflows (id : ℕ) :
    (m.resumeWorkflows w id).nextGenId = m.nextGenId := by
  simp only [resumeWorkflows]
  split
  · rfl
  · split <;> rfl

@[simp] theorem generations_resumeWorkflows (id : ℕ) :
    (m.resumeWorkflows w id).generations = m.generations := by
  simp only [resumeWorkflows]
  split
  · rfl
  · split <;> rfl

@[simp] theorem continuations_resumeWorkflows (id : ℕ) :
    (m.resumeWorkflows w id).continuations = m.continuations := by
  simp only [resumeWorkflows]
  split
  · rfl
  · split <;> rfl

@[simp] theorem activeGenId_stopGeneration (genId : ℕ) :
    (m.stopGeneration genId).activeGenId = m.activeGenId := by
  simp only [stopGeneration]
  split
  · rfl
  · split <;> rfl

@[simp] theorem nextGenId_stopGeneration (genId : ℕ) :
    (m.stopGeneration genId).nextGenId = m.nextGenId := by
  simp only [stopGeneration]
  split
  · rfl
  · split <;> rfl

@[simp] theorem continuations_stopGeneration (genId : ℕ) :
    (m.stopGeneration genId).continuations = m.continuations := by
  simp only [stopGeneration]
  split
  · rfl
  · split <;> rfl

/-- The generations after a stop: the one stopped, if it is known, and the others. -/
theorem get?_stopGeneration (genId id : ℕ) :
    (m.stopGeneration genId).generations.get? id =
      if id = genId then (m.generations.get? id).map Generation.stop
      else m.generations.get? id := by
  simp only [stopGeneration]
  split
  · next hnone =>
      split
      · next heq => rw [heq, hnone, Option.map_none]
      · rfl
  · next gen hgen =>
      split
      · next hstopped =>
          split
          · next heq => rw [heq, hgen, Option.map_some, Generation.stop, if_pos hstopped]
          · rfl
      · exact Table.get?_modify ..

theorem get?_drain (genId id : ℕ) :
    (m.drain genId).generations.get? id =
      if id = genId then (m.generations.get? id).map Generation.drain
      else m.generations.get? id :=
  Table.get?_modify ..

theorem get?_create (now : ℤ) (id : ℕ) :
    (m.create now).generations.get? id =
      if id = m.nextGenId then some { createdAt := now } else m.generations.get? id :=
  Table.get?_insert ..

@[simp] theorem resumedGenIds_stopGeneration (genId : ℕ) :
    (m.stopGeneration genId).resumedGenIds = m.resumedGenIds := by
  simp only [stopGeneration]
  split
  · rfl
  · split <;> rfl

/-- What a stop adds to the log. -/
theorem log_stopGeneration (genId : ℕ) :
    (m.stopGeneration genId).log = m.log ∨
      (m.stopGeneration genId).log = .stopped genId :: m.log := by
  simp only [stopGeneration]
  split
  · exact .inl rfl
  · split
    · exact .inl rfl
    · exact .inr rfl

/-- What a resume adds to the log. -/
theorem log_resumeWorkflows (id : ℕ) :
    (m.resumeWorkflows w id).log = m.log ∨
      (m.resumeWorkflows w id).log = .resumed id :: m.log := by
  simp only [resumeWorkflows]
  split
  · exact .inl rfl
  · split
    · exact .inl rfl
    · exact .inr rfl

variable {m} in
theorem active_eq_some {a : ℕ} :
    m.active = some a ↔ m.activeGenId = some a ∧ (m.generations.get? a).isSome := by
  simp [active, Option.filter_eq_some_iff]

/-- The two outcomes of `finish`. -/
theorem finish_cases (genId : ℕ) :
    m.finish w genId = m.stopGeneration genId ∨
      ∃ a, (m.stopGeneration genId).active = some a ∧
        (m.stopGeneration genId).olderRunning a = false ∧
          m.finish w genId = (m.stopGeneration genId).resumeWorkflows w a := by
  rw [finish]
  cases hactive : (m.stopGeneration genId).active with
  | none => exact .inl rfl
  | some a =>
    cases holder : (m.stopGeneration genId).olderRunning a with
    | true => exact .inl (if_pos holder)
    | false => exact .inr ⟨a, rfl, holder, if_neg (by simp [holder])⟩

/-- A continuation that finds no older generation running resumes the active one. -/
theorem finish_of_active {genId a : ℕ} (hactive : (m.stopGeneration genId).active = some a)
    (holder : (m.stopGeneration genId).olderRunning a = false) :
    m.finish w genId = (m.stopGeneration genId).resumeWorkflows w a := by
  simp [finish, hactive, holder]

@[simp] theorem generations_finish (genId : ℕ) :
    (m.finish w genId).generations = (m.stopGeneration genId).generations := by
  rcases m.finish_cases w genId with h | ⟨a, -, -, h⟩ <;> simp [h]

/-- The only generation that `finish` resumes is the active one. -/
theorem of_resumed_mem_finish {genId id : ℕ} (h : .resumed id ∈ (m.finish w genId).log) :
    .resumed id ∈ m.log ∨ m.activeGenId = some id := by
  have hstop : .resumed id ∈ (m.stopGeneration genId).log → .resumed id ∈ m.log := by
    intro hmem
    rcases m.log_stopGeneration genId with heq | heq
    · exact heq ▸ hmem
    · rw [heq] at hmem
      exact (List.mem_cons.mp hmem).resolve_left nofun
  rcases m.finish_cases w genId with heq | ⟨a, hactive, -, heq⟩
  · exact .inl (hstop (heq ▸ h))
  · rw [heq] at h
    rcases (m.stopGeneration genId).log_resumeWorkflows w a with hlog | hlog
    · exact .inl (hstop (hlog ▸ h))
    · rw [hlog] at h
      rcases List.mem_cons.mp h with hnew | hmem
      · obtain rfl := Event.resumed.inj hnew
        exact .inr ((m.activeGenId_stopGeneration genId).symm.trans (active_eq_some.mp hactive).1)
      · exact .inl (hstop hmem)

@[simp] theorem activeGenId_finish (genId : ℕ) :
    (m.finish w genId).activeGenId = m.activeGenId := by
  rcases m.finish_cases w genId with h | ⟨a, -, -, h⟩ <;> simp [h]

@[simp] theorem nextGenId_finish (genId : ℕ) : (m.finish w genId).nextGenId = m.nextGenId := by
  rcases m.finish_cases w genId with h | ⟨a, -, -, h⟩ <;> simp [h]

@[simp] theorem continuations_finish (genId : ℕ) :
    (m.finish w genId).continuations = m.continuations := by
  rcases m.finish_cases w genId with h | ⟨a, -, -, h⟩ <;> simp [h]

/-- An active generation is drained, and stopped now or later. -/
theorem drainPrevious_of_active {old : ℕ} {gen : Generation} (idle : Bool)
    (hactive : m.activeGenId = some old) (hgen : m.generations.get? old = some gen)
    (hstate : gen.state = .active) :
    m.drainPrevious w idle = (m.drain old).scheduleDrainAndStop w old idle := by
  simp only [drainPrevious, hactive, hgen, hstate, if_true]

/-- The first reload resumes its own generation, if it gets that far. -/
theorem doReload_of_none (idle : Bool) (now : ℤ) (h : m.activeGenId = none) :
    (m.doReload w idle now).1 =
      if w.script = true ∧ w.startConsumers = .ok () then
        ({ m.create now with activeGenId := some m.nextGenId } : Manager).resumeWorkflows w
          m.nextGenId
      else { m.create now with activeGenId := some m.nextGenId } := by
  have hcreated : (m.create now).drainPrevious w idle = m.create now := by
    have hactive : (m.create now).activeGenId = none := h
    rw [drainPrevious, hactive]
  simp only [doReload, hcreated, if_pos h]
  split
  · next hscript =>
      split
      · next e he => simp [he]
      · next hok => simp [hscript, hok]
  · next hscript => simp [hscript]

/-- A reload of a manager with an active generation resumes nothing itself. -/
theorem doReload_of_active (idle : Bool) (now : ℤ) (h : m.activeGenId ≠ none) :
    (m.doReload w idle now).1 =
      { (m.create now).drainPrevious w idle with activeGenId := some m.nextGenId } := by
  simp only [doReload, if_neg h]
  split
  · split <;> rfl
  · rfl

@[simp] theorem activeGenId_doReload (idle : Bool) (now : ℤ) :
    (m.doReload w idle now).1.activeGenId = some m.nextGenId := by
  simp only [doReload]
  split
  · split
    · rfl
    · show (if m.activeGenId = none then _ else _ : Manager).activeGenId = _
      split
      · exact activeGenId_resumeWorkflows ..
      · rfl
  · rfl

end Manager

/-- One step, with what its environment chose. -/
inductive Action
  /-- `_doReload` fails before it creates a generation. -/
  | reloadFails
  /-- `_doReload` creates a generation. -/
  | reload (idle : Bool) (now : ℤ)
  /-- A drain-and-stop continuation runs: its generation is idle or its grace period is over. -/
  | finish (genId : ℕ)
  /-- A 60 s timer fires. -/
  | remove (genId : ℕ)
  /-- `generations.drain`. -/
  | drainRequest
  /-- `stop`, by anybody. -/
  | stop (genId : ℕ)
  /-- `drain`, by anybody. -/
  | drain (genId : ℕ)
  deriving DecidableEq, Repr

/-- What a step does, `none` if it cannot be taken. -/
def step (w : Worker) (m : Manager) : Action → Option Manager
  | .reloadFails => some m
  | .reload idle now => some (m.doReload w idle now).1
  | .finish genId =>
      if genId ∈ m.continuations then
        some ({ m with continuations := m.continuations.erase genId }.finish w genId)
      else none
  | .remove genId => if genId ∈ m.removals then some (m.remove genId) else none
  | .drainRequest => some m.drainRequest
  | .stop genId => some (m.stopGeneration genId)
  | .drain genId => some (m.drain genId)

end Lopata.Generations
