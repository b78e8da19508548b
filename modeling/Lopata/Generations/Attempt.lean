import Lopata.Generations.Manager
import Mathlib.Data.Finset.Lattice.Lemmas
import Mathlib.Logic.Function.Basic
import Mathlib.Order.Monotone.Defs

/-!
# Attempts to Reload

Before a reload has a worker that is ready, it has built an environment on the Durable Object
namespaces of the generations before, made new namespaces for the classes that had none, and
started a thread. The namespaces are wired only after that. While the worker loads, the generations
before go on, with their requests, timers and alarms.

## Main definitions

* `DONamespace`, `buildEnv`: the namespaces of the main thread, and what is built on them.
* `Host`, `Host.step`: the manager with its namespaces, and a reload in two pieces.

## Main results

* `allocates_load`: all that an attempt does to the namespaces is to make new ones.
* `Unchanged.step`: what others do while a worker loads, they do as without it.
* `reload_unchanged`: an attempt that fails leaves everything as it would be without it.
-/

namespace Lopata.Generations

/-! ### Namespaces -/

/-- An entry of `registry.durableObjects`, with its namespace by number. -/
structure DurableObjectEntry where
  bindingName : String
  className : String
  ref : ℕ

/-- What a worker is given: variables, and the bindings of Durable Objects. -/
structure MainEnv where
  vars : List (String × String) := []
  durableObjects : List DurableObjectEntry := []

/-- What the executor factory is configured with. -/
structure Paths where
  modulePath : String
  configPath : String

/-- An executor, with what it was created with and what it says about itself. -/
structure DOExecutor where
  env : MainEnv
  paths : Option Paths
  isActive : Bool := false
  isAborted : Bool := false
  isBlocked : Bool := false
  isDisposed : Bool := false
  activeWebSocketCount : ℕ := 0

/-- `DurableObjectNamespaceImpl`. -/
structure DONamespace where
  externalClassName : Option String := none
  externalAlarmHandler : Option Bool := none
  env : MainEnv := {}
  generationId : Option ℕ := none
  executors : Table String DOExecutor := .empty
  alarmTimers : Finset String := ∅
  evictionTimer : Bool := true

namespace DONamespace

variable (ns : DONamespace)

def isWired : Bool := ns.externalClassName.isSome

/-- `_setExternalClass`; the alarms are those the database has for the namespace. -/
def setExternalClass (className : String) (env : MainEnv) (generationId : ℕ)
    (alarms : Finset String) : DONamespace :=
  { ns with
    executors := .empty
    externalClassName := some className
    externalAlarmHandler := none
    env
    generationId := some generationId
    alarmTimers := ns.alarmTimers ∪ alarms }

def setAlarmHandlerHint (value : Bool) : DONamespace :=
  { ns with externalAlarmHandler := some value }

def clearAlarmTimers : DONamespace :=
  { ns with alarmTimers := ∅ }

def destroy (force : Bool) : DONamespace :=
  let executors := ns.executors.filter fun _ executor =>
    !(force || executor.activeWebSocketCount = 0)
  { ns.clearAlarmTimers with
    executors
    evictionTimer := !force && !executors.rows.isEmpty }

def createExecutor (paths : Option Paths) (id : String) : DONamespace :=
  if ns.isWired then { ns with executors := ns.executors.insert id { env := ns.env, paths } }
  else ns

/-- `_getOrCreateExecutor`: an executor that has been disposed is dropped first. -/
def getOrCreateExecutor (paths : Option Paths) (id : String) : DONamespace :=
  if (ns.executors.get? id).any fun executor => !executor.isDisposed then ns
  else { ns with executors := ns.executors.erase id }.createExecutor paths id

/-- `_evictIdle`; some ids have been idle for the timeout. -/
def evictIdle (idle : List String) : DONamespace :=
  if ns.evictionTimer then
    { ns with
      executors := ns.executors.filter fun id executor =>
        !(executor.isDisposed || executor.isAborted && !executor.isActive ||
          id ∈ idle && !executor.isBlocked && !executor.isActive &&
            executor.activeWebSocketCount = 0) }
  else ns

end DONamespace

/-- What goes on in a namespace: requests, executors and timers. -/
inductive NamespaceActivity
  /-- An executor is asked for. -/
  | access (id : String)
  /-- The state of an executor changes. -/
  | report (id : String) (executor : DOExecutor → DOExecutor)
  | evict (idle : List String)
  /-- An executor sets or deletes its alarm. -/
  | setAlarm (id : String) (set : Bool)
  | fireAlarm (id : String)
  /-- An alarm that was fired has failed. -/
  | retryAlarm (id : String)

def DONamespace.act (ns : DONamespace) (paths : Option Paths) : NamespaceActivity → DONamespace
  | .access id => ns.getOrCreateExecutor paths id
  | .report id change => { ns with executors := ns.executors.modify id change }
  | .evict idle => ns.evictIdle idle
  | .setAlarm id set =>
      if (ns.executors.get? id).isNone then ns
      else if set then { ns with alarmTimers := insert id ns.alarmTimers }
      else { ns with alarmTimers := ns.alarmTimers.erase id }
  | .fireAlarm id =>
      if id ∈ ns.alarmTimers then
        { ns with alarmTimers := ns.alarmTimers.erase id }.getOrCreateExecutor paths id
      else ns
  | .retryAlarm id =>
      if ns.isWired then { ns with alarmTimers := insert id ns.alarmTimers } else ns

/-! ### What is built -/

structure VpcNetwork where
  binding : String
  networkId : Option String := none
  tunnelId : Option String := none

/-- What a manager is built for, with the bindings that are built on namespaces or refused. -/
structure WorkerConfig extends Worker where
  paths : Paths
  vars : List (String × String) := []
  /-- The bindings and their classes. -/
  durableObjects : List (String × String) := []
  /-- The names and classes of the containers. -/
  containers : List (Option String × String) := []
  vpcNetworks : List VpcNetwork := []

/-- How the pieces of an attempt go that do not depend on namespaces: the variables and what the
database is needed for, the bindings between Durable Objects and containers, assets and browser,
the bindings at the end, the wiring of services, and the start of the thread. -/
structure Attempt where
  devVars : Except String (List (String × String)) := .ok []
  bindings : Except String Unit := .ok ()
  assets : Except String Unit := .ok ()
  rest : Except String Unit := .ok ()
  services : Except String Unit := .ok ()
  executor : Except String Unit := .ok ()

/-- A piece of an attempt, which may make namespaces. -/
abbrev Build := ExceptT String (StateM (List DONamespace))

section Build

variable (c : WorkerConfig) (existing : Table String ℕ) (x : Attempt)

/-- The namespace of a class: that of the generations before, or a new one. -/
def namespaceFor (className : String) : Build ℕ :=
  match existing.get? className with
  | some ref => pure ref
  | none => do
      let namespaces ← get
      set (namespaces ++ [({} : DONamespace)])
      pure namespaces.length

def bindDurableObjects : List (String × String) → Build (List DurableObjectEntry)
  | [] => pure []
  | (bindingName, className) :: bindings => do
      let ref ← namespaceFor existing className
      let entries ← bindDurableObjects bindings
      pure ({ bindingName, className, ref } :: entries)

/-- The containers whose class is not bound as a Durable Object. -/
def WorkerConfig.newContainers : List (String × String) :=
  (c.containers.filter fun container => container.2 ∉ c.durableObjects.map Prod.snd).map
    fun (name, className) => (name.getD className, className)

def checkVpcNetwork (vpc : VpcNetwork) : Except String Unit :=
  match vpc.networkId.or vpc.tunnelId with
  | none | some "" =>
      .error s!"VPC Network \"{vpc.binding}\" requires either network_id or tunnel_id"
  | some _ => .ok ()

def buildEnv : Build MainEnv := do
  let devVars ← x.devVars
  let durableObjects ← bindDurableObjects existing c.durableObjects
  x.bindings
  let containers ← bindDurableObjects existing c.newContainers
  x.assets
  (c.vpcNetworks.forM checkVpcNetwork : Except String Unit)
  x.rest
  pure { vars := c.vars ++ devVars, durableObjects := durableObjects ++ containers }

/-- `_doReload` up to the thread it waits for. -/
def load : Build MainEnv := do
  let env ← buildEnv c existing x
  x.services
  if c.script then x.executor
  pure env

end Build

/-! ### The manager and its namespaces -/

/-- What is done to a generation in a step of the manager. -/
inductive Retirement
  | drain (genId : ℕ)
  | stop (genId : ℕ)

/-- The generation is known and has not been stopped. -/
def Manager.isRunning (m : Manager) (genId : ℕ) : Bool :=
  (m.generations.get? genId).any fun gen => gen.state ≠ .stopped

def Manager.retires (m : Manager) : Action → Option Retirement
  | .reloadFails | .remove _ => none
  | .reload idle _ =>
      match m.activeGenId with
      | none => none
      | some oldGenId =>
          if (m.generations.get? oldGenId).any fun gen => gen.state = .active then
            some (if idle then .stop oldGenId else .drain oldGenId)
          else none
  | .finish genId | .stop genId => if m.isRunning genId then some (.stop genId) else none
  | .drain genId => if m.isRunning genId then some (.drain genId) else none
  | .drainRequest =>
      match m.draining with
      | [] => none
      | gen :: gens => some (.stop (Manager.oldest gen gens).1)

/-- A change of some namespaces. -/
def modifyAll (refs : List ℕ) (f : DONamespace → DONamespace) (namespaces : List DONamespace) :
    List DONamespace :=
  refs.foldl (fun namespaces ref => namespaces.modify ref f) namespaces

/-- `GenerationManager`, with the namespaces of its thread. -/
structure Host where
  manager : Manager
  /-- `_doNamespaces`. -/
  doNamespaces : Table String ℕ := .empty
  /-- All namespaces that have been made, by number. -/
  namespaces : List DONamespace := []
  /-- The Durable Objects of the generations. -/
  registries : ℕ → List DurableObjectEntry := fun _ => []
  /-- What the executor factory has been configured with. -/
  paths : Option Paths := none
  /-- What has been built for the worker that loads. -/
  loading : Option MainEnv := none

namespace Host

variable (c : WorkerConfig) (h : Host)

def start : Host where
  manager := .start

/-- The generation that requests are given to. -/
def serving : Option ℕ := h.manager.active

/-- The namespaces of a generation that are not shared. -/
def unshared (genId : ℕ) : List ℕ :=
  ((h.registries genId).map DurableObjectEntry.ref).filter (· ∉ h.doNamespaces.rows.map Prod.snd)

/-- `Generation.drain`, in the namespaces. -/
def drainNamespaces (genId : ℕ) : List DONamespace :=
  modifyAll (h.unshared genId) .clearAlarmTimers h.namespaces

/-- `Generation.stop`, in the namespaces. -/
def stopNamespaces (genId : ℕ) : List DONamespace :=
  modifyAll (h.unshared genId) (fun ns => ns.destroy false) (h.drainNamespaces genId)

def retire : Option Retirement → List DONamespace
  | none => h.namespaces
  | some (.drain genId) => h.drainNamespaces genId
  | some (.stop genId) => h.stopNamespaces genId

/-- A step of the manager. -/
def act (a : Action) : Option Host :=
  (Generations.step c.toWorker h.manager a).map fun manager =>
    { h with manager, namespaces := h.retire (h.manager.retires a) }

/-- `_doReload` up to `ready`, with what has been built or the error. -/
def beginReload (x : Attempt) : Host × Except String MainEnv :=
  let h := if c.script then { h with paths := some c.paths } else h
  let (built, namespaces) := (load c h.doNamespaces x).run h.namespaces
  ({ h with namespaces }, built)

def wireEntry (env : MainEnv) (alarmHandlers : List String) (alarms : String → Finset String)
    (entry : DurableObjectEntry) : Host :=
  { h with
    doNamespaces := h.doNamespaces.insert entry.className entry.ref
    namespaces := h.namespaces.modify entry.ref fun ns =>
      (ns.setExternalClass entry.className env h.manager.nextGenId
        (alarms entry.className)).setAlarmHandlerHint (entry.className ∈ alarmHandlers) }

/-- The namespaces of a generation are shared from now on, and wired to it. -/
def wire (env : MainEnv) (alarmHandlers : List String) (alarms : String → Finset String) : Host :=
  env.durableObjects.foldl (fun h entry => h.wireEntry env alarmHandlers alarms entry) h

/-- The namespaces of classes that are gone are destroyed. -/
def prune (env : MainEnv) : Host :=
  let gone := h.doNamespaces.filter fun className _ =>
    className ∉ env.durableObjects.map DurableObjectEntry.className
  { h with
    doNamespaces := h.doNamespaces.filter fun className _ => (gone.get? className).isNone
    namespaces := modifyAll (gone.rows.map Prod.snd) (fun ns => ns.destroy true) h.namespaces }

/-- `_doReload` from the creation of the generation on. -/
def activate (env : MainEnv) (idle : Bool) (now : ℤ) : Host :=
  let genId := h.manager.nextGenId
  { h with
    manager := (h.manager.doReload c.toWorker idle now).1
    namespaces := h.retire (h.manager.retires (.reload idle now))
    registries := Function.update h.registries genId env.durableObjects
    loading := none }

end Host

/-- One step, with what its environment chose. -/
inductive HostStep
  /-- An attempt to reload begins; without a script it goes on at once. -/
  | reload (x : Attempt) (idle : Bool) (now : ℤ)
  /-- The worker is ready. -/
  | ready (alarmHandlers : List String) (alarms : String → Finset String) (idle : Bool) (now : ℤ)
  /-- The worker cannot be loaded. -/
  | rejected
  /-- A step of the manager that is not a reload. -/
  | action (a : Action)
  | activity (ref : ℕ) (a : NamespaceActivity)

/-- A step of others while a worker loads. -/
def HostStep.isOther : HostStep → Bool
  | .action _ | .activity .. => true
  | _ => false

/-- What a step does, `none` if it cannot be taken. -/
def Host.step (c : WorkerConfig) (h : Host) : HostStep → Option Host
  | .reload x idle now =>
      if h.loading.isSome then none
      else
        match h.beginReload c x with
        | (h, .error _) => some h
        | (h, .ok env) =>
            if c.script then some { h with loading := some env }
            else some (h.activate c env idle now)
  | .ready alarmHandlers alarms idle now =>
      h.loading.map fun env =>
        ((h.wire env alarmHandlers alarms).prune env).activate c env idle now
  | .rejected => if h.loading.isSome then some { h with loading := none } else none
  | .action a =>
      match a with
      | .reload .. | .reloadFails => none
      | a => h.act c a
  | .activity ref a =>
      some { h with namespaces := h.namespaces.modify ref fun ns => ns.act h.paths a }

/-! ### What an attempt does to the namespaces -/

/-- All that is done to the namespaces is to make new ones; what holds of their number is stated
before and behind. -/
def Allocates {α : Type} (pre : ℕ → Prop) (m : Build α) (post : ℕ → α → Prop) : Prop :=
  ∀ namespaces : List DONamespace, pre namespaces.length →
    ∃ n, (m.run namespaces).2 = namespaces ++ List.replicate n ({} : DONamespace) ∧
      ∀ a, (m.run namespaces).1 = .ok a → post (namespaces.length + n) a

section Allocates

variable {α β : Type} {m : Build α} {f : α → Build β} {pre : ℕ → Prop} {mid : ℕ → α → Prop}
  {post : ℕ → β → Prop}

theorem allocates_pure (a : α) : Allocates pre (pure a : Build α) fun k b => pre k ∧ b = a := by
  intro namespaces hpre
  refine ⟨0, (List.append_nil namespaces).symm, fun b hb => ?_⟩
  exact ⟨hpre, (Except.ok.inj hb).symm⟩

theorem allocates_lift (e : Except String α) :
    Allocates pre (liftM e : Build α) fun k _ => pre k := by
  intro namespaces hpre
  exact ⟨0, (List.append_nil namespaces).symm, fun _ _ => hpre⟩

theorem Allocates.bind (hm : Allocates pre m mid)
    (hf : ∀ a, Allocates (fun k => mid k a) (f a) post) : Allocates pre (m >>= f) post := by
  intro namespaces hpre
  obtain ⟨n, hn, hmid⟩ := hm namespaces hpre
  have hrun : (m >>= f).run namespaces =
      ExceptT.bindCont f (m.run namespaces).1 (m.run namespaces).2 := rfl
  rw [hrun, hn]
  cases hout : (m.run namespaces).1 with
  | error e => exact ⟨n, rfl, fun b hb => nomatch hb⟩
  | ok a =>
    have hlength : (namespaces ++ List.replicate n ({} : DONamespace)).length =
        namespaces.length + n := by simp
    obtain ⟨n', hn', hpost⟩ := hf a (namespaces ++ List.replicate n ({} : DONamespace))
      (hlength.symm ▸ hmid a hout)
    refine ⟨n + n', ?_, fun b hb => ?_⟩
    · rw [List.replicate_add, ← List.append_assoc]
      exact hn'
    · rw [← Nat.add_assoc, ← hlength]
      exact hpost b hb

theorem Allocates.weaken {post' : ℕ → α → Prop} (hm : Allocates pre m mid)
    (h : ∀ k a, mid k a → post' k a) : Allocates pre m post' := by
  intro namespaces hpre
  obtain ⟨n, hn, hmid⟩ := hm namespaces hpre
  exact ⟨n, hn, fun a ha => h _ a (hmid a ha)⟩

variable {existing : Table String ℕ}

theorem allocates_namespaceFor (hmono : Monotone pre)
    (hexisting : ∀ k, pre k → ∀ className ref, existing.get? className = some ref → ref < k)
    (className : String) :
    Allocates pre (namespaceFor existing className) fun k ref => pre k ∧ ref < k := by
  intro namespaces hpre
  rw [namespaceFor]
  split
  · next ref href =>
      refine ⟨0, (List.append_nil namespaces).symm, fun a ha => ?_⟩
      obtain rfl := Except.ok.inj ha
      exact ⟨hpre, hexisting _ hpre _ _ href⟩
  · refine ⟨1, rfl, fun a ha => ?_⟩
    obtain rfl := Except.ok.inj ha
    exact ⟨hmono (Nat.le_add_right ..) hpre, Nat.lt_succ_self _⟩

theorem allocates_bindDurableObjects {bindings : List (String × String)} (hmono : Monotone pre)
    (hexisting : ∀ k, pre k → ∀ className ref, existing.get? className = some ref → ref < k) :
    Allocates pre (bindDurableObjects existing bindings) fun k entries =>
      pre k ∧ ∀ entry ∈ entries, entry.ref < k := by
  induction bindings generalizing pre with
  | nil =>
    refine (allocates_pure []).weaken ?_
    rintro k _ ⟨hpre, rfl⟩
    exact ⟨hpre, List.forall_mem_nil _⟩
  | cons binding bindings ih =>
    refine (allocates_namespaceFor hmono hexisting _).bind fun ref => ?_
    have hmono' : Monotone fun k => pre k ∧ ref < k := fun k k' hk hpre =>
      ⟨hmono hk hpre.1, hpre.2.trans_le hk⟩
    refine (ih hmono' fun k hpre => hexisting k hpre.1).bind fun entries => ?_
    refine (allocates_pure _).weaken ?_
    rintro k _ ⟨⟨⟨hpre, href⟩, hentries⟩, rfl⟩
    exact ⟨hpre, List.forall_mem_cons.mpr ⟨href, hentries⟩⟩

/-- An attempt only makes new namespaces, and what it builds is bound to namespaces that exist. -/
theorem allocates_load (c : WorkerConfig) (x : Attempt) (hmono : Monotone pre)
    (hexisting : ∀ k, pre k → ∀ className ref, existing.get? className = some ref → ref < k) :
    Allocates pre (load c existing x) fun k env =>
      pre k ∧ ∀ entry ∈ env.durableObjects, entry.ref < k := by
  have hbuild : Allocates pre (buildEnv c existing x) fun k env =>
      pre k ∧ ∀ entry ∈ env.durableObjects, entry.ref < k := by
    refine (allocates_lift x.devVars).bind fun devVars => ?_
    refine (allocates_bindDurableObjects hmono hexisting).bind fun durableObjects => ?_
    refine (allocates_lift x.bindings).bind fun _ => ?_
    have hmono' : Monotone fun k => pre k ∧ ∀ entry ∈ durableObjects, entry.ref < k :=
      fun k k' hk hpre =>
        ⟨hmono hk hpre.1, fun entry hentry => (hpre.2 entry hentry).trans_le hk⟩
    refine (allocates_bindDurableObjects hmono' fun k hpre => hexisting k hpre.1).bind
      fun containers => ?_
    refine (allocates_lift x.assets).bind fun _ => ?_
    refine (allocates_lift _).bind fun _ => ?_
    refine (allocates_lift x.rest).bind fun _ => ?_
    refine (allocates_pure _).weaken ?_
    rintro k _ ⟨⟨⟨hpre, hobjects⟩, hcontainers⟩, rfl⟩
    exact ⟨hpre, List.forall_mem_append.mpr ⟨hobjects, hcontainers⟩⟩
  refine hbuild.bind fun env => (allocates_lift x.services).bind fun _ => ?_
  have hpure : Allocates (fun k => pre k ∧ ∀ entry ∈ env.durableObjects, entry.ref < k)
      (pure env : Build MainEnv) fun k env =>
        pre k ∧ ∀ entry ∈ env.durableObjects, entry.ref < k := by
    refine (allocates_pure _).weaken ?_
    rintro k _ ⟨hpre, rfl⟩
    exact hpre
  by_cases hscript : c.script = true
  · rw [if_pos hscript]
    exact (allocates_lift x.executor).bind fun _ => hpure
  · rw [if_neg hscript]
    exact (allocates_pure ()).weaken (fun _ _ h => h.1) |>.bind fun _ => hpure

end Allocates

/-! ### Changes of namespaces -/

section Modify

variable {refs : List ℕ} {f g : DONamespace → DONamespace} {l l' : List DONamespace} {ref n : ℕ}

@[simp] theorem length_modifyAll : (modifyAll refs f l).length = l.length := by
  induction refs generalizing l with
  | nil => rfl
  | cons ref refs ih =>
    rw [modifyAll, List.foldl_cons]
    exact ih.trans (List.length_modify ..)

theorem getElem?_modify (i : ℕ) :
    (l.modify ref f)[i]? = if ref = i then l[i]?.map f else l[i]? := by
  rw [List.getElem?_modify]
  split_ifs
  · rfl
  · exact congrFun Option.map_id_fun' l[i]?

theorem modify_append_of_lt (href : ref < l.length) :
    (l ++ l').modify ref f = l.modify ref f ++ l' := by
  refine List.ext_getElem? fun i => ?_
  rw [getElem?_modify, List.getElem?_append, List.getElem?_append, getElem?_modify,
    List.length_modify]
  by_cases hi : i < l.length
  · simp only [if_pos hi]
  · rw [if_neg hi, if_neg hi, if_neg (by omega)]

theorem modifyAll_append (hrefs : ∀ ref ∈ refs, ref < l.length) :
    modifyAll refs f (l ++ l') = modifyAll refs f l ++ l' := by
  induction refs generalizing l with
  | nil => rfl
  | cons ref refs ih =>
    obtain ⟨href, hrefs⟩ := List.forall_mem_cons.mp hrefs
    rw [modifyAll, List.foldl_cons, modify_append_of_lt href]
    exact ih fun ref hmem => by simpa using hrefs ref hmem

/-- Behind the namespaces that are known, a change that keeps new ones does nothing. -/
theorem modify_append_replicate {new : DONamespace} (hf : f new = new) :
    (l ++ List.replicate n new).modify ref f = l.modify ref f ++ List.replicate n new := by
  refine List.ext_getElem? fun i => ?_
  rw [getElem?_modify, List.getElem?_append, List.getElem?_append, getElem?_modify,
    List.length_modify]
  by_cases hi : i < l.length
  · simp only [if_pos hi]
  · simp only [if_neg hi, List.getElem?_replicate]
    split_ifs <;> simp [hf]

theorem modify_congr (h : ∀ ns, l[ref]? = some ns → f ns = g ns) :
    l.modify ref f = l.modify ref g := by
  refine List.ext_getElem? fun i => ?_
  rw [getElem?_modify, getElem?_modify]
  split_ifs with hi
  · subst hi
    cases hns : l[ref]? with
    | none => rfl
    | some ns => exact congrArg some (h ns hns)
  · rfl

/-- Which namespaces are wired. -/
def wired (l : List DONamespace) : List Bool :=
  l.map DONamespace.isWired

theorem wired_modify (hf : ∀ ns, (f ns).isWired = ns.isWired) :
    wired (l.modify ref f) = wired l := by
  refine List.ext_getElem? fun i => ?_
  rw [wired, wired, List.getElem?_map, List.getElem?_map, getElem?_modify]
  split_ifs
  · rw [Option.map_map, show DONamespace.isWired ∘ f = DONamespace.isWired from funext hf]
  · rfl

theorem wired_modifyAll (hf : ∀ ns, (f ns).isWired = ns.isWired) :
    wired (modifyAll refs f l) = wired l := by
  induction refs generalizing l with
  | nil => rfl
  | cons ref refs ih =>
    rw [modifyAll, List.foldl_cons]
    exact ih.trans (wired_modify hf)

end Modify

namespace DONamespace

variable (ns : DONamespace) (paths : Option Paths) (a : NamespaceActivity)

theorem isWired_createExecutor (id : String) :
    (ns.createExecutor paths id).isWired = ns.isWired := by
  rw [createExecutor]
  split_ifs <;> rfl

theorem isWired_getOrCreateExecutor (id : String) :
    (ns.getOrCreateExecutor paths id).isWired = ns.isWired := by
  rw [getOrCreateExecutor]
  split_ifs
  · rfl
  · exact isWired_createExecutor ..

theorem isWired_act : (ns.act paths a).isWired = ns.isWired := by
  cases a with
  | access id => exact isWired_getOrCreateExecutor ..
  | report => rfl
  | evict =>
    rw [act, evictIdle]
    split_ifs <;> rfl
  | setAlarm =>
    rw [act]
    split_ifs <;> rfl
  | fireAlarm =>
    rw [act]
    split_ifs
    · exact isWired_getOrCreateExecutor ..
    · rfl
  | retryAlarm =>
    rw [act]
    split_ifs <;> rfl

/-- Nothing goes on in a new namespace. -/
theorem act_new : ({} : DONamespace).act paths a = {} := by
  cases a <;> rfl

variable {ns paths} {paths' : Option Paths}

theorem getOrCreateExecutor_congr (h : ns.isWired → paths = paths') (id : String) :
    ns.getOrCreateExecutor paths id = ns.getOrCreateExecutor paths' id := by
  by_cases hwired : ns.isWired
  · rw [h hwired]
  · have hnot (executors : Table String DOExecutor) :
        ¬ ({ ns with executors } : DONamespace).isWired := hwired
    rw [getOrCreateExecutor, getOrCreateExecutor, createExecutor, createExecutor,
      if_neg (hnot _), if_neg (hnot _)]

/-- What the factory has been configured with matters only to namespaces that are wired. -/
theorem act_congr (h : ns.isWired → paths = paths') : ns.act paths a = ns.act paths' a := by
  cases a with
  | access id => exact getOrCreateExecutor_congr h id
  | fireAlarm id =>
    have hcongr : ({ ns with alarmTimers := ns.alarmTimers.erase id } :
        DONamespace).getOrCreateExecutor paths id =
          ({ ns with alarmTimers := ns.alarmTimers.erase id } :
            DONamespace).getOrCreateExecutor paths' id := by
      apply getOrCreateExecutor_congr
      exact h
    rw [act, act, hcongr]
  | _ => rfl

end DONamespace

/-! ### The invariant -/

/-- What is bound has been made, and what is wired or loads has a factory that is configured. -/
structure Founded (c : WorkerConfig) (h : Host) : Prop where
  shared : ∀ className ref, h.doNamespaces.get? className = some ref → ref < h.namespaces.length
  registered : ∀ genId, ∀ entry ∈ h.registries genId, entry.ref < h.namespaces.length
  loading : ∀ env, h.loading = some env →
    (∀ entry ∈ env.durableObjects, entry.ref < h.namespaces.length) ∧ h.paths = some c.paths
  of_wired : true ∈ wired h.namespaces → h.paths = some c.paths

section Founded

variable {c : WorkerConfig} {h h' t u : Host}

theorem founded_start : Founded c .start where
  shared _ _ hget := nomatch hget
  registered _ _ hentry := nomatch hentry
  loading _ henv := nomatch henv
  of_wired hwired := nomatch hwired

namespace Host

theorem length_retire (r : Option Retirement) : (h.retire r).length = h.namespaces.length := by
  rcases r with _ | genId | genId
  · rfl
  · exact length_modifyAll
  · exact length_modifyAll.trans length_modifyAll

theorem wired_drainNamespaces (genId : ℕ) : wired (h.drainNamespaces genId) = wired h.namespaces :=
  wired_modifyAll fun _ => rfl

theorem wired_retire (r : Option Retirement) : wired (h.retire r) = wired h.namespaces := by
  rcases r with _ | genId | genId
  · rfl
  · exact wired_drainNamespaces genId
  · have hdestroy (ns : DONamespace) : (ns.destroy false).isWired = ns.isWired := rfl
    exact (wired_modifyAll hdestroy).trans (wired_drainNamespaces genId)

end Host

/-- The namespaces are changed where they are. -/
theorem Founded.modify (hf : Founded c h) {namespaces : List DONamespace} {manager : Manager}
    (hlength : namespaces.length = h.namespaces.length)
    (hwired : wired namespaces = wired h.namespaces) :
    Founded c { h with manager, namespaces } where
  shared className ref hget := (hf.shared className ref hget).trans_eq hlength.symm
  registered genId entry hentry := (hf.registered genId entry hentry).trans_eq hlength.symm
  loading env henv :=
    ⟨fun entry hentry => ((hf.loading env henv).1 entry hentry).trans_eq hlength.symm,
      (hf.loading env henv).2⟩
  of_wired h := hf.of_wired (hwired ▸ h)

theorem mem_wired_append_replicate {l : List DONamespace} {n : ℕ} :
    true ∈ wired (l ++ List.replicate n ({} : DONamespace)) ↔ true ∈ wired l := by
  simp [wired, DONamespace.isWired]

/-- What an attempt comes to before the worker loads. -/
theorem Founded.beginReload (hf : Founded c h) (x : Attempt) :
    Founded c (h.beginReload c x).1 ∧
      (∃ n, (h.beginReload c x).1 =
        { h with
          paths := if c.script then some c.paths else h.paths
          namespaces := h.namespaces ++ List.replicate n ({} : DONamespace) }) ∧
      ∀ env, (h.beginReload c x).2 = .ok env →
        ∀ entry ∈ env.durableObjects, entry.ref < (h.beginReload c x).1.namespaces.length := by
  have hallocates := @allocates_load (fun k => h.namespaces.length ≤ k) _ c x
    (fun _ _ hk hle => hle.trans hk)
    fun k hle className ref hget => (hf.shared className ref hget).trans_le hle
  obtain ⟨n, hn, hgood⟩ := hallocates h.namespaces le_rfl
  have hbegin : h.beginReload c x =
      ({ h with
          paths := if c.script then some c.paths else h.paths
          namespaces := h.namespaces ++ List.replicate n ({} : DONamespace) },
        ((load c h.doNamespaces x).run h.namespaces).1) := by
    rw [← hn, Host.beginReload]
    by_cases hscript : c.script = true
    · simp only [if_pos hscript]
      rfl
    · simp only [if_neg hscript]
      rfl
  have hlength : h.namespaces.length ≤
      (h.namespaces ++ List.replicate n ({} : DONamespace)).length := by simp
  rw [hbegin]
  refine ⟨⟨?_, ?_, ?_, ?_⟩, ⟨n, rfl⟩, fun env henv entry hentry => ?_⟩
  · exact fun className ref hget => (hf.shared className ref hget).trans_le hlength
  · exact fun genId entry hentry => (hf.registered genId entry hentry).trans_le hlength
  · intro env henv
    obtain ⟨hentries, hpaths⟩ := hf.loading env henv
    refine ⟨fun entry hentry => (hentries entry hentry).trans_le hlength, ?_⟩
    show (if c.script then some c.paths else h.paths) = _
    rw [hpaths, ite_self]
  · intro hwired
    show (if c.script then some c.paths else h.paths) = _
    rw [hf.of_wired (mem_wired_append_replicate.mp hwired), ite_self]
  · simpa using (hgood env henv).2 entry hentry

theorem Founded.wireEntry (hf : Founded c h) (hpaths : h.paths = some c.paths) (env : MainEnv)
    (alarmHandlers : List String) (alarms : String → Finset String) {entry : DurableObjectEntry}
    (hentry : entry.ref < h.namespaces.length) :
    Founded c (h.wireEntry env alarmHandlers alarms entry) := by
  have hlength : (h.wireEntry env alarmHandlers alarms entry).namespaces.length =
      h.namespaces.length := List.length_modify ..
  refine ⟨fun className ref hget => ?_, ?_, ?_, fun _ => hpaths⟩
  · rw [hlength]
    rcases Table.of_get?_insert hget with ⟨-, rfl⟩ | ⟨-, hget⟩
    · exact hentry
    · exact hf.shared className ref hget
  · rw [hlength]
    exact hf.registered
  · rw [hlength]
    exact hf.loading

theorem Founded.wire (hf : Founded c h) (hpaths : h.paths = some c.paths) {env : MainEnv}
    (alarmHandlers : List String) (alarms : String → Finset String)
    (hentries : ∀ entry ∈ env.durableObjects, entry.ref < h.namespaces.length) :
    Founded c (h.wire env alarmHandlers alarms) ∧
      (h.wire env alarmHandlers alarms).namespaces.length = h.namespaces.length ∧
      (h.wire env alarmHandlers alarms).paths = some c.paths := by
  rw [Host.wire]
  generalize env.durableObjects = entries at hentries
  induction entries generalizing h with
  | nil => exact ⟨hf, rfl, hpaths⟩
  | cons entry entries ih =>
    obtain ⟨hentry, hentries⟩ := List.forall_mem_cons.mp hentries
    have hlength : (h.wireEntry env alarmHandlers alarms entry).namespaces.length =
        h.namespaces.length := List.length_modify ..
    rw [List.foldl_cons, ← hlength]
    refine ih (hf.wireEntry hpaths env alarmHandlers alarms hentry) hpaths ?_
    rwa [hlength]

theorem Founded.prune (hf : Founded c h) (hpaths : h.paths = some c.paths) (env : MainEnv) :
    Founded c (h.prune env) := by
  have hlength : (h.prune env).namespaces.length = h.namespaces.length := length_modifyAll
  refine ⟨fun className ref hget => ?_, ?_, ?_, fun _ => hpaths⟩
  · rw [hlength]
    obtain ⟨hget, -⟩ := Option.filter_eq_some_iff.mp ((Table.get?_filter ..).symm.trans hget)
    exact hf.shared className ref hget
  · rw [hlength]
    exact hf.registered
  · rw [hlength]
    exact hf.loading

theorem Founded.activate (hf : Founded c h) {env : MainEnv} (idle : Bool) (now : ℤ)
    (hentries : ∀ entry ∈ env.durableObjects, entry.ref < h.namespaces.length) :
    Founded c (h.activate c env idle now) := by
  have hlength : (h.activate c env idle now).namespaces.length = h.namespaces.length :=
    Host.length_retire _
  refine ⟨?_, fun genId entry hentry => ?_, fun _ henv => (nomatch henv), fun hwired => ?_⟩
  · rw [hlength]
    exact hf.shared
  · rw [hlength]
    have hentry : entry ∈ Function.update h.registries h.manager.nextGenId env.durableObjects
      genId := hentry
    rw [Function.update_apply] at hentry
    split_ifs at hentry
    · exact hentries entry hentry
    · exact hf.registered genId entry hentry
  · exact hf.of_wired ((Host.wired_retire _) ▸ hwired)

/-- How an attempt begins. -/
theorem Host.step_reload_cases {x : Attempt} {idle : Bool} {now : ℤ}
    (hstep : h.step c (.reload x idle now) = some h') :
    h.loading = none ∧
      ((∃ e, (h.beginReload c x).2 = .error e ∧ h' = (h.beginReload c x).1) ∨
        ∃ env, (h.beginReload c x).2 = .ok env ∧
          (c.script ∧ h' = { (h.beginReload c x).1 with loading := some env } ∨
            ¬ c.script ∧ h' = (h.beginReload c x).1.activate c env idle now)) := by
  obtain ⟨hloading, hstep⟩ := Option.ite_none_left_eq_some.mp hstep
  refine ⟨Option.not_isSome_iff_eq_none.mp hloading, ?_⟩
  cases hbuilt : h.beginReload c x with
  | mk begun built =>
    rw [hbuilt] at hstep
    cases built with
    | error e => exact .inl ⟨e, rfl, (Option.some.inj hstep).symm⟩
    | ok env =>
      refine .inr ⟨env, rfl, ?_⟩
      by_cases hscript : c.script = true
      · exact .inl ⟨hscript, Option.some.inj (hstep.symm.trans (if_pos hscript))⟩
      · exact .inr ⟨hscript, Option.some.inj (hstep.symm.trans (if_neg hscript))⟩

theorem Founded.step (hf : Founded c h) {a : HostStep} (hstep : h.step c a = some h') :
    Founded c h' := by
  cases a with
  | reload x idle now =>
    obtain ⟨hbegun, ⟨n, hbegin⟩, hentries⟩ := hf.beginReload x
    obtain ⟨-, ⟨e, -, rfl⟩ | ⟨env, henv, ⟨hscript, rfl⟩ | ⟨-, rfl⟩⟩⟩ :=
      Host.step_reload_cases hstep
    · exact hbegun
    · refine ⟨hbegun.shared, hbegun.registered, fun env' henv' => ?_, hbegun.of_wired⟩
      obtain rfl := Option.some.inj henv'
      refine ⟨hentries env henv, ?_⟩
      show (h.beginReload c x).1.paths = _
      rw [hbegin]
      exact if_pos hscript
    · exact hbegun.activate idle now (hentries env henv)
  | ready alarmHandlers alarms idle now =>
    obtain ⟨env, henv, rfl⟩ := Option.map_eq_some_iff.mp hstep
    obtain ⟨hentries, hpaths⟩ := hf.loading env henv
    obtain ⟨hwired, hlength, hpaths⟩ := hf.wire hpaths alarmHandlers alarms hentries
    refine (hwired.prune hpaths env).activate idle now fun entry hentry => ?_
    have hpruned : ((h.wire env alarmHandlers alarms).prune env).namespaces.length =
        h.namespaces.length := length_modifyAll.trans hlength
    exact (hentries entry hentry).trans_eq hpruned.symm
  | rejected =>
    obtain ⟨-, hstep⟩ := Option.ite_none_right_eq_some.mp hstep
    obtain rfl := Option.some.inj hstep
    exact ⟨hf.shared, hf.registered, fun _ henv => (nomatch henv), hf.of_wired⟩
  | action a =>
    have hact : h.act c a = some h' := by
      cases a <;> first | exact hstep | cases hstep
    obtain ⟨manager, -, rfl⟩ := Option.map_eq_some_iff.mp hact
    exact hf.modify (Host.length_retire _) (Host.wired_retire _)
  | activity ref a =>
    obtain rfl := Option.some.inj hstep
    exact hf.modify (List.length_modify ..) (wired_modify fun ns => ns.isWired_act ..)

theorem Founded.of_reaches (h : Reaches (Host.step c) unguarded .start u) : Founded c u :=
  h.invariant founded_start fun _ _ _ hf _ hstep => hf.step hstep

end Founded

/-! ### Without the attempt -/

/-- The manager, with its generations and timers, and the namespaces that were there are the same;
behind them there may be new ones that nobody knows. -/
structure Unchanged (u t : Host) : Prop where
  manager : t.manager = u.manager
  doNamespaces : t.doNamespaces = u.doNamespaces
  registries : t.registries = u.registries
  namespaces : ∃ n, t.namespaces = u.namespaces ++ List.replicate n ({} : DONamespace)
  paths : true ∈ wired u.namespaces → t.paths = u.paths

section Unchanged

variable {c : WorkerConfig} {t t' u : Host}

theorem Unchanged.retire (h : Unchanged u t) (hf : Founded c u) (r : Option Retirement) :
    ∃ n, t.retire r = u.retire r ++ List.replicate n ({} : DONamespace) := by
  obtain ⟨n, hn⟩ := h.namespaces
  have hunshared (genId : ℕ) : t.unshared genId = u.unshared genId := by
    rw [Host.unshared, Host.unshared, h.registries, h.doNamespaces]
  have hrefs (genId : ℕ) : ∀ ref ∈ u.unshared genId, ref < u.namespaces.length := by
    intro ref href
    obtain ⟨entry, hentry, rfl⟩ := List.mem_map.mp (List.mem_filter.mp href).1
    exact hf.registered genId entry hentry
  have hdrain (genId : ℕ) : t.drainNamespaces genId =
      u.drainNamespaces genId ++ List.replicate n ({} : DONamespace) := by
    rw [Host.drainNamespaces, hunshared, hn, modifyAll_append (hrefs genId)]
    rfl
  refine ⟨n, ?_⟩
  rcases r with _ | genId | genId
  · exact hn
  · exact hdrain genId
  · rw [Host.retire, Host.stopNamespaces, hunshared, hdrain, modifyAll_append]
    · rfl
    · intro ref href
      exact (hrefs genId ref href).trans_eq length_modifyAll.symm

/-- What others do is the same with and without the attempt. -/
theorem Unchanged.step (h : Unchanged u t) (hf : Founded c u) {a : HostStep} (ha : a.isOther)
    (hstep : t.step c a = some t') : ∃ u', u.step c a = some u' ∧ Unchanged u' t' := by
  cases a with
  | reload | ready | rejected => cases ha
  | action a =>
    have hact : t.act c a = some t' := by
      cases a <;> first | exact hstep | cases hstep
    obtain ⟨manager, hmanager, rfl⟩ := Option.map_eq_some_iff.mp hact
    refine ⟨{ u with manager, namespaces := u.retire (u.manager.retires a) }, ?_, ?_⟩
    · have hact : u.act c a =
          some { u with manager, namespaces := u.retire (u.manager.retires a) } := by
        rw [Host.act, ← h.manager, hmanager]
        rfl
      cases a <;> first | exact hact | cases hstep
    · refine ⟨rfl, h.doNamespaces, h.registries, ?_, fun hwired => h.paths ?_⟩
      · rw [h.manager]
        exact h.retire hf _
      · exact (Host.wired_retire _) ▸ hwired
  | activity ref a =>
    obtain rfl := Option.some.inj hstep
    obtain ⟨n, hn⟩ := h.namespaces
    refine ⟨_, rfl, h.manager, h.doNamespaces, h.registries, ⟨n, ?_⟩, fun hwired => ?_⟩
    · show t.namespaces.modify ref _ = u.namespaces.modify ref _ ++ _
      rw [hn, modify_append_replicate (DONamespace.act_new _ a)]
      refine congrArg (· ++ _) (modify_congr fun ns hns => ?_)
      refine DONamespace.act_congr a fun hwired => h.paths ?_
      exact List.mem_map.mpr ⟨ns, List.mem_of_getElem? hns, hwired⟩
    · rw [wired_modify fun ns => ns.isWired_act ..] at hwired
      exact h.paths hwired

theorem Unchanged.play (h : Unchanged u t) (hf : Founded c u) {labels : List HostStep}
    (hothers : ∀ a ∈ labels, a.isOther) (hplay : play (Host.step c) t labels = some t') :
    ∃ u', play (Host.step c) u labels = some u' ∧ Unchanged u' t' := by
  induction labels generalizing t u with
  | nil =>
    obtain rfl := Option.some.inj hplay
    exact ⟨u, rfl, h⟩
  | cons a labels ih =>
    obtain ⟨ha, hothers⟩ := List.forall_mem_cons.mp hothers
    obtain ⟨m, hm, hplay⟩ := Option.bind_eq_some_iff.mp hplay
    obtain ⟨u₁, hu₁, h₁⟩ := h.step hf ha hm
    obtain ⟨u', hu', h'⟩ := ih h₁ (hf.step hu₁) hothers hplay
    exact ⟨u', Option.bind_eq_some_iff.mpr ⟨u₁, hu₁, hu'⟩, h'⟩

theorem Host.loading_play {labels : List HostStep} (hothers : ∀ a ∈ labels, a.isOther)
    (hplay : play (Host.step c) t labels = some t') : t'.loading = t.loading := by
  induction labels generalizing t with
  | nil => rw [Option.some.inj hplay]
  | cons a labels ih =>
    obtain ⟨ha, hothers⟩ := List.forall_mem_cons.mp hothers
    obtain ⟨m, hm, hplay⟩ := Option.bind_eq_some_iff.mp hplay
    have hkept : m.loading = t.loading := by
      cases a with
      | reload | ready | rejected => cases ha
      | action a =>
        have hact : t.act c a = some m := by
          cases a <;> first | exact hm | cases hm
        obtain ⟨manager, -, rfl⟩ := Option.map_eq_some_iff.mp hact
        rfl
      | activity =>
        obtain rfl := Option.some.inj hm
        rfl
    exact (ih hothers hplay).trans hkept

theorem Unchanged.beginReload (hf : Founded c u) (x : Attempt) :
    Unchanged u (u.beginReload c x).1 := by
  obtain ⟨-, ⟨n, hbegin⟩, -⟩ := hf.beginReload x
  rw [hbegin]
  refine ⟨rfl, rfl, rfl, ⟨n, rfl⟩, fun hwired => ?_⟩
  show (if c.script then some c.paths else u.paths) = _
  rw [hf.of_wired hwired, ite_self]

theorem Unchanged.setLoading (h : Unchanged u t) (loading : Option MainEnv) :
    Unchanged u { t with loading } :=
  ⟨h.manager, h.doNamespaces, h.registries, h.namespaces, h.paths⟩

theorem Unchanged.serving (h : Unchanged u t) : t.serving = u.serving := by
  rw [Host.serving, Host.serving, h.manager]

/-- Whatever others do while an attempt to reload goes on, it comes to the same as without the
attempt, until the worker is ready or the attempt has failed; an attempt that fails before its
worker loads changes nothing either. -/
theorem reload_unchanged {h : Host} (hreach : Reaches (Host.step c) unguarded .start h)
    (x : Attempt) (idle : Bool) (now : ℤ) {labels : List HostStep}
    (hothers : ∀ a ∈ labels, a.isOther) :
    (∀ e t, (h.beginReload c x).2 = .error e → h.step c (.reload x idle now) = some t →
      Unchanged h t ∧ t.serving = h.serving) ∧
    (∀ t, c.script → play (Host.step c) h (.reload x idle now :: labels) = some t →
      ∃ u, play (Host.step c) h labels = some u ∧ Unchanged u t ∧ t.serving = u.serving) ∧
    ∀ t, play (Host.step c) h (.reload x idle now :: labels ++ [.rejected]) = some t →
      ∃ u, play (Host.step c) h labels = some u ∧ Unchanged u t ∧ t.serving = u.serving := by
  have hf := Founded.of_reaches hreach
  have hbegun := Unchanged.beginReload hf x
  refine ⟨fun e t he hstep => ?_, fun t hscript hplay => ?_, fun t hplay => ?_⟩
  · obtain ⟨-, ⟨e, -, rfl⟩ | ⟨env, henv, -⟩⟩ := Host.step_reload_cases hstep
    · exact ⟨hbegun, hbegun.serving⟩
    · cases he.symm.trans henv
  · obtain ⟨m, hm, hplay⟩ := Option.bind_eq_some_iff.mp hplay
    have hm : Unchanged h m := by
      obtain ⟨-, ⟨e, -, rfl⟩ | ⟨env, henv, ⟨-, rfl⟩ | ⟨hnot, -⟩⟩⟩ := Host.step_reload_cases hm
      · exact hbegun
      · exact hbegun.setLoading _
      · exact absurd hscript hnot
    obtain ⟨u, hu, hut⟩ := hm.play hf hothers hplay
    exact ⟨u, hu, hut, hut.serving⟩
  · rw [play_concat] at hplay
    obtain ⟨s, hs, hrejected⟩ := Option.bind_eq_some_iff.mp hplay
    obtain ⟨hloading, hrejected⟩ := Option.ite_none_right_eq_some.mp hrejected
    obtain rfl := Option.some.inj hrejected
    obtain ⟨m, hm, hs⟩ := Option.bind_eq_some_iff.mp hs
    have hm : Unchanged h m := by
      obtain ⟨-, ⟨e, -, rfl⟩ | ⟨env, henv, ⟨-, rfl⟩ | ⟨-, rfl⟩⟩⟩ := Host.step_reload_cases hm
      · exact hbegun
      · exact hbegun.setLoading _
      · -- without a script nothing loads, and nothing is rejected
        rw [Host.loading_play hothers hs] at hloading
        cases hloading
    obtain ⟨u, hu, hut⟩ := hm.play hf hothers hs
    exact ⟨u, hu, hut.setLoading none, hut.serving⟩

end Unchanged

/-- A worker with a Durable Object. -/
def chat : WorkerConfig where
  workflows := 0
  paths := { modulePath := "worker.js", configPath := "wrangler.toml" }
  durableObjects := [("ROOMS", "Room")]

/-- The first worker goes on while the second one cannot be loaded. -/
theorem reload_unchanged_chat :
    ∃ h t u, Reaches (Host.step chat) unguarded .start h ∧ h.serving = some 1 ∧
      play (Host.step chat) h [.reload {} true 1, .activity 0 (.access "a"), .rejected] = some t ∧
      play (Host.step chat) h [.activity 0 (.access "a")] = some u ∧ Unchanged u t ∧
      t.serving = some 1 := by
  have hloads : Reaches (Host.step chat) unguarded .start _ :=
    Reaches.refl.tail trivial (show Host.step chat .start (.reload {} true 0) = some _ from rfl)
  have hserves : Reaches (Host.step chat) unguarded .start _ :=
    hloads.tail trivial
      (show Host.step chat _ (.ready [] (fun _ => ∅) true 0) = some _ from rfl)
  have hothers : ∀ a ∈ [HostStep.activity 0 (.access "a")], a.isOther := by simp [HostStep.isOther]
  obtain ⟨u, hu, hut, -⟩ := (reload_unchanged hserves {} true 1 hothers).2.2 _ rfl
  exact ⟨_, _, u, hserves, rfl, rfl, hu, hut, rfl⟩

end Lopata.Generations
