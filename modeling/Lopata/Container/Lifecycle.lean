import Lopata.Container.Runtime

/-!
# The Lifecycle of a Container

The status of a container runtime is set before Docker has been asked, and written again by what
goes on later, without a look at what has happened in between. A run is orderly if its steps
avoid the places where this goes wrong: a start that throws elsewhere than in `docker run`, a
start next to a removal and the other way round, the answer to a health probe of a container that
has been given up, a monitor that finds a container exited while the next one is being started,
and a request forwarded to a container that is not up.

## Main results

* `Steady.step`: the invariant is kept by every orderly step.
* `coherent_of_orderly`: in an orderly run, the status is up only with a container or an operation
  in progress, a start that fails leaves it stopped, and once an end has come it stays down and no
  timer is armed.
* `not_coherent_of_disorder`: without order, each of these fails.
-/

namespace Lopata.Container

/-! ### Coherence -/

/-- No operation is in progress. -/
def Idle (s : Runtime) : Prop := ∀ p ∈ s.tasks.rows, p.2.isOperation = false

instance (s : Runtime) : Decidable (Idle s) :=
  inferInstanceAs (Decidable (∀ p ∈ s.tasks.rows, p.2.isOperation = false))

/-- A timer is armed. -/
def Armed (s : Runtime) : Prop :=
  s.healthCheckTimer = true ∨ s.activityTimer = true ∨ s.monitorTimer = true

instance (s : Runtime) : Decidable (Armed s) :=
  inferInstanceAs (Decidable (s.healthCheckTimer = true ∨ s.activityTimer = true ∨
    s.monitorTimer = true))

/-- The status is up only with a container, a failed start leaves it stopped, and after an end
nothing is up or armed. -/
def Coherent (s : Runtime) : Prop :=
  (Idle s → s.status.Up → s.holds = true) ∧ (∀ status ∈ s.failures, status = .stopped) ∧
    (s.ended = true → ¬ s.status.Up ∧ ¬ Armed s)

instance (s : Runtime) : Decidable (Coherent s) :=
  inferInstanceAs (Decidable ((Idle s → s.status.Up → s.holds = true) ∧
    (∀ status ∈ s.failures, status = .stopped) ∧ (s.ended = true → ¬ s.status.Up ∧ ¬ Armed s)))

/-! ### Order -/

/-- No start is in progress, unless it has failed. -/
def Settled (s : Runtime) : Prop := ∀ p ∈ s.tasks.rows, p.2.starts = false

/-- No removal is in progress. -/
def Undisturbed (s : Runtime) : Prop := ∀ p ∈ s.tasks.rows, p.2.removes = false

/-- The answers that find a runtime in order. -/
def Expected (s : Runtime) : Task → Answer → Prop
  | .start phase, .threw => phase = .running ∨ phase = .failing
  | .probe, .responded true => s.status.Up
  | .monitor .inspecting, .inspected (some info) => info.state.Ended → Settled s
  | _, _ => True

/-- The steps of an orderly run. -/
def Orderly (s : Runtime) : Label → Prop
  | .start => s.status.Up ∨ Undisturbed s
  | .stop _ | .destroy _ | .cleanup => Settled s
  | .fetch port => s.mapped port = true → s.status.Up ∧ Settled s ∧ Undisturbed s
  | .answer i a => ∀ t, s.tasks.get? i = some t → Expected s t a
  | _ => True

instance (s : Runtime) : Decidable (Settled s) :=
  inferInstanceAs (Decidable (∀ p ∈ s.tasks.rows, p.2.starts = false))

instance (s : Runtime) : Decidable (Undisturbed s) :=
  inferInstanceAs (Decidable (∀ p ∈ s.tasks.rows, p.2.removes = false))

instance (s : Runtime) : (t : Task) → (a : Answer) → Decidable (Expected s t a) := by
  intro t a
  unfold Expected
  split <;> infer_instance

instance (s : Runtime) : (l : Label) → Decidable (Orderly s l) := by
  intro l
  unfold Orderly
  split
  · infer_instance
  · infer_instance
  · infer_instance
  · infer_instance
  · infer_instance
  · next i a =>
      cases ht : s.tasks.get? i with
      | none => exact .isTrue fun t h => by cases h
      | some t =>
          refine decidable_of_iff (Expected s t a) ⟨fun h u hu => ?_, fun h => h t rfl⟩
          exact Option.some.inj hu ▸ h
  · infer_instance

/-! ### The invariant -/

/-- No start has been called since the task has. -/
def Task.latest : Task → Bool
  | .stop _ latest | .destroy _ latest | .cleanup latest => latest
  | _ => false

/-- A task during which the status is not up: the container is being given up, or it has been and
no start has been called since. -/
def Task.silences : Task → Bool
  | .stop phase latest => phase ≠ .onStop || latest
  | .destroy .onError latest => latest
  | .monitor phase => phase = .removing
  | _ => false

/-- What holds all along an orderly run. -/
structure Steady (s : Runtime) : Prop where
  holds : s.status.Up → s.holds = true ∨ ∃ i t, s.tasks.get? i = some t ∧ t.starts = true
  starting : ∀ i t, s.tasks.get? i = some t → t.starts = true → s.status.Up ∧
    ∀ j u, s.tasks.get? j = some u →
      u.removes = false ∧ u.latest = false ∧ (u.starts = true → j = i)
  started : ∀ i, s.tasks.get? i = some (.start .started) → s.holds = true
  silent : ∀ i t, s.tasks.get? i = some t → t.silences = true → ¬ s.status.Up
  armed : Armed s → s.status.Up ∧
    ∀ i t, s.tasks.get? i = some t → t.starts = false ∧ t.removes = false
  ended : s.ended = true → ¬ s.status.Up
  failures : ∀ status ∈ s.failures, status = .stopped
  fresh : ∀ i t, s.tasks.get? i = some t → i < s.nextTask

theorem steady_new : Steady Runtime.new where
  holds h := by cases h <;> contradiction
  starting _ _ h := by cases h
  started _ h := by cases h
  silent _ _ h := by cases h
  armed h := by rcases h with h | h | h <;> cases h
  ended h := by cases h
  failures _ h := by cases h
  fresh _ _ h := by cases h

theorem settled_iff {s : Runtime} :
    Settled s ↔ ∀ i t, s.tasks.get? i = some t → t.starts = false := by
  constructor
  · intro h i t ht
    exact h (i, t) (Table.mem_rows_iff.mpr ht)
  · rintro h ⟨i, t⟩ ht
    exact h i t (Table.mem_rows_iff.mp ht)

theorem undisturbed_iff {s : Runtime} :
    Undisturbed s ↔ ∀ i t, s.tasks.get? i = some t → t.removes = false := by
  constructor
  · intro h i t ht
    exact h (i, t) (Table.mem_rows_iff.mpr ht)
  · rintro h ⟨i, t⟩ ht
    exact h i t (Table.mem_rows_iff.mp ht)

/-- The invariant makes the runtime coherent. -/
theorem Steady.coherent {s : Runtime} (h : Steady s) : Coherent s := by
  refine ⟨fun hidle hup => ?_, h.failures, fun hended =>
    ⟨h.ended hended, fun harmed => h.ended hended (h.armed harmed).1⟩⟩
  rcases h.holds hup with hholds | ⟨i, t, ht, hstarts⟩
  · exact hholds
  · have hop := hidle (i, t) (Table.mem_rows_iff.mpr ht)
    cases t with
    | start phase => cases hop
    | _ => cases hstarts

variable {config : Config} {s s' : Runtime} {i : ℕ} {t : Task}

/-! ### What keeps the invariant -/

theorem Steady.settled_of_down (h : Steady s) (hdown : ¬ s.status.Up) : Settled s := by
  rw [settled_iff]
  intro i t ht
  by_contra hstarts
  exact hdown (h.starting i t ht (Bool.eq_true_of_not_eq_false hstarts)).1

theorem Steady.not_armed_of_down (h : Steady s) (hdown : ¬ s.status.Up) : ¬ Armed s :=
  fun harmed => hdown (h.armed harmed).1

/-- The runtime goes down, with no start in progress and no timer armed. -/
theorem Steady.lower (hsettled : Settled s) (hdown : ¬ s'.status.Up) (harmed : ¬ Armed s')
    (hfailures : ∀ status ∈ s'.failures, status = .stopped)
    (hfresh : ∀ j u, s'.tasks.get? j = some u → j < s'.nextTask)
    (hnew : ∀ j u, s'.tasks.get? j = some u → s.tasks.get? j = some u ∨ u.starts = false) :
    Steady s' := by
  have hnone : ∀ j u, s'.tasks.get? j = some u → u.starts = false := fun j u hu =>
    (hnew j u hu).elim (settled_iff.mp hsettled j u) id
  refine ⟨fun hup => absurd hup hdown, fun i t ht hstarts => ?_, fun i hi => ?_,
    fun _ _ _ _ => hdown, fun h => absurd h harmed, fun _ => hdown, hfailures, hfresh⟩
  · rw [hnone i t ht] at hstarts
    cases hstarts
  · cases hnone i _ hi

/-- Tasks may end, and tasks may begin that neither start nor end a container. -/
theorem Steady.replace (h : Steady s) (hstatus : s'.status = s.status)
    (hholds : s'.holds = s.holds) (hended : s'.ended = true → s.ended = true ∨ ¬ s.status.Up)
    (hfailures : s'.failures = s.failures) (harmed : Armed s' → Armed s)
    (hfresh : ∀ j u, s'.tasks.get? j = some u → j < s'.nextTask)
    (hnew : ∀ j u, s'.tasks.get? j = some u → s.tasks.get? j = some u ∨
      (u.starts = false ∧ u.removes = false ∧ u.latest = false ∧ u.silences = false))
    (hkept : ∀ j u, s.tasks.get? j = some u → u.starts = true → s'.tasks.get? j = some u) :
    Steady s' where
  holds hup := by
    rw [hstatus] at hup
    rw [hholds]
    exact (h.holds hup).imp id fun ⟨i, t, ht, hstarts⟩ => ⟨i, t, hkept i t ht hstarts, hstarts⟩
  starting i t ht hstarts := by
    rw [hstatus]
    rcases hnew i t ht with hold | ⟨hnot, -⟩
    · obtain ⟨hup, hall⟩ := h.starting i t hold hstarts
      refine ⟨hup, fun j u hu => ?_⟩
      rcases hnew j u hu with hu | ⟨hs, hr, hl, -⟩
      · exact hall j u hu
      · refine ⟨hr, hl, fun hs' => ?_⟩
        rw [hs] at hs'
        cases hs'
    · rw [hnot] at hstarts
      cases hstarts
  started i hi := by
    rw [hholds]
    rcases hnew i _ hi with hold | ⟨hnot, -⟩
    · exact h.started i hold
    · cases hnot
  silent i t ht hsilences := by
    rw [hstatus]
    rcases hnew i t ht with hold | ⟨-, -, -, hnot⟩
    · exact h.silent i t hold hsilences
    · rw [hnot] at hsilences
      cases hsilences
  armed ha := by
    obtain ⟨hup, hall⟩ := h.armed (harmed ha)
    rw [hstatus]
    refine ⟨hup, fun i t ht => ?_⟩
    rcases hnew i t ht with hold | ⟨hs, hr, -, -⟩
    · exact hall i t hold
    · exact ⟨hs, hr⟩
  ended he := by
    rw [hstatus]
    exact (hended he).elim h.ended id
  failures := hfailures ▸ h.failures
  fresh := hfresh

/-- A start goes on to its next phase. -/
theorem Steady.advance (h : Steady s) (ht : s.tasks.get? i = some t) (hstarts : t.starts = true)
    {phase : StartPhase} (hlive : phase ≠ .failing) (hstarted : phase = .started → s'.holds = true)
    (hstatus : s'.status = s.status) (hended : s'.ended = s.ended)
    (hfailures : s'.failures = s.failures) (harmed : Armed s' → Armed s)
    (htasks : s'.tasks = s.tasks.insert i (.start phase)) (hnext : s'.nextTask = s.nextTask) :
    Steady s' := by
  obtain ⟨hup, hall⟩ := h.starting i t ht hstarts
  have hlives : (Task.start phase).starts = true := decide_eq_true hlive
  have hget : ∀ j, s'.tasks.get? j = if j = i then some (.start phase) else s.tasks.get? j := by
    intro j
    rw [htasks, Table.get?_insert]
  have hothers : ∀ j u, s'.tasks.get? j = some u →
      u.removes = false ∧ u.latest = false ∧ (u.starts = true → j = i) := by
    intro j u hu
    rw [hget] at hu
    split at hu
    · next hji =>
        obtain rfl := Option.some.inj hu
        exact ⟨rfl, rfl, fun _ => hji⟩
    · exact hall j u hu
  refine ⟨fun _ => .inr ⟨i, _, ?_, hlives⟩, fun j u hu hs => ⟨hstatus ▸ hup, fun k v hv => ?_⟩,
    fun j hj => ?_, fun j u hu hsilences => ?_, fun ha => ?_, fun he => ?_, hfailures ▸ h.failures,
    fun j u hu => ?_⟩
  · rw [hget, if_pos rfl]
  · obtain rfl := (hothers j u hu).2.2 hs
    exact hothers k v hv
  · obtain rfl := (hothers j _ hj).2.2 rfl
    rw [hget, if_pos rfl] at hj
    injection hj with hj
    injection hj with hj
    exact hstarted hj
  · rw [hget] at hu
    split at hu
    · obtain rfl := Option.some.inj hu
      cases hsilences
    · exact absurd hup (h.silent j u hu hsilences)
  · have hnot := ((h.armed (harmed ha)).2 i t ht).1
    rw [hstarts] at hnot
    cases hnot
  · rw [hended] at he
    exact absurd hup (h.ended he)
  · rw [hnext]
    rw [hget] at hu
    split at hu
    · next hji => exact hji ▸ h.fresh i t ht
    · exact h.fresh j u hu

/-! ### Tasks of a runtime -/

theorem get?_goOn (s : Runtime) (i : ℕ) (t : Task) (j : ℕ) :
    (s.goOn i t).tasks.get? j = if j = i then some t else s.tasks.get? j :=
  Table.get?_insert _ _ _ _

theorem get?_finish (s : Runtime) (i j : ℕ) :
    (s.finish i).tasks.get? j = if j = i then none else s.tasks.get? j :=
  Table.get?_erase _ _ _

theorem get?_spawn (s : Runtime) (t : Task) (j : ℕ) :
    (s.spawn t).tasks.get? j = if j = s.nextTask then some t else s.tasks.get? j :=
  Table.get?_insert _ _ _ _

/-- A task of a runtime in which one task has changed. -/
theorem of_get?_goOn {u : Task} {j : ℕ} (h : (s.goOn i t).tasks.get? j = some u) :
    s.tasks.get? j = some u ∨ j = i ∧ u = t := by
  rw [get?_goOn] at h
  split at h
  · next hji => exact .inr ⟨hji, (Option.some.inj h).symm⟩
  · exact .inl h

theorem of_get?_finish {u : Task} {j : ℕ} (h : (s.finish i).tasks.get? j = some u) :
    s.tasks.get? j = some u := by
  rw [get?_finish] at h
  split at h
  · cases h
  · exact h

theorem of_get?_spawn {u : Task} {j : ℕ} (h : (s.spawn t).tasks.get? j = some u) :
    s.tasks.get? j = some u ∨ j = s.nextTask ∧ u = t := by
  rw [get?_spawn] at h
  split at h
  · next hji => exact .inr ⟨hji, (Option.some.inj h).symm⟩
  · exact .inl h

/-- A task that has not started a container ends. -/
theorem get?_finish_of_starts (ht : s.tasks.get? i = some t) (hnot : t.starts = false) {j : ℕ}
    {u : Task} (hu : s.tasks.get? j = some u) (hstarts : u.starts = true) :
    (s.finish i).tasks.get? j = some u := by
  rw [get?_finish, if_neg]
  · exact hu
  · rintro rfl
    rw [ht] at hu
    obtain rfl := Option.some.inj hu
    rw [hnot] at hstarts
    cases hstarts

/-- A task ends that neither starts nor ends a container. -/
theorem Steady.finish (h : Steady s) (ht : s.tasks.get? i = some t) (hnot : t.starts = false) :
    Steady (s.finish i) :=
  h.replace rfl rfl .inl rfl id (fun j u hu => h.fresh j u (of_get?_finish hu))
    (fun _ _ hu => .inl (of_get?_finish hu)) fun _ _ hu hs => get?_finish_of_starts ht hnot hu hs

/-- A task begins that neither starts nor ends a container. -/
theorem Steady.spawn (h : Steady s) (hstarts : t.starts = false) (hremoves : t.removes = false)
    (hlatest : t.latest = false) (hsilences : t.silences = false) : Steady (s.spawn t) := by
  refine h.replace rfl rfl .inl rfl id (fun j u hu => ?_) (fun j u hu => ?_) fun j u hu _ => ?_
  · rcases of_get?_spawn hu with hu | ⟨rfl, -⟩
    · exact Nat.lt_succ_of_lt (h.fresh j u hu)
    · exact Nat.lt_succ_self _
  · rcases of_get?_spawn hu with hu | ⟨-, rfl⟩
    · exact .inl hu
    · exact .inr ⟨hstarts, hremoves, hlatest, hsilences⟩
  · rw [get?_spawn, if_neg (Nat.ne_of_lt (h.fresh j u hu))]
    exact hu

/-- A timer is no longer armed. -/
theorem Steady.disarm (h : Steady s) (hstatus : s'.status = s.status) (hholds : s'.holds = s.holds)
    (hended : s'.ended = s.ended) (hfailures : s'.failures = s.failures)
    (htasks : s'.tasks = s.tasks) (hnext : s'.nextTask = s.nextTask)
    (harmed : Armed s' → Armed s) : Steady s' := by
  refine h.replace hstatus hholds (fun he => .inl (hended ▸ he)) hfailures harmed
    (fun j u hu => ?_) (fun j u hu => .inl ?_) fun j u hu _ => ?_
  · rw [hnext]
    exact h.fresh j u (htasks ▸ hu)
  · exact htasks ▸ hu
  · rw [htasks]
    exact hu

/-! ### Starting -/

/-- What a call of `start` changes of a task. -/
theorem surpass_spec (t : Task) : t.surpass.starts = t.starts ∧ t.surpass.removes = t.removes ∧
    t.surpass.latest = false ∧ (t.surpass.silences = true → t.silences = true) ∧
    (t.removes = false → t.surpass.silences = false) := by
  cases t with
  | stop phase latest => cases phase <;> cases latest <;> decide
  | destroy phase latest => cases phase <;> exact ⟨rfl, rfl, rfl, fun h => (by cases h), fun _ => rfl⟩
  | monitor phase => cases phase <;> decide
  | start phase => exact ⟨rfl, rfl, rfl, id, fun _ => rfl⟩
  | cleanup latest => exact ⟨rfl, rfl, rfl, id, fun _ => rfl⟩
  | probe => exact ⟨rfl, rfl, rfl, id, fun _ => rfl⟩

/-- A `start` is called: no other call is the last one any more. -/
def surpassed (s : Runtime) : Runtime :=
  { s with ended := false, tasks := s.tasks.mapRows fun _ t => t.surpass }

theorem of_get?_surpassed {j : ℕ} {u : Task} (h : (surpassed s).tasks.get? j = some u) :
    ∃ t, s.tasks.get? j = some t ∧ t.surpass = u := by
  rw [surpassed, Table.get?_mapRows] at h
  exact Option.map_eq_some_iff.mp h

theorem Steady.surpassed (h : Steady s) : Steady (surpassed s) := by
  refine ⟨fun hup => ?_, fun i u hu hstarts => ?_, fun i hi => ?_, fun i u hu hsilences => ?_,
    fun harmed => ?_, fun he => (by cases he), h.failures, fun i u hu => ?_⟩
  · refine (h.holds hup).imp id ?_
    rintro ⟨i, t, ht, hstarts⟩
    refine ⟨i, t.surpass, ?_, (surpass_spec t).1.trans hstarts⟩
    rw [Container.surpassed, Table.get?_mapRows, ht]
    rfl
  · obtain ⟨t, ht, rfl⟩ := of_get?_surpassed hu
    obtain ⟨hup, hall⟩ := h.starting i t ht ((surpass_spec t).1 ▸ hstarts)
    refine ⟨hup, fun j u hu => ?_⟩
    obtain ⟨v, hv, rfl⟩ := of_get?_surpassed hu
    obtain ⟨hs, hr, hl, -⟩ := surpass_spec v
    rw [hs, hr]
    exact ⟨(hall j v hv).1, hl, (hall j v hv).2.2⟩
  · obtain ⟨t, ht, heq⟩ := of_get?_surpassed hi
    cases t with
    | start phase => exact h.started i (heq ▸ ht)
    | _ => cases heq
  · obtain ⟨t, ht, rfl⟩ := of_get?_surpassed hu
    exact h.silent i t ht ((surpass_spec t).2.2.2.1 hsilences)
  · obtain ⟨hup, hall⟩ := h.armed harmed
    refine ⟨hup, fun i u hu => ?_⟩
    obtain ⟨t, ht, rfl⟩ := of_get?_surpassed hu
    rw [(surpass_spec t).1, (surpass_spec t).2.1]
    exact hall i t ht
  · obtain ⟨t, ht, -⟩ := of_get?_surpassed hu
    exact h.fresh i t ht

theorem Steady.callStart (h : Steady s) (hok : s.status.Up ∨ Undisturbed s) :
    Steady s.callStart := by
  have hsurpassed := h.surpassed
  unfold Runtime.callStart
  dsimp only
  split
  · exact hsurpassed
  · next hdown =>
      have hquiet := undisturbed_iff.mp (hok.resolve_left hdown)
      have hsettled := settled_iff.mp (h.settled_of_down hdown)
      have hall : ∀ j u, (((Container.surpassed s).transition .running none).spawn
          (.start .inspecting)).tasks.get? j = some u →
          u.removes = false ∧ u.latest = false ∧ u.silences = false ∧
            (u = .start .inspecting ∧ j = s.nextTask ∨ u.starts = false) ∧ j < s.nextTask + 1 := by
        intro j u hu
        rcases of_get?_spawn hu with hu | ⟨rfl, rfl⟩
        · obtain ⟨t, ht, rfl⟩ := of_get?_surpassed hu
          obtain ⟨hs, hr, hl, -, hsilences⟩ := surpass_spec t
          exact ⟨hr.trans (hquiet j t ht), hl, hsilences (hquiet j t ht),
            .inr (hs.trans (hsettled j t ht)), Nat.lt_succ_of_lt (h.fresh j t ht)⟩
        · exact ⟨rfl, rfl, rfl, .inl ⟨rfl, rfl⟩, Nat.lt_succ_self _⟩
      refine ⟨fun _ => .inr ⟨s.nextTask, .start .inspecting, ?_, rfl⟩, fun i t ht hstarts => ?_,
        fun i hi => ?_, fun i t ht hsilences => ?_, fun harmed => ?_, fun he => (by cases he),
        h.failures, fun i t ht => (hall i t ht).2.2.2.2⟩
      · rw [get?_spawn]
        exact if_pos rfl
      · refine ⟨.inl rfl, fun j u hu => ⟨(hall j u hu).1, (hall j u hu).2.1, fun hs => ?_⟩⟩
        rcases (hall i t ht).2.2.2.1 with ⟨-, rfl⟩ | hnot
        · rcases (hall j u hu).2.2.2.1 with ⟨-, rfl⟩ | hnot
          · rfl
          · rw [hnot] at hs
            cases hs
        · rw [hnot] at hstarts
          cases hstarts
      · rcases (hall i _ hi).2.2.2.1 with ⟨heq, -⟩ | hnot
        · cases heq
        · cases hnot
      · rw [(hall i t ht).2.2.1] at hsilences
        cases hsilences
      · exact absurd harmed (h.not_armed_of_down hdown)

/-- A task that starts is in a phase before the failure. -/
theorem starts_iff {phase : StartPhase} : (Task.start phase).starts = true ↔ phase ≠ .failing :=
  decide_eq_true_iff

/-- The container runs and the timers are armed. -/
theorem Steady.arm (h : Steady s) (ht : s.tasks.get? i = some (.start .started)) :
    Steady (({ s with healthCheckTimer := true, monitorTimer := true }.renewActivityTimeout
      config).finish i) := by
  obtain ⟨hup, hall⟩ := h.starting i _ ht rfl
  have hsettled : ∀ j u, (s.finish i).tasks.get? j = some u → u.starts = false := by
    intro j u hu
    have hold := of_get?_finish hu
    by_contra hnot
    obtain rfl := (hall j u hold).2.2 (Bool.eq_true_of_not_eq_false hnot)
    rw [get?_finish, if_pos rfl] at hu
    cases hu
  refine ⟨fun _ => .inl (h.started i ht), fun j u hu hstarts => ?_, fun j hj => ?_,
    fun j u hu => h.silent j u (of_get?_finish hu), fun _ => ⟨hup, fun j u hu => ?_⟩, h.ended,
    h.failures, fun j u hu => h.fresh j u (of_get?_finish hu)⟩
  · have hnot := hsettled j u hu
    rw [hstarts] at hnot
    cases hnot
  · cases hsettled j _ hj
  · exact ⟨hsettled j u hu, (hall j u (of_get?_finish hu)).1⟩

/-- The loop over the ports goes on. -/
theorem Steady.allocate (h : Steady s) {phase : StartPhase}
    (ht : s.tasks.get? i = some (.start phase)) (hlive : phase ≠ .failing) (hostPorts : Table ℕ ℕ)
    (holds : Bool) (ports : List ℕ) :
    Steady ({ s with hostPorts := hostPorts, holds := holds }.allocate config i ports) := by
  have hstarts := starts_iff.mpr hlive
  cases ports with
  | nil =>
    unfold Runtime.allocate
    refine h.advance ht hstarts ?_ ?_ rfl rfl rfl id rfl rfl
    · split <;> exact fun heq => by cases heq
    · split <;> exact fun heq => by cases heq
  | cons port left =>
    refine h.advance ht hstarts ?_ ?_ rfl rfl rfl id rfl rfl
    · exact fun heq => by cases heq
    · exact fun heq => by cases heq

/-- `docker run` throws. -/
theorem Steady.runFailed (h : Steady s) (ht : s.tasks.get? i = some (.start .running)) :
    Steady ({ s.transition .stopped none with failures := .stopped :: s.failures }.goOn i
      (.start .failing)) := by
  obtain ⟨-, hall⟩ := h.starting i _ ht rfl
  have hothers : ∀ j u, (s.goOn i (.start .failing)).tasks.get? j = some u →
      u.starts = false ∧ j < s.nextTask := by
    intro j u hu
    rcases of_get?_goOn hu with hold | ⟨rfl, rfl⟩
    · refine ⟨Bool.eq_false_of_not_eq_true fun hstarts => ?_, h.fresh j u hold⟩
      obtain rfl := (hall j u hold).2.2 hstarts
      rw [get?_goOn, if_pos rfl] at hu
      obtain rfl := Option.some.inj hu
      cases hstarts
    · exact ⟨rfl, h.fresh _ _ ht⟩
  have hsettled : Settled (s.goOn i (.start .failing)) :=
    settled_iff.mpr fun j u hu => (hothers j u hu).1
  refine Steady.lower hsettled (fun hup => ?_) (fun harmed => ?_) (fun status hstatus => ?_)
    (fun j u hu => (hothers j u hu).2) fun _ _ hu => .inl hu
  · rcases hup with hup | hup <;> cases hup
  · have hnot := ((h.armed harmed).2 i _ ht).1
    cases hnot
  · rcases List.mem_cons.mp hstatus with rfl | hstatus
    · rfl
    · exact h.failures status hstatus

theorem Steady.answerStart (h : Steady s) {phase : StartPhase}
    (ht : s.tasks.get? i = some (.start phase)) {a : Answer} (hok : Expected s (.start phase) a)
    (hs' : s.answerStart config i phase a = some s') : Steady s' := by
  have hadvance : ∀ {s₁ : Runtime} {next : StartPhase}, phase ≠ .failing → next ≠ .failing →
      (next = .started → s₁.holds = true) → s₁.status = s.status → s₁.ended = s.ended →
      s₁.failures = s.failures → (Armed s₁ → Armed s) → s₁.tasks = s.tasks →
      s₁.nextTask = s.nextTask → Steady (s₁.goOn i (.start next)) := by
    intro s₁ next hlive hnext hstarted hstatus hended hfailures harmed htasks hnextTask
    exact h.advance ht (starts_iff.mpr hlive) hnext hstarted hstatus hended hfailures harmed
      (congrArg (Table.insert · i _) htasks) hnextTask
  cases a with
  | threw =>
    rcases hok with rfl | rfl
    · obtain rfl := Option.some.inj hs'
      exact h.runFailed ht
    · obtain rfl := Option.some.inj hs'
      exact h.finish ht rfl
  | done =>
    cases phase with
    | inspecting => cases hs'
    | removing =>
      obtain rfl := Option.some.inj hs'
      exact h.allocate ht (by decide) Table.empty false config.ports
    | allocating port left => cases hs'
    | building =>
      obtain rfl := Option.some.inj hs'
      exact hadvance (by decide) (by decide) (fun heq => by cases heq) rfl rfl rfl id rfl rfl
    | running =>
      obtain rfl := Option.some.inj hs'
      exact hadvance (by decide) (by decide) (fun _ => rfl) rfl rfl rfl id rfl rfl
    | started =>
      obtain rfl := Option.some.inj hs'
      exact h.arm ht
    | failing =>
      obtain rfl := Option.some.inj hs'
      exact h.finish ht rfl
  | inspected info =>
    cases phase with
    | inspecting =>
      cases info with
      | none =>
        obtain rfl := Option.some.inj hs'
        exact h.allocate ht (by decide) Table.empty s.holds config.ports
      | some info =>
        rw [Runtime.answerStart] at hs'
        split at hs'
        · obtain rfl := Option.some.inj hs'
          exact hadvance (by decide) (by decide) (fun _ => rfl) rfl rfl rfl id rfl rfl
        · obtain rfl := Option.some.inj hs'
          exact hadvance (by decide) (by decide) (fun heq => by cases heq) rfl rfl rfl id rfl
            rfl
    | failing =>
      obtain rfl := Option.some.inj hs'
      exact h.finish ht rfl
    | _ => cases hs'
  | allocated hostPort =>
    cases phase with
    | allocating port left =>
      obtain rfl := Option.some.inj hs'
      exact h.allocate ht (fun heq => by cases heq) _ s.holds left
    | failing =>
      obtain rfl := Option.some.inj hs'
      exact h.finish ht rfl
    | _ => cases hs'
  | responded ok =>
    cases phase with
    | failing =>
      obtain rfl := Option.some.inj hs'
      exact h.finish ht rfl
    | _ => cases hs'

/-! ### Ending -/

/-- A call that ends the container is made while no start is in progress. -/
theorem Steady.dismiss (h : Steady s) (hsettled : Settled s) (hstarts : t.starts = false)
    (hsilences : t.silences = false) : Steady (s.stopTimers.spawn t) := by
  have hnone : ∀ j u, (s.stopTimers.spawn t).tasks.get? j = some u →
      u.starts = false ∧ (u.silences = true → ¬ s.status.Up) ∧ j < s.nextTask + 1 := by
    intro j u hu
    rcases of_get?_spawn hu with hold | ⟨rfl, rfl⟩
    · exact ⟨settled_iff.mp hsettled j u hold, h.silent j u hold,
        Nat.lt_succ_of_lt (h.fresh j u hold)⟩
    · refine ⟨hstarts, fun hs => ?_, Nat.lt_succ_self _⟩
      rw [hsilences] at hs
      cases hs
  refine ⟨fun hup => .inl ?_, fun j u hu hs => ?_, fun j hj => ?_,
    fun j u hu => (hnone j u hu).2.1, fun harmed => ?_, h.ended, h.failures,
    fun j u hu => (hnone j u hu).2.2⟩
  · rcases h.holds hup with hholds | ⟨j, u, hu, hs⟩
    · exact hholds
    · rw [settled_iff.mp hsettled j u hu] at hs
      cases hs
  · rw [(hnone j u hu).1] at hs
    cases hs
  · cases (hnone j _ hj).1
  · rcases harmed with harmed | harmed | harmed <;> cases harmed

theorem Steady.callStop (h : Steady s) (hsettled : Settled s) (signal : Bool) :
    Steady (s.callStop signal) := by
  unfold Runtime.callStop
  split
  · refine Steady.lower (s := s) hsettled (fun hup => ?_) (fun harmed => ?_) h.failures
      (fun j u hu => ?_) fun j u hu => ?_
    · rcases hup with hup | hup <;> cases hup
    · rcases harmed with harmed | harmed | harmed <;> cases harmed
    · rcases of_get?_spawn hu with hold | ⟨rfl, -⟩
      · exact Nat.lt_succ_of_lt (h.fresh j u hold)
      · exact Nat.lt_succ_self _
    · rcases of_get?_spawn hu with hold | ⟨-, rfl⟩
      · exact .inl hold
      · exact .inr rfl
  · next hdown =>
      exact h.replace rfl rfl (fun _ => .inr hdown) rfl id h.fresh (fun _ _ hu => .inl hu)
        fun _ _ hu _ => hu

/-- A call that ends the container has completed. -/
theorem Steady.complete (h : Steady s) {latest : Bool} (ht : s.tasks.get? i = some t)
    (hstarts : t.starts = false) (hdown : latest = true → ¬ s.status.Up) :
    Steady (s.complete i latest) := by
  refine h.replace rfl rfl (fun he => ?_) rfl id (fun j u hu => h.fresh j u (of_get?_finish hu))
    (fun _ _ hu => .inl (of_get?_finish hu)) fun _ _ hu hs => get?_finish_of_starts ht hstarts hu hs
  rcases Bool.or_eq_true_iff.mp he with he | he
  · exact .inl he
  · exact .inr (hdown he)

/-- The container has been given up: the status is down and no start is in progress. -/
theorem Steady.giveUp (h : Steady s) (ht : s.tasks.get? i = some t) (hsettled : Settled s)
    (hunarmed : ¬ Armed s) (hdown : ¬ s'.status.Up) (harmed : Armed s' → Armed s)
    (hfailures : s'.failures = s.failures) (hnext : s'.nextTask = s.nextTask) {t' : Option Task}
    (htasks : ∀ j, s'.tasks.get? j = if j = i then t' else s.tasks.get? j)
    (hnot : ∀ u, t' = some u → u.starts = false) : Steady s' := by
  refine Steady.lower (s := s) hsettled hdown (fun ha => hunarmed (harmed ha))
    (hfailures ▸ h.failures) (fun j u hu => ?_) fun j u hu => ?_
  · rw [hnext]
    rw [htasks] at hu
    split at hu
    · next hji => exact hji ▸ h.fresh i t ht
    · exact h.fresh j u hu
  · rw [htasks] at hu
    split at hu
    · exact .inr (hnot u hu)
    · exact .inl hu

/-- While a task removes the container, no start is in progress and no timer is armed. -/
theorem Steady.of_removes (h : Steady s) (ht : s.tasks.get? i = some t)
    (hremoves : t.removes = true) : Settled s ∧ ¬ Armed s := by
  constructor
  · rw [settled_iff]
    intro j u hu
    by_contra hstarts
    have hnot := ((h.starting j u hu (Bool.eq_true_of_not_eq_false hstarts)).2 i t ht).1
    rw [hremoves] at hnot
    cases hnot
  · intro harmed
    have hnot := ((h.armed harmed).2 i t ht).2
    rw [hremoves] at hnot
    cases hnot

theorem not_up_stopped : ¬ Status.stopped.Up := by decide

theorem Steady.answerStop (h : Steady s) {phase : StopPhase} {latest : Bool}
    (ht : s.tasks.get? i = some (.stop phase latest)) {a : Answer}
    (hs' : s.answerStop i latest phase a = some s') : Steady s' := by
  by_cases hphase : phase = .onStop
  · subst hphase
    have hcomplete : s' = s.complete i latest := by
      cases a <;> exact (Option.some.inj hs').symm
    subst hcomplete
    exact h.complete ht rfl fun hlatest => h.silent i _ ht (by rw [hlatest]; rfl)
  · have hremoves : (Task.stop phase latest).removes = true := decide_eq_true hphase
    obtain ⟨hsettled, hunarmed⟩ := h.of_removes ht hremoves
    have hdown : ¬ s.status.Up := h.silent i _ ht (by
      rw [Task.silences, decide_eq_true hphase]
      rfl)
    -- the stop goes on, or the status is stopped
    have hgoOn : ∀ (next : StopPhase), Steady (s.goOn i (.stop next latest)) := fun next =>
      h.giveUp ht hsettled hunarmed hdown id rfl rfl (get?_goOn s i _) fun u hu => by
        obtain rfl := Option.some.inj hu
        rfl
    have hstopped : ∀ holds : Bool, Steady (({ s with holds := holds }.transition .stopped
        none).goOn i (.stop .onStop latest)) := fun holds =>
      h.giveUp ht hsettled hunarmed not_up_stopped id rfl rfl (get?_goOn _ i _) fun u hu => by
        obtain rfl := Option.some.inj hu
        rfl
    cases phase with
    | onStop => exact absurd rfl hphase
    | signalling =>
      cases a with
      | done => exact Option.some.inj hs' ▸ hgoOn .waiting
      | threw => exact Option.some.inj hs' ▸ hgoOn .forcing
      | _ => cases hs'
    | waiting =>
      cases a with
      | done => exact Option.some.inj hs' ▸ hgoOn .stopping
      | _ => cases hs'
    | stopping =>
      cases a with
      | done => exact Option.some.inj hs' ▸ hgoOn .removing
      | threw => exact Option.some.inj hs' ▸ hgoOn .forcing
      | _ => cases hs'
    | removing =>
      cases a with
      | done => exact Option.some.inj hs' ▸ hstopped false
      | threw => exact Option.some.inj hs' ▸ hgoOn .forcing
      | _ => cases hs'
    | forcing =>
      cases a with
      | done => exact Option.some.inj hs' ▸ hstopped false
      | threw => exact Option.some.inj hs' ▸ hstopped s.holds
      | _ => cases hs'

/-- A removal whose failure is ignored. -/
theorem removeQuietly_eq_some {a : Answer} (h : s.removeQuietly a = some s') :
    ∃ holds, s' = { s with holds := holds } := by
  cases a with
  | done => exact ⟨false, (Option.some.inj h).symm⟩
  | threw => exact ⟨s.holds, (Option.some.inj h).symm⟩
  | _ => cases h

theorem Steady.answerDestroy (h : Steady s) {phase : DestroyPhase} {latest : Bool}
    (ht : s.tasks.get? i = some (.destroy phase latest)) {a : Answer}
    (hs' : s.answerDestroy i latest phase a = some s') : Steady s' := by
  cases phase with
  | removing error =>
    obtain ⟨hsettled, hunarmed⟩ := h.of_removes ht rfl
    obtain ⟨s₁, hs₁, rfl⟩ := Option.map_eq_some_iff.mp hs'
    obtain ⟨holds, rfl⟩ := removeQuietly_eq_some hs₁
    dsimp only
    split
    · exact h.giveUp ht hsettled hunarmed not_up_stopped id rfl rfl (get?_goOn _ i _)
        fun u hu => by
          obtain rfl := Option.some.inj hu
          rfl
    · exact h.giveUp ht hsettled hunarmed not_up_stopped id rfl rfl (get?_finish _ i)
        fun u hu => by cases hu
  | onError =>
    have hcomplete : s' = s.complete i latest := by
      cases a <;> exact (Option.some.inj hs').symm
    subst hcomplete
    exact h.complete ht rfl fun hlatest => h.silent i _ ht hlatest

theorem Steady.answerCleanup (h : Steady s) {latest : Bool}
    (ht : s.tasks.get? i = some (.cleanup latest)) {a : Answer}
    (hs' : s.answerCleanup i latest a = some s') : Steady s' := by
  obtain ⟨hsettled, hunarmed⟩ := h.of_removes ht rfl
  obtain ⟨s₁, hs₁, rfl⟩ := Option.map_eq_some_iff.mp hs'
  obtain ⟨holds, rfl⟩ := removeQuietly_eq_some hs₁
  exact h.giveUp ht hsettled hunarmed not_up_stopped id rfl rfl (get?_finish _ i)
    fun u hu => by cases hu

/-! ### Timers -/

theorem Steady.answerProbe (h : Steady s) (ht : s.tasks.get? i = some .probe) {a : Answer}
    (hok : Expected s .probe a) (hs' : s.answerProbe i a = some s') : Steady s' := by
  cases a with
  | responded ok =>
    cases ok with
    | false => exact Option.some.inj hs' ▸ h.finish ht rfl
    | true =>
      obtain rfl := Option.some.inj hs'
      have hup : s.status.Up := hok
      have hhealthy : Steady { s with status := .healthy } :=
        ⟨fun _ => h.holds hup, fun j u hu hs => ⟨.inr rfl, (h.starting j u hu hs).2⟩, h.started,
          fun j u hu hs => absurd hup (h.silent j u hu hs),
          fun harmed => ⟨.inr rfl, (h.armed harmed).2⟩, fun he => absurd hup (h.ended he),
          h.failures, h.fresh⟩
      have hdisarmed : Steady { s.transition .healthy none with healthCheckTimer := false } := by
        refine hhealthy.disarm rfl rfl rfl rfl rfl rfl ?_
        rintro (harmed | harmed)
        · cases harmed
        · exact .inr harmed
      exact hdisarmed.finish ht rfl
  | threw => exact Option.some.inj hs' ▸ h.finish ht rfl
  | _ => cases hs'

theorem Steady.answerMonitor (h : Steady s) {phase : MonitorPhase}
    (ht : s.tasks.get? i = some (.monitor phase)) {a : Answer}
    (hok : Expected s (.monitor phase) a) (hs' : s.answerMonitor i phase a = some s') :
    Steady s' := by
  cases phase with
  | inspecting =>
    cases a with
    | inspected info =>
      cases info with
      | none => exact Option.some.inj hs' ▸ h.finish ht rfl
      | some info =>
        rw [Runtime.answerMonitor] at hs'
        split at hs'
        · next hended =>
            obtain rfl := Option.some.inj hs'
            refine Steady.lower (s := s) (hok hended) (fun hup => ?_) (fun harmed => ?_)
              h.failures (fun j u hu => ?_) fun j u hu => ?_
            · rcases hup with hup | hup <;> cases hup
            · rcases harmed with harmed | harmed | harmed <;> cases harmed
            · rcases of_get?_goOn hu with hold | ⟨rfl, -⟩
              · exact h.fresh j u hold
              · exact h.fresh _ _ ht
            · rcases of_get?_goOn hu with hold | ⟨-, rfl⟩
              · exact .inl hold
              · exact .inr rfl
        · exact Option.some.inj hs' ▸ h.finish ht rfl
    | threw => exact Option.some.inj hs' ▸ h.finish ht rfl
    | _ => cases hs'
  | removing =>
    obtain ⟨hsettled, hunarmed⟩ := h.of_removes ht rfl
    have hdown : ¬ s.status.Up := h.silent i _ ht rfl
    obtain ⟨s₁, hs₁, rfl⟩ := Option.map_eq_some_iff.mp hs'
    obtain ⟨holds, rfl⟩ := removeQuietly_eq_some hs₁
    exact h.giveUp ht hsettled hunarmed hdown id rfl rfl (get?_goOn _ i _) fun u hu => by
      obtain rfl := Option.some.inj hu
      rfl
  | onStop =>
    have hfinish : s' = s.finish i := by
      cases a <;> exact (Option.some.inj hs').symm
    exact hfinish ▸ h.finish ht rfl

theorem Steady.healthCheckTick (h : Steady s) (hs' : s.healthCheckTick config = some s') :
    Steady s' := by
  unfold Runtime.healthCheckTick at hs'
  split at hs'
  · split at hs'
    · obtain rfl := Option.some.inj hs'
      refine Steady.disarm h rfl rfl rfl rfl rfl rfl ?_
      rintro (harmed | harmed)
      · cases harmed
      · exact .inr harmed
    · split at hs'
      · exact Option.some.inj hs' ▸ h.spawn rfl rfl rfl rfl
      · exact Option.some.inj hs' ▸ h
  · cases hs'

theorem Steady.monitorTick (h : Steady s) (hs' : s.monitorTick = some s') : Steady s' := by
  unfold Runtime.monitorTick at hs'
  split at hs'
  · split at hs'
    · exact Option.some.inj hs' ▸ h.spawn rfl rfl rfl rfl
    · obtain rfl := Option.some.inj hs'
      refine Steady.disarm h rfl rfl rfl rfl rfl rfl ?_
      rintro (harmed | harmed | harmed)
      · exact .inl harmed
      · exact .inr (.inl harmed)
      · cases harmed
  · cases hs'

theorem Steady.activityTimeout (h : Steady s) (hs' : s.activityTimeout config = some s') :
    Steady s' := by
  unfold Runtime.activityTimeout at hs'
  split at hs'
  · next htimer =>
      have hfired : Steady { s with activityTimer := false } := by
        refine Steady.disarm h rfl rfl rfl rfl rfl rfl ?_
        rintro (harmed | harmed | harmed)
        · exact .inl harmed
        · cases harmed
        · exact .inr (.inr harmed)
      -- no start is in progress while the timer is armed
      have hsettled : Settled s := settled_iff.mpr fun j u hu =>
        ((h.armed (.inr (.inl htimer))).2 j u hu).1
      dsimp only at hs'
      split at hs'
      · split at hs'
        · exact Option.some.inj hs' ▸ hfired
        · exact Option.some.inj hs' ▸ hfired.callStop hsettled true
      · exact Option.some.inj hs' ▸ hfired
  · cases hs'

theorem Steady.fetch (h : Steady s) {port : ℕ}
    (hok : s.mapped port = true → s.status.Up ∧ Settled s ∧ Undisturbed s) :
    Steady (s.fetch config port) := by
  unfold Runtime.fetch
  split
  · next hmapped =>
      obtain ⟨hup, hsettled, hquiet⟩ := hok hmapped
      exact { h with
        armed := fun _ => ⟨hup, fun j u hu =>
          ⟨settled_iff.mp hsettled j u hu, undisturbed_iff.mp hquiet j u hu⟩⟩ }
  · exact h

/-! ### Main results -/

/-- **The invariant.** It is kept by every orderly step. -/
theorem Steady.step (h : Steady s) {l : Label} (hok : Orderly s l)
    (hs' : Runtime.step config s l = some s') : Steady s' := by
  cases l with
  | start => exact Option.some.inj hs' ▸ h.callStart hok
  | stop signal => exact Option.some.inj hs' ▸ h.callStop hok signal
  | destroy error => exact Option.some.inj hs' ▸ h.dismiss hok rfl rfl
  | cleanup => exact Option.some.inj hs' ▸ h.dismiss hok rfl rfl
  | fetch port => exact Option.some.inj hs' ▸ h.fetch hok
  | healthCheckTick => exact h.healthCheckTick hs'
  | monitorTick => exact h.monitorTick hs'
  | activityTimeout => exact h.activityTimeout hs'
  | answer i a =>
    obtain ⟨t, ht, hs'⟩ := Option.bind_eq_some_iff.mp hs'
    have hok := hok t ht
    cases t with
    | start phase => exact h.answerStart ht hok hs'
    | stop phase latest => exact h.answerStop ht hs'
    | destroy phase latest => exact h.answerDestroy ht hs'
    | cleanup latest => exact h.answerCleanup ht hs'
    | probe => exact h.answerProbe ht hok hs'
    | monitor phase => exact h.answerMonitor ht hok hs'

/-- **An orderly run is coherent.** -/
theorem coherent_of_orderly (config : Config) {s : Runtime}
    (h : Reaches (Runtime.step config) Orderly Runtime.new s) : Coherent s :=
  (h.invariant steady_new fun _ _ _ hsteady hok hstep => hsteady.step hok hstep).coherent

/-- A container is started, found healthy, and stopped. -/
theorem coherent_of_orderly_stop : ∃ s, (s.status = .stopped ∧ s.ended = true) ∧ Coherent s := by
  have hrun : (play (restrict (Runtime.step { image := "nginx".toList }) Orderly) Runtime.new
      [.start, .answer 0 (.inspected none), .answer 0 (.allocated 1000), .answer 0 .done,
        .answer 0 .done, .healthCheckTick, .answer 1 (.responded true), .stop false,
        .answer 2 .done, .answer 2 .done, .answer 2 .done]).any
      (fun s => decide (s.status = .stopped ∧ s.ended = true)) = true := by decide +kernel
  obtain ⟨s, hreach, hs⟩ := exists_reaches_of_play hrun
  exact ⟨s, of_decide_eq_true hs, coherent_of_orderly _ hreach⟩

/-- An image that cannot be built leaves the status running; the answer to a health probe makes a
stopped runtime healthy; a start that goes on after the container has been destroyed arms the
timers. -/
theorem not_coherent_of_disorder :
    (∃ s, Reaches (Runtime.step { image := "./Dockerfile".toList }) unguarded Runtime.new s ∧
      (Idle s ∧ s.status = .running ∧ s.holds = false ∧ s.failures = [.running]) ∧
        ¬ Coherent s) ∧
    (∃ s, Reaches (Runtime.step { image := "nginx".toList }) unguarded Runtime.new s ∧
      (Idle s ∧ s.ended = true ∧ s.status = .healthy ∧ s.holds = false) ∧ ¬ Coherent s) ∧
    ∃ s, Reaches (Runtime.step { image := "nginx".toList }) unguarded Runtime.new s ∧
      (Idle s ∧ s.ended = true ∧ Armed s) ∧ ¬ Coherent s := by
  refine ⟨?_, ?_, ?_⟩
  · have hrun : (play (restrict (Runtime.step { image := "./Dockerfile".toList }) unguarded)
        Runtime.new
        [.start, .answer 0 (.inspected none), .answer 0 (.allocated 1000), .answer 0 .threw]).any
        (fun s => decide ((Idle s ∧ s.status = .running ∧ s.holds = false ∧
          s.failures = [.running]) ∧ ¬ Coherent s)) = true := by decide +kernel
    obtain ⟨s, hreach, hs⟩ := exists_reaches_of_play hrun
    exact ⟨s, hreach, of_decide_eq_true hs⟩
  · have hrun : (play (restrict (Runtime.step { image := "nginx".toList }) unguarded) Runtime.new
        [.start, .answer 0 (.inspected none), .answer 0 (.allocated 1000), .answer 0 .done,
          .answer 0 .done, .healthCheckTick, .stop false, .answer 2 .done, .answer 2 .done,
          .answer 2 .done, .answer 1 (.responded true)]).any
        (fun s => decide ((Idle s ∧ s.ended = true ∧ s.status = .healthy ∧ s.holds = false) ∧
          ¬ Coherent s)) = true := by decide +kernel
    obtain ⟨s, hreach, hs⟩ := exists_reaches_of_play hrun
    exact ⟨s, hreach, of_decide_eq_true hs⟩
  · have hrun : (play (restrict (Runtime.step { image := "nginx".toList }) unguarded) Runtime.new
        [.start, .destroy false, .answer 1 .done, .answer 0 (.inspected none),
          .answer 0 (.allocated 1000), .answer 0 .done, .answer 0 .done]).any
        (fun s => decide ((Idle s ∧ s.ended = true ∧ Armed s) ∧ ¬ Coherent s)) = true := by
      decide +kernel
    obtain ⟨s, hreach, hs⟩ := exists_reaches_of_play hrun
    exact ⟨s, hreach, of_decide_eq_true hs⟩

end Lopata.Container
