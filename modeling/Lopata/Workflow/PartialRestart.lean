import Lopata.Workflow.Budget

/-!
# Partial Restarts

`restart` with a step to restart from looks up when that step was completed and drops every step
that was completed then or later. The lookup comes after the running execution was aborted and a
new controller was registered.

A step is completed when its row is written; the row of a sleep is written as the sleep begins.

## Main results

* `restart_untouched_iff`: `restart` leaves the instance alone when it throws, unless it throws
  because the step is not recorded.
* `chronicled_of_reaches`: the rows of a step cache are in the order of their timestamps.
* `restart_cuts_iff`: `restart` cuts the history of an instance right before a step, unless a step
  before it was completed in the same millisecond.
-/

namespace Lopata.Workflow

variable {cfg : Config} {w w' : World} {id step : String} {fromStep : Option String}

/-! ### Restarts that throw -/

/-- An instance is as before: its rows, its controller with the signal, its waiters, its
executions and its step calls. -/
structure Untouched (id : String) (w w' : World) : Prop where
  row : w'.db.instances.get? id = w.db.instances.get? id
  steps : ∀ name, w'.db.steps.get? (id, name) = w.db.steps.get? (id, name)
  attempts : ∀ name, w'.db.attempts.get? (id, name) = w.db.attempts.get? (id, name)
  controller : w'.mem.abortControllers id = w.mem.abortControllers id
  signal : ∀ c, w.mem.abortControllers id = some c → w'.mem.aborted c = w.mem.aborted c
  waiters : w'.mem.eventWaiters id = w.mem.eventWaiters id
  waiterMap : ∀ map, w.mem.eventWaiters id = some map →
    w'.mem.waiterMaps map = w.mem.waiterMaps map
  runs : ∀ c r, r.instanceId = id → (w'.mem.runs.get? c = some r ↔ w.mem.runs.get? c = some r)
  calls : ∀ k x, x.instanceId = id → (w'.mem.calls.get? k = some x ↔ w.mem.calls.get? k = some x)

theorem Untouched.refl (id : String) (w : World) : Untouched id w w :=
  ⟨rfl, fun _ => rfl, fun _ => rfl, rfl, fun _ _ => rfl, rfl, fun _ _ => rfl,
    fun _ _ _ => Iff.rfl, fun _ _ _ => Iff.rfl⟩

theorem nextController_abortRegistered (m : Memory) (id : String) :
    (m.abortRegistered id).nextController = m.nextController := by
  simp only [Memory.abortRegistered]
  split
  · simp only [Memory.abort]
    split <;> rfl
  · rfl

/-- **Atomicity of restarts.** In every state that can be reached `restart` leaves the instance
exactly as it was if it throws, unless the instance is there and the step to restart from is not
recorded. -/
theorem restart_untouched_iff (h : Reaches (act cfg) unguarded .init w) (id : String)
    (fromStep : Option String) :
    ((∃ message, (restart w id fromStep).reply = .threw message) →
        Untouched id w (w.after (restart w id fromStep))) ↔
      ∀ step, fromStep = some step → step ≠ "" → (w.db.instances.get? id).isSome →
        (w.db.steps.get? (id, step)).isSome := by
  have hfresh := (coherent_of_reaches h).wf.toFresh
  cases hrow : w.db.instances.get? id with
  | none =>
      have hsame : w.after (restart w id fromStep) = w := by
        simp only [restart, hrow]
        rfl
      rw [hsame]
      exact iff_of_true (fun _ => .refl id w) fun _ _ _ hsome => absurd hsome Bool.false_ne_true
  | some row =>
      cases hfrom : fromStep.filter (fun s => decide (s ≠ "")) with
      | none =>
          refine iff_of_true ?_ ?_
          · rintro ⟨message, hthrew⟩
            simp only [restart, hrow, hfrom, restartSteps] at hthrew
            cases hthrew
          · rintro step rfl hne
            simp [Option.filter, hne] at hfrom
      | some step =>
          obtain ⟨rfl, hne⟩ := Option.filter_eq_some_iff.mp hfrom
          have hne : step ≠ "" := of_decide_eq_true hne
          cases hstep : w.db.steps.get? (id, step) with
          | some row' =>
              refine iff_of_true ?_ ?_
              · rintro ⟨message, hthrew⟩
                simp only [restart, hrow, hfrom, restartSteps, hstep] at hthrew
                cases hthrew
              · rintro step' heq - -
                obtain rfl := Option.some.inj heq
                rw [hstep]
                rfl
          | none =>
              -- the new controller is registered by now
              refine iff_of_false ?_ ?_
              · intro huntouched
                have hrestart : restart w id (some step) =
                    ⟨[], (w.mem.abortRegistered id).register id,
                      .threw (some ("Step \"" ++ step ++ "\" not found in workflow instance " ++
                        id))⟩ := by
                  simp only [restart, hrow, hfrom, restartSteps, hstep]
                rw [hrestart] at huntouched
                have hcontroller := (huntouched ⟨_, rfl⟩).controller
                have hnew : w.mem.abortControllers id = some w.mem.nextController := by
                  rw [← hcontroller, ← nextController_abortRegistered w.mem id]
                  exact Function.update_self ..
                exact (hfresh.registered id _ hnew).ne rfl
              · intro hsome
                have := hsome step rfl hne rfl
                rw [hstep] at this
                cases this

/-- An instance that waits for an event. -/
def waitingForEvent : List Action :=
  [.op (.create (some "a") none), .op (.call 0 (.waitForEvent "w" "go" none)), .op (.enter 0)]

theorem restart_untouched_waiting : ∃ w, Reaches (act .defaults) unguarded .init w ∧
    (((∃ message, (restart w "a" (some "x")).reply = .threw message) →
        Untouched "a" w (w.after (restart w "a" (some "x")))) ↔
      ∀ step, some "x" = some step → step ≠ "" → (w.db.instances.get? "a").isSome →
        (w.db.steps.get? ("a", step)).isSome) := by
  have hrun : (play (restrict (act .defaults) unguarded) .init waitingForEvent).any
      (fun w => w.db.status "a" = some .waiting) = true := by
    decide +kernel
  obtain ⟨w, hreach, -⟩ := exists_reaches_of_play hrun
  exact ⟨w, hreach, restart_untouched_iff hreach "a" (some "x")⟩

/-- A restart from a step that is not recorded ends the wait and aborts the execution. -/
theorem not_untouched :
    ∃ w, Reaches (act .defaults) unguarded .init w ∧
      (∃ message, (restart w "a" (some "x")).reply = .threw message) ∧
      (w.mem.abortControllers "a" = some 0 ∧ w.mem.aborted 0 = false ∧
        (w.after (restart w "a" (some "x"))).mem.aborted 0 = true ∧
        (w.mem.calls.get? 0).isSome = true ∧
        ((w.after (restart w "a" (some "x"))).mem.calls.get? 0).isNone = true) ∧
      ¬ Untouched "a" w (w.after (restart w "a" (some "x"))) := by
  have hrun : (play (restrict (act .defaults) unguarded) .init waitingForEvent).any
      (fun w => decide
        ((restart w "a" (some "x")).reply =
            .threw (some "Step \"x\" not found in workflow instance a") ∧
          w.mem.abortControllers "a" = some 0 ∧ w.mem.aborted 0 = false ∧
          (w.after (restart w "a" (some "x"))).mem.aborted 0 = true ∧
          (w.mem.calls.get? 0).isSome = true ∧
          ((w.after (restart w "a" (some "x"))).mem.calls.get? 0).isNone = true)) = true := by
    decide +kernel
  obtain ⟨w, hreach, hw⟩ := exists_reaches_of_play hrun
  obtain ⟨hreply, hall⟩ := of_decide_eq_true hw
  refine ⟨w, hreach, ⟨_, hreply⟩, hall, fun huntouched => ?_⟩
  have hsignal := huntouched.signal 0 hall.1
  rw [hall.2.1, hall.2.2.1] at hsignal
  cases hsignal

/-! ### The order of completion -/

/-- The recorded steps of an instance, in the order in which they were completed: a row that is
written comes last. -/
def Db.history (db : Db) (id : String) : List (String × StepRow) :=
  (db.steps.rows.filter fun p => p.1.1 = id).map fun p => (p.1.2, p.2)

/-- The statement writes no row of a step, or one with the time. -/
def Stmt.stamped (now : Millis) : Stmt → Bool
  | .cacheStep _ _ _ time => time = now
  | _ => true

/-- The rows of the step cache are in the order of their timestamps, and none is of the future. -/
structure Db.Chronicled (db : Db) (now : Millis) : Prop where
  sorted : db.steps.rows.Pairwise fun p q => p.2.completedAt ≤ q.2.completedAt
  past : ∀ p ∈ db.steps.rows, p.2.completedAt ≤ now

variable {db : Db} {now : Millis} {s : Stmt} {ss : List Stmt}

theorem mem_history {name : String} {row : StepRow} :
    (name, row) ∈ db.history id ↔ db.steps.get? (id, name) = some row := by
  rw [← Table.mem_rows_iff]
  simp only [Db.history, List.mem_map, List.mem_filter, decide_eq_true_eq, Prod.mk.injEq]
  constructor
  · rintro ⟨⟨⟨id', name'⟩, row'⟩, ⟨hmem, rfl⟩, rfl, rfl⟩
    exact hmem
  · exact fun hmem => ⟨((id, name), row), ⟨hmem, rfl⟩, rfl, rfl⟩

theorem Db.Chronicled.exec (h : db.Chronicled now) (hs : s.stamped now = true) :
    (exec db s).Chronicled now := by
  cases s with
  | cacheStep id' name output time =>
    obtain rfl : time = now := of_decide_eq_true hs
    have hsub : (db.steps.erase (id', name)).rows.Sublist db.steps.rows := List.filter_sublist
    constructor
    · refine List.pairwise_append.mpr ⟨h.sorted.sublist hsub, List.pairwise_singleton .., ?_⟩
      intro p hp q hq
      obtain rfl := List.mem_singleton.mp hq
      exact h.past p (hsub.subset hp)
    · intro p hp
      rcases List.mem_append.mp hp with hp | hp
      · exact h.past p (hsub.subset hp)
      · obtain rfl := List.mem_singleton.mp hp
        exact le_rfl
  | deleteSteps id' | deleteStepsFrom id' time =>
    exact ⟨h.sorted.sublist List.filter_sublist,
      fun p hp => h.past p (List.filter_sublist.subset hp)⟩
  | _ => exact ⟨h.sorted, h.past⟩

theorem Db.Chronicled.execAll (h : db.Chronicled now) (hs : ∀ s ∈ ss, s.stamped now = true) :
    (execAll db ss).Chronicled now := by
  induction ss generalizing db with
  | nil => exact h
  | cons s ss ih =>
    exact ih (h.exec (hs s List.mem_cons_self)) fun s' hs' => hs s' (List.mem_cons_of_mem s hs')

theorem Db.Chronicled.mono (h : db.Chronicled now) {later : Millis} (hle : now ≤ later) :
    db.Chronicled later :=
  ⟨h.sorted, fun p hp => (h.past p hp).trans hle⟩

/-! ### What a segment writes is of its time -/

theorem stamped_cacheStep {name : String} {output : Option Recorded}
    (h : cacheStep cfg id name output now = .ok ss) : ∀ s ∈ ss, s.stamped now = true := by
  rw [cacheStep_keeps h]
  exact List.forall_mem_singleton.mpr (decide_eq_true rfl)

section Bodies

variable {m : Memory} {k : ℕ} {x : Call} {g : Seg} {o : Op} {name : String}

theorem stamped_attemptLoop {plan : RetryPlan} {n : ℕ} {err : Option String} :
    ∀ s ∈ (attemptLoop w m k x plan n err).stmts, s.stamped w.clock = true := by
  unfold attemptLoop
  split
  · exact List.forall_mem_nil _
  · split <;> exact List.forall_mem_nil _

theorem stamped_sleepFor (hss : ∀ s ∈ ss, s.stamped w.clock = true) {ms : Millis} :
    ∀ s ∈ (sleepFor w m k x ss ms).stmts, s.stamped w.clock = true := by
  unfold sleepFor
  split <;> exact hss

theorem stamped_sleepBody {d : Duration} :
    ∀ s ∈ (sleepBody cfg w m k x name d).stmts, s.stamped w.clock = true := by
  simp only [sleepBody]
  split
  · split
    · exact stamped_sleepFor (List.forall_mem_nil _)
    · exact List.forall_mem_nil _
  · split
    · exact List.forall_mem_nil _
    · split
      · exact List.forall_mem_nil _
      · split
        · exact List.forall_mem_nil _
        · next hcache => exact stamped_sleepFor (stamped_cacheStep hcache)

theorem stamped_sleepUntilBody {t : Millis} :
    ∀ s ∈ (sleepUntilBody cfg w m k x name t).stmts, s.stamped w.clock = true := by
  simp only [sleepUntilBody]
  split
  · exact stamped_sleepFor (List.forall_mem_nil _)
  · split
    · exact List.forall_mem_nil _
    · split
      · exact List.forall_mem_nil _
      · next hcache => exact stamped_sleepFor (stamped_cacheStep hcache)

theorem stamped_recordEvent (hss : ∀ s ∈ ss, s.stamped w.clock = true) {ty : String}
    {payload : Option Json} {timestamp : Millis} :
    ∀ s ∈ (recordEvent cfg m k x ss name ty payload timestamp w.clock).stmts,
      s.stamped w.clock = true := by
  have hwoken : ∀ s ∈ ss ++ [Stmt.setStatus x.instanceId .running w.clock],
      s.stamped w.clock = true :=
    List.forall_mem_append.mpr ⟨hss, List.forall_mem_singleton.mpr rfl⟩
  unfold recordEvent
  split
  · next hcache => exact List.forall_mem_append.mpr ⟨hwoken, stamped_cacheStep hcache⟩
  · exact hwoken

theorem stamped_waitForEventBody {ty : String} {timeout : Option Duration} :
    ∀ s ∈ (waitForEventBody cfg w m k x name ty timeout).stmts, s.stamped w.clock = true := by
  have hwaiting : ∀ s ∈ [Stmt.setStatus x.instanceId .waiting w.clock],
      s.stamped w.clock = true := List.forall_mem_singleton.mpr rfl
  simp only [waitForEventBody]
  split
  · exact List.forall_mem_nil _
  · split
    · exact List.forall_mem_nil _
    · split
      · exact stamped_recordEvent
          (List.forall_mem_append.mpr ⟨hwaiting, List.forall_mem_singleton.mpr rfl⟩)
      · split <;> exact hwaiting

theorem stamped_enter : ∀ s ∈ (enter cfg w k x).stmts, s.stamped w.clock = true := by
  unfold enter
  split
  · exact List.forall_mem_nil _
  · split
    · exact List.forall_mem_nil _
    · dsimp only
      split
      · simp only [doBody]
        split
        · exact List.forall_mem_nil _
        · split
          · exact List.forall_mem_nil _
          · exact stamped_attemptLoop
      · exact stamped_sleepBody
      · exact stamped_sleepUntilBody
      · exact stamped_waitForEventBody

theorem stamped_attemptFails {plan : RetryPlan} {n : ℕ} {err : Thrown} :
    ∀ s ∈ (attemptFails w k x name plan n err).stmts, s.stamped w.clock = true := by
  rcases attemptFails_cases w k x name plan n err with ⟨-, ⟨due, heq⟩ | heq⟩ | ⟨-, heq⟩
  all_goals
    rw [heq]
    exact List.forall_mem_singleton.mpr rfl

theorem stamped_callbackSettles {config : StepConfig} {plan : RetryPlan} {n : ℕ}
    {outcome : CallbackOutcome} :
    ∀ s ∈ (callbackSettles cfg w k x name config plan n outcome).stmts,
      s.stamped w.clock = true := by
  simp only [callbackSettles]
  split
  · split
    · next hcache =>
        exact List.forall_mem_append.mpr
          ⟨stamped_cacheStep hcache, List.forall_mem_singleton.mpr rfl⟩
    · exact stamped_attemptFails
  · exact stamped_attemptFails
  · exact List.forall_mem_nil _
  · exact stamped_attemptFails

theorem stamped_callSegment (h : callSegment cfg w k x o = some g) :
    ∀ s ∈ g.stmts, s.stamped w.clock = true := by
  cases o with
  | poll k' =>
    simp only [callSegment] at h
    split at h
    · split at h
      · obtain rfl := Option.some.inj h
        unfold pollPaused
        split <;> exact List.forall_mem_nil _
      · cases h
    · cases h
  | enter k' =>
    simp only [callSegment] at h
    split at h
    · obtain rfl := Option.some.inj h
      exact stamped_enter
    · cases h
  | callback k' outcome =>
    simp only [callSegment] at h
    split at h
    · split at h
      · split at h
        · obtain rfl := Option.some.inj h
          exact stamped_callbackSettles
        · cases h
      · obtain rfl := Option.some.inj h
        exact stamped_callbackSettles
    · cases h
  | retry k' =>
    simp only [callSegment] at h
    split at h
    · split at h
      · obtain rfl := Option.some.inj h
        exact stamped_attemptLoop
      · cases h
    · cases h
  | sleepOver k' | eventTimeout k' =>
    simp only [callSegment] at h
    split at h
    · split at h
      · obtain rfl := Option.some.inj h
        exact List.forall_mem_nil _
      · cases h
    · cases h
  | eventResume k' =>
    simp only [callSegment] at h
    split at h
    · obtain rfl := Option.some.inj h
      exact stamped_recordEvent (List.forall_mem_nil _)
    · cases h
  | _ => cases h

/-- The operations that continue no call complete no step. -/
theorem completes_nothing (ho : o.call? = none) (hg : segment cfg w o = some g) :
    ∀ s ∈ g.stmts, ∀ now, s.stamped now = true := by
  cases o with
  | create id? params =>
    obtain rfl := Option.some.inj hg
    have hcleanup : ∀ s ∈ cleanupRetentionExpired cfg w.db w.clock,
        ∀ now, s.stamped now = true := by
      intro s hs now
      unfold cleanupRetentionExpired at hs
      split at hs
      · cases hs
      · rcases List.mem_append.mp hs with hs | hs
        · obtain ⟨id', -, rfl⟩ := List.mem_map.mp hs
          rfl
        · obtain rfl := List.mem_singleton.mp hs
          rfl
    rcases create_cases cfg w id? params with ⟨-, hstmts, -⟩ | ⟨_, _, -, -, -, -, -, hstmts, -⟩
    · rw [hstmts]
      exact hcleanup
    · rw [hstmts]
      exact List.forall_mem_append.mpr
        ⟨hcleanup, List.forall_mem_singleton.mpr fun _ => rfl⟩
  | pause id | resume id | terminate id =>
    obtain rfl := Option.some.inj hg
    exact List.forall_mem_singleton.mpr fun _ => rfl
  | restart id fromStep =>
    obtain rfl := Option.some.inj hg
    rcases restart_cases w id fromStep with ⟨-, heq⟩ | ⟨row, -, ⟨_, -, -, -, hstmts, -⟩ | hrestarts⟩
    · rw [heq]
      exact List.forall_mem_nil _
    · rw [hstmts]
      exact List.forall_mem_nil _
    · obtain ⟨s, hs, -, hstmts, -⟩ := hrestarts
      rw [hstmts]
      refine List.forall_mem_cons.mpr ⟨fun now => ?_, List.forall_mem_cons.mpr
        ⟨fun _ => rfl, List.forall_mem_singleton.mpr fun _ => rfl⟩⟩
      rcases hs with rfl | ⟨t, rfl⟩ <;> rfl
  | skipSleep id =>
    obtain rfl := Option.some.inj hg
    unfold skipSleep
    split <;> exact List.forall_mem_nil _
  | sendEvent id ty payload =>
    obtain rfl := Option.some.inj hg
    unfold sendEvent
    split
    · exact List.forall_mem_nil _
    · split
      · exact List.forall_mem_nil _
      · exact List.forall_mem_singleton.mpr fun _ => rfl
  | call c method =>
    obtain ⟨r, -, rfl⟩ := Option.map_eq_some_iff.mp hg
    simp only [stepCall]
    split
    · exact List.forall_mem_nil _
    · split <;> exact List.forall_mem_nil _
  | runSettles c outcome =>
    obtain ⟨r, -, hg⟩ := Option.bind_eq_some_iff.mp hg
    split at hg
    · obtain rfl := Option.some.inj hg
      exact List.forall_mem_nil _
    · cases hg
  | runEnds c =>
    obtain ⟨r, -, hg⟩ := Option.bind_eq_some_iff.mp hg
    split at hg
    · next outcome _ =>
        obtain rfl := Option.some.inj hg
        have hend : ∀ s ∈ endStmts (w.mem.aborted c) r.instanceId w.clock outcome,
            ∀ now, s.stamped now = true := by
          rcases outcome with (err | output) | err
          · simp only [endStmts]
            split
            · exact List.forall_mem_nil _
            · exact List.forall_mem_singleton.mpr fun _ => rfl
          · simp only [endStmts]
            split
            · exact List.forall_mem_nil _
            · exact List.forall_mem_cons.mpr
                ⟨fun _ => rfl, List.forall_mem_singleton.mpr fun _ => rfl⟩
          · simp only [endStmts]
            split <;> exact List.forall_mem_singleton.mpr fun _ => rfl
        simp only [executeEnd]
        split
        · exact List.forall_mem_append.mpr ⟨hend, List.forall_mem_singleton.mpr fun _ => rfl⟩
        · exact hend
    · cases hg
  | _ => cases ho

/-- **Timestamps.** What a segment writes into the step cache is of its time. -/
theorem stamped_segment (hg : segment cfg w o = some g) :
    ∀ s ∈ g.stmts, s.stamped w.clock = true := by
  cases ho : o.call? with
  | none => exact fun s hs => completes_nothing ho hg s hs w.clock
  | some k =>
    obtain ⟨x, -, hcall⟩ := callSegment_of_segment ho hg
    exact stamped_callSegment hcall

end Bodies

/-! ### The order of the rows -/

theorem Db.Chronicled.act {a : Action} (h : w.db.Chronicled w.clock)
    (hstep : act cfg w a = some w') : w'.db.Chronicled w'.clock := by
  have hresumed : ∀ w₀ w₁ : World, w₀.db.Chronicled w₀.clock → Resumed w₀ w₁ →
      w₁.db.Chronicled w₁.clock := by
    intro w₀ w₁ h₀ hres
    rw [hres.clock]
    exact ⟨hres.steps ▸ h₀.sorted, hres.steps ▸ h₀.past⟩
  cases a with
  | op o =>
    obtain ⟨g, hg, rfl⟩ := Option.map_eq_some_iff.mp hstep
    exact h.execAll (stamped_segment hg)
  | tick ms =>
    obtain rfl := Option.some.inj hstep
    exact h.mono (Int.le_add_of_nonneg_right (Int.natCast_nonneg ms))
  | crashIn o n again =>
    obtain ⟨g, hg, rfl⟩ := Option.map_eq_some_iff.mp hstep
    exact hresumed { w with db := Workflow.execAll w.db (g.stmts.take n) } _
      (h.execAll fun s hs => stamped_segment hg s (List.mem_of_mem_take hs))
      (resumed_resumeAfter _ again)
  | crash again =>
    obtain rfl := Option.some.inj hstep
    exact hresumed w _ h (resumed_resumeAfter w again)

/-- In every state that can be reached the rows are in the order of their timestamps. -/
theorem chronicled_of_reaches {ok : World → Action → Prop} (h : Reaches (act cfg) ok .init w) :
    w.db.Chronicled w.clock :=
  h.invariant (I := fun w => w.db.Chronicled w.clock)
    ⟨List.Pairwise.nil, List.forall_mem_nil _⟩ fun _ _ _ hI _ hstep => hI.act hstep

/-! ### The cut -/

/-- The rows of an instance that `restart` keeps when it restarts from a step. -/
theorem history_deleteStepsFrom (db : Db) (id : String) (time : Millis) :
    (exec db (.deleteStepsFrom id time)).history id =
      (db.history id).filter fun p => p.2.completedAt < time := by
  simp only [Db.history, exec, Table.filter, List.filter_filter, List.filter_map]
  refine congrArg _ (List.filter_congr ?_)
  rintro ⟨⟨id', name⟩, row⟩ -
  by_cases hid : id' = id
  · by_cases hlt : row.completedAt < time
    · simp [hid, hlt, not_le.mpr hlt]
    · simp [hid, hlt, not_lt.mp hlt]
  · simp [hid]

theorem history_deleteSteps (db : Db) (id : String) :
    (exec db (.deleteSteps id)).history id = [] := by
  simp only [Db.history, exec, Table.filter, List.filter_filter, List.map_eq_nil_iff,
    List.filter_eq_nil_iff]
  rintro ⟨⟨id', name⟩, row⟩ -
  by_cases hid : id' = id <;> simp [hid]

/-- A sorted history cut at the timestamp of a step. -/
theorem filter_lt_eq_iff {before after : List (String × StepRow)} {row : StepRow}
    (h : (before ++ (step, row) :: after).Pairwise fun p q => p.2.completedAt ≤ q.2.completedAt) :
    (before ++ (step, row) :: after).filter (fun p => p.2.completedAt < row.completedAt) =
        before ↔
      ∀ p ∈ before, p.2.completedAt ≠ row.completedAt := by
  obtain ⟨-, hrest, hle⟩ := List.pairwise_append.mp h
  have hafter : ((step, row) :: after).filter
      (fun p => p.2.completedAt < row.completedAt) = [] := by
    rw [List.filter_eq_nil_iff]
    intro p hp hlt
    have hlt := of_decide_eq_true hlt
    rcases List.mem_cons.mp hp with rfl | hp
    · exact absurd hlt (lt_irrefl _)
    · exact absurd hlt (not_lt.mpr ((List.pairwise_cons.mp hrest).1 p hp))
  rw [List.filter_append, hafter, List.append_nil, List.filter_eq_self]
  refine forall_congr' fun p => forall_congr' fun hp => ?_
  have hple := hle p hp (step, row) List.mem_cons_self
  rw [decide_eq_true_eq]
  exact ⟨fun hlt => hlt.ne, fun hne => lt_of_le_of_ne hple hne⟩

/-- **Partial restarts.** In every state that can be reached `restart` from a recorded step leaves
exactly the steps that were completed before it, with their rows, if and only if the instance is
there, no step before it was completed in the same millisecond, and the step has a name or is the
first one. -/
theorem restart_cuts_iff (h : Reaches (act cfg) unguarded .init w)
    {before after : List (String × StepRow)} {row : StepRow}
    (hhistory : w.db.history id = before ++ (step, row) :: after) :
    (w.after (restart w id (some step))).db.history id = before ↔
      (w.db.instances.get? id).isSome ∧ (step = "" → before = []) ∧
        ∀ p ∈ before, p.2.completedAt ≠ row.completedAt := by
  have hsorted : (w.db.history id).Pairwise fun p q => p.2.completedAt ≤ q.2.completedAt :=
    List.pairwise_map.mpr ((chronicled_of_reaches h).sorted.sublist List.filter_sublist)
  have hrecorded : w.db.steps.get? (id, step) = some row := by
    rw [← mem_history, hhistory]
    exact List.mem_append_right before List.mem_cons_self
  cases hinstance : w.db.instances.get? id with
  | none =>
      have hsame : (w.after (restart w id (some step))).db.history id = w.db.history id := by
        simp only [restart, hinstance]
        rfl
      rw [hsame, hhistory]
      refine iff_of_false (fun heq => ?_) fun hall => absurd hall.1 Bool.false_ne_true
      have hlen := congrArg List.length heq
      rw [List.length_append, List.length_cons] at hlen
      omega
  | some instanceRow =>
      by_cases hname : step = ""
      · subst hname
        have hcut : (w.after (restart w id (some ""))).db.history id = [] := by
          have hstmts : (restart w id (some "")).stmts =
              [.deleteSteps id, .deleteAttempts id, .resetInstance id w.clock] := by
            simp only [restart, hinstance]
            rfl
          show (execAll w.db (restart w id (some "")).stmts).history id = []
          rw [hstmts]
          exact history_deleteSteps w.db id
        rw [hcut]
        constructor
        · rintro rfl
          exact ⟨rfl, fun _ => rfl, List.forall_mem_nil _⟩
        · exact fun hall => (hall.2.1 rfl).symm
      · have hcut : (w.after (restart w id (some step))).db.history id =
            (w.db.history id).filter fun p => p.2.completedAt < row.completedAt := by
          have hfrom : (some step).filter (fun s => decide (s ≠ "")) = some step := by
            simp [Option.filter, hname]
          have hstmts : (restart w id (some step)).stmts =
              [.deleteStepsFrom id row.completedAt, .deleteAttempts id,
                .resetInstance id w.clock] := by
            simp only [restart, hinstance, hfrom, restartSteps, hrecorded]
            rfl
          show (execAll w.db (restart w id (some step)).stmts).history id = _
          rw [hstmts]
          exact history_deleteStepsFrom w.db id row.completedAt
        rw [hhistory] at hsorted
        rw [hcut, hhistory, filter_lt_eq_iff hsorted]
        exact ⟨fun hne => ⟨rfl, fun hempty => absurd hempty hname, hne⟩, fun hall => hall.2.2⟩

/-- Two steps that are completed in the same millisecond. -/
def twoSteps : List Action :=
  [.op (.create (some "a") none), .op (.call 0 (.doStep "s" {})), .op (.enter 0),
    .op (.callback 0 (.returned (some "1"))), .op (.call 0 (.doStep "t" {})), .op (.enter 1),
    .op (.callback 1 (.returned (some "2")))]

theorem restart_cuts_two : ∃ w, Reaches (act .defaults) unguarded .init w ∧
    ∃ before after step row, w.db.history "a" = before ++ (step, row) :: after ∧
      ((w.after (restart w "a" (some step))).db.history "a" = before ↔
        (w.db.instances.get? "a").isSome ∧ (step = "" → before = []) ∧
          ∀ p ∈ before, p.2.completedAt ≠ row.completedAt) := by
  have hrun : (play (restrict (act .defaults) unguarded) .init twoSteps).any
      (fun w => decide (w.db.history "a" =
        [("s", ⟨some (.result "1"), 0⟩), ("t", ⟨some (.result "2"), 0⟩)])) = true := by
    decide +kernel
  obtain ⟨w, hreach, hw⟩ := exists_reaches_of_play hrun
  have hhistory : w.db.history "a" = [("s", ⟨some (.result "1"), 0⟩)] ++
    ("t", ⟨some (.result "2"), 0⟩) :: [] := of_decide_eq_true hw
  exact ⟨w, hreach, _, _, _, _, hhistory, restart_cuts_iff hreach hhistory⟩

/-- A restart from the second step runs the first one again. -/
theorem not_cuts : ∃ w, Reaches (act .defaults) unguarded .init w ∧
    ∃ before after step row, w.db.history "a" = before ++ (step, row) :: after ∧
      (w.after (restart w "a" (some step))).db.history "a" ≠ before := by
  have hrun : (play (restrict (act .defaults) unguarded) .init twoSteps).any
      (fun w => decide (w.db.history "a" =
          [("s", ⟨some (.result "1"), 0⟩), ("t", ⟨some (.result "2"), 0⟩)] ∧
        (w.after (restart w "a" (some "t"))).db.history "a" = [])) = true := by
    decide +kernel
  obtain ⟨w, hreach, hw⟩ := exists_reaches_of_play hrun
  obtain ⟨hhistory, hcut⟩ := of_decide_eq_true hw
  refine ⟨w, hreach, [("s", ⟨some (.result "1"), 0⟩)], [], "t", ⟨some (.result "2"), 0⟩,
    hhistory, fun heq => ?_⟩
  cases hcut.symm.trans heq

end Lopata.Workflow
