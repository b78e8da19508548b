import Lopata.Workflow.Calls

/-!
# The Retry Loop

What a continuation of a step call has to do with the retry loop of `do`: nothing, or it comes to
the head of the loop, or an attempt fails.

## Main results

* `enter_cases`: which methods come to the loop after `checkPaused`.
* `callSegment_tried`: every continuation is one of the three.
-/

namespace Lopata.Workflow

variable (cfg : Config)

/-! ### Loops and attempts -/

/-- The retry loop a call is in, and the attempt it has come to. -/
def Suspension.loop : Suspension → Option (RetryPlan × ℕ)
  | .callback plan attempt _ | .retryDelay plan attempt _ => some (plan, attempt)
  | _ => none

/-- The retry loop a call comes to after `checkPaused`, and its first attempt: that of a `do` that
passes its checks and is not cached. -/
def Call.startsLoop (w : World) (x : Call) : Option (RetryPlan × ℕ) :=
  match x.method with
  | .doStep name config =>
      if w.mem.aborted x.run = false ∧ ((w.mem.impls x.run).enroll cfg true name).2 = none ∧
          w.db.steps.get? (x.instanceId, name) = none then
        match retryPlan cfg config with
        | .ok plan =>
            some (plan,
              ((w.db.attempts.get? (x.instanceId, name)).map AttemptRow.failedAttempts).getD 0)
        | .error _ => none
      else none
  | _ => none

/-- The error an attempt fails with, if it is one that is recorded. -/
def CallbackOutcome.failure (x : Call) (name : String) (config : StepConfig) (now : Millis) :
    CallbackOutcome → Option Thrown
  | .returned v =>
      match cacheStep cfg x.instanceId name (v.map .result) now with
      | .ok _ => none
      | .error message => some ⟨"Error", message⟩
  | .threw err => some err
  | .threwNonRetryable _ => none
  | .timedOut =>
      some ⟨"Error", "Step \"" ++ name ++ "\" timed out after " ++
        ((config.timeout.map Duration.show).getD "10 minutes")⟩

/-- The statement records a failed attempt. -/
def Stmt.recordsAttempt : Stmt → Bool
  | .recordAttempt .. => true
  | _ => false

/-- The segment records no attempt and does not throw `undefined`. -/
structure Seg.Quiet (g : Seg) : Prop where
  stmts : ∀ s ∈ g.stmts, s.recordsAttempt = false
  reply : g.reply ≠ .threw none

/-- The continuation of call `k` has nothing to do with its retry loop: it is quiet, and leaves
the call in no loop. -/
structure Seg.Plain (g : Seg) (k : ℕ) : Prop extends g.Quiet where
  calls : ∀ x, g.mem.calls.get? k = some x → x.susp.loop = none

/-- What a continuation of call `k` has to do with its retry loop. -/
inductive Tried (w : World) (k : ℕ) (x : Call) (g : Seg) : Op → Prop
  | plain {o : Op} (hg : g.Plain k)
      (henter : ∀ k', o = .enter k' → x.startsLoop cfg w = none)
      (hretry : ∀ k', o ≠ .retry k')
      (hfails : ∀ k' outcome name config, o = .callback k' outcome →
        x.method = .doStep name config → outcome.failure cfg x name config w.clock = none) :
      Tried w k x g o
  /-- A `do` comes to its loop. -/
  | started {k' : ℕ} {m : Memory} {plan : RetryPlan} {attempt : ℕ} (hx : x.susp = .entered)
      (hloop : x.startsLoop cfg w = some (plan, attempt))
      (hm : ∃ i, m = { w.mem with impls := i })
      (hg : g = attemptLoop w m k x plan attempt none) : Tried w k x g (.enter k')
  /-- The delay after a failed attempt is over. -/
  | retried {k' : ℕ} {plan : RetryPlan} {attempt : ℕ} {due : Option Millis}
      (hx : x.susp = .retryDelay plan attempt due)
      (hg : g = attemptLoop w w.mem k x plan (attempt + 1) none) : Tried w k x g (.retry k')
  /-- An attempt fails. -/
  | failed {k' : ℕ} {outcome : CallbackOutcome} {name : String} {config : StepConfig}
      {plan : RetryPlan} {attempt : ℕ} {due : Millis} {err : Thrown}
      (hx : x.susp = .callback plan attempt due) (hmethod : x.method = .doStep name config)
      (hfailure : outcome.failure cfg x name config w.clock = some err)
      (hg : g = attemptFails w k x name plan attempt err) : Tried w k x g (.callback k' outcome)

variable {cfg} {w : World} {m : Memory} {k : ℕ} {x : Call} {g : Seg} {o : Op} {ss : List Stmt}
  {plan : RetryPlan} {attempt : ℕ}

/-! ### Calls that settle or are suspended again -/

theorem not_settled (hx : (m.settle k).calls.get? k = some x) : False := by
  unfold Memory.settle at hx
  rw [Table.get?_erase, if_pos rfl] at hx
  cases hx

theorem susp_of_suspend {s : Suspension} (hx : (m.suspend k s).calls.get? k = some x) :
    x.susp = s := by
  unfold Memory.suspend at hx
  rw [Table.get?_modify_self] at hx
  obtain ⟨x₀, -, rfl⟩ := Option.map_eq_some_iff.mp hx
  rfl

theorem Seg.Plain.settle (hss : ∀ s ∈ ss, s.recordsAttempt = false) {r : Reply}
    (hr : r ≠ .threw none) : (Seg.settle m k ss r).Plain k :=
  ⟨⟨hss, hr⟩, fun _ hx => (not_settled hx).elim⟩

theorem Seg.Plain.reject (hss : ∀ s ∈ ss, s.recordsAttempt = false) {message : String} :
    (Seg.reject m k ss message).Plain k :=
  .settle hss fun h => by cases h

theorem Seg.Plain.pending (hss : ∀ s ∈ ss, s.recordsAttempt = false) {s : Suspension}
    (hs : s.loop = none) : (⟨ss, m.suspend k s, .pending⟩ : Seg).Plain k :=
  ⟨⟨hss, fun h => by cases h⟩, fun _ hx => susp_of_suspend hx ▸ hs⟩

theorem recordsAttempt_cacheStep {id name : String} {output : Option Recorded} {now : Millis}
    (h : cacheStep cfg id name output now = .ok ss) : ∀ s ∈ ss, s.recordsAttempt = false := by
  unfold cacheStep at h
  split at h
  · cases h
  · obtain rfl := Except.ok.inj h
    intro s hs
    obtain rfl := List.mem_singleton.mp hs
    rfl

/-! ### Methods without a loop -/

theorem plain_sleepFor (hss : ∀ s ∈ ss, s.recordsAttempt = false) {ms : Millis} :
    (sleepFor w m k x ss ms).Plain k := by
  unfold sleepFor
  split
  · exact ⟨⟨hss, fun h => by cases h⟩, fun _ hx =>
      susp_of_suspend (s := .sleeping (timerDue w.clock ms)) hx ▸ rfl⟩
  · exact .settle hss fun h => by cases h

theorem plain_sleepBody {name : String} {d : Duration} :
    (sleepBody cfg w m k x name d).Plain k := by
  simp only [sleepBody]
  split
  · split
    · exact plain_sleepFor (List.forall_mem_nil _)
    · exact .reject (List.forall_mem_nil _)
  · split
    · exact .reject (List.forall_mem_nil _)
    · split
      · exact .reject (List.forall_mem_nil _)
      · split
        · exact .reject (List.forall_mem_nil _)
        · next hcache => exact plain_sleepFor (recordsAttempt_cacheStep hcache)

theorem plain_sleepUntilBody {name : String} {t : Millis} :
    (sleepUntilBody cfg w m k x name t).Plain k := by
  simp only [sleepUntilBody]
  split
  · exact plain_sleepFor (List.forall_mem_nil _)
  · split
    · exact .reject (List.forall_mem_nil _)
    · split
      · exact .reject (List.forall_mem_nil _)
      · next hcache => exact plain_sleepFor (recordsAttempt_cacheStep hcache)

theorem plain_recordEvent (hss : ∀ s ∈ ss, s.recordsAttempt = false) {name ty : String}
    {payload : Option Json} {timestamp now : Millis} :
    (recordEvent cfg m k x ss name ty payload timestamp now).Plain k := by
  have hwoken : ∀ s ∈ ss ++ [Stmt.setStatus x.instanceId .running now],
      s.recordsAttempt = false :=
    List.forall_mem_append.mpr ⟨hss, List.forall_mem_singleton.mpr rfl⟩
  unfold recordEvent
  split
  · next hcache =>
      exact .settle (List.forall_mem_append.mpr ⟨hwoken, recordsAttempt_cacheStep hcache⟩)
        fun h => by cases h
  · exact .reject hwoken

theorem plain_waitForEventBody {name ty : String} {timeout : Option Duration} :
    (waitForEventBody cfg w m k x name ty timeout).Plain k := by
  have hwaiting : ∀ s ∈ [Stmt.setStatus x.instanceId .waiting w.clock],
      s.recordsAttempt = false := List.forall_mem_singleton.mpr rfl
  simp only [waitForEventBody]
  split
  · exact .reject (List.forall_mem_nil _)
  · split
    · exact .settle (List.forall_mem_nil _) fun h => by cases h
    · split
      · exact plain_recordEvent
          (List.forall_mem_append.mpr ⟨hwaiting, List.forall_mem_singleton.mpr rfl⟩)
      · split
        · exact .reject hwaiting
        · next ms _ =>
            refine ⟨⟨hwaiting, fun h => by cases h⟩, fun x' hx' => ?_⟩
            rw [susp_of_suspend (s := .waiting (m.getWaitersForInstance x.instanceId).1
              (timerDue w.clock ms)) hx']
            rfl

/-! ### The head of the loop -/

/-- A call that comes to its loop belongs to an execution that is not aborted, and is a `do` with
this plan. -/
theorem startsLoop_spec (h : x.startsLoop cfg w = some (plan, attempt)) :
    w.mem.aborted x.run = false ∧
      ∃ name config, x.method = .doStep name config ∧ retryPlan cfg config = .ok plan ∧
        attempt = ((w.db.attempts.get? (x.instanceId, name)).map
          AttemptRow.failedAttempts).getD 0 := by
  unfold Call.startsLoop at h
  split at h
  · next name config hmethod =>
      split at h
      · next hadmitted =>
          split at h
          · next plan' hplan =>
              obtain ⟨rfl, rfl⟩ := Prod.mk.inj (Option.some.inj h)
              exact ⟨hadmitted.1, name, config, hmethod, hplan, rfl⟩
          · cases h
      · cases h
  · cases h

/-- A method after `checkPaused` comes to the head of a retry loop, or has nothing to do with
one. -/
theorem enter_cases (cfg : Config) (w : World) (k : ℕ) (x : Call) :
    (∃ plan attempt m, x.startsLoop cfg w = some (plan, attempt) ∧
      (∃ i, m = { w.mem with impls := i }) ∧
      enter cfg w k x = attemptLoop w m k x plan attempt none) ∨
    x.startsLoop cfg w = none ∧ (enter cfg w k x).Plain k := by
  unfold enter
  split
  · next haborted =>
      refine .inr ⟨?_, .reject (List.forall_mem_nil _)⟩
      cases hmethod : x.method <;> simp [Call.startsLoop, hmethod, haborted]
  · next hlive =>
      rw [Bool.not_eq_true] at hlive
      split
      · next impl message henroll =>
          refine .inr ⟨?_, .reject (List.forall_mem_nil _)⟩
          cases hmethod : x.method with
          | doStep name config =>
            rw [hmethod] at henroll
            have hfails : ((w.mem.impls x.run).enroll cfg true name).2 = some message :=
              congrArg Prod.snd henroll
            simp [Call.startsLoop, hmethod, hfails]
          | _ => simp [Call.startsLoop, hmethod]
      · next impl henroll =>
          cases hmethod : x.method with
          | doStep name config =>
            rw [hmethod] at henroll
            have hpasses : ((w.mem.impls x.run).enroll cfg true name).2 = none :=
              congrArg Prod.snd henroll
            simp only [doBody]
            cases hstep : w.db.steps.get? (x.instanceId, name) with
            | some row =>
              refine .inr ⟨by simp [Call.startsLoop, hmethod, hstep], ?_⟩
              exact .settle (List.forall_mem_nil _) fun h => by cases h
            | none =>
              cases hplan : retryPlan cfg config with
              | error message =>
                refine .inr ⟨by simp [Call.startsLoop, hmethod, hplan], ?_⟩
                exact .reject (List.forall_mem_nil _)
              | ok plan =>
                refine .inl ⟨plan, _, _, ?_, ⟨_, rfl⟩, rfl⟩
                simp [Call.startsLoop, hmethod, hlive, hpasses, hstep, hplan]
          | sleep name d =>
            exact .inr ⟨by simp [Call.startsLoop, hmethod], plain_sleepBody⟩
          | sleepUntil name t =>
            exact .inr ⟨by simp [Call.startsLoop, hmethod], plain_sleepUntilBody⟩
          | waitForEvent name ty timeout =>
            exact .inr ⟨by simp [Call.startsLoop, hmethod], plain_waitForEventBody⟩

/-- The head of the loop: the attempts are used up, the execution is aborted, or an attempt
starts. -/
theorem attemptLoop_cases (w : World) (m : Memory) (k : ℕ) (x : Call) (plan : RetryPlan)
    (attempt : ℕ) :
    (plan.maxRetries < attempt ∧
      attemptLoop w m k x plan attempt none = Seg.settle m k [] (.threw none)) ∨
    attempt ≤ plan.maxRetries ∧
      ((w.mem.aborted x.run = true ∧
        attemptLoop w m k x plan attempt none = Seg.reject m k [] terminatedMessage) ∨
      (w.mem.aborted x.run = false ∧ attemptLoop w m k x plan attempt none =
        ⟨[], m.suspend k (.callback plan attempt (timerDue w.clock plan.timeoutMs)), .pending⟩)) := by
  unfold attemptLoop
  split
  · next hover => exact .inl ⟨hover, rfl⟩
  · next hleft =>
      refine .inr ⟨not_lt.mp hleft, ?_⟩
      split
      · next haborted => exact .inl ⟨haborted, rfl⟩
      · next hlive => exact .inr ⟨Bool.not_eq_true _ ▸ hlive, rfl⟩

/-! ### Attempts that end -/

/-- A failed attempt is recorded; then the next one is delayed, or the call rejects. -/
theorem attemptFails_cases (w : World) (k : ℕ) (x : Call) (name : String) (plan : RetryPlan)
    (attempt : ℕ) (err : Thrown) :
    (attempt < plan.maxRetries ∧
      ((∃ due, attemptFails w k x name plan attempt err =
        ⟨[.recordAttempt x.instanceId name (attempt + 1) err.message err.name w.clock],
          w.mem.suspend k (.retryDelay plan attempt due), .pending⟩) ∨
      attemptFails w k x name plan attempt err = Seg.reject w.mem k
        [.recordAttempt x.instanceId name (attempt + 1) err.message err.name w.clock]
        terminatedMessage)) ∨
    plan.maxRetries ≤ attempt ∧ attemptFails w k x name plan attempt err = Seg.reject w.mem k
      [.recordAttempt x.instanceId name (attempt + 1) err.message err.name w.clock]
      err.message := by
  unfold attemptFails
  split
  · next hleft =>
      refine .inl ⟨hleft, ?_⟩
      simp only [retryDelay]
      split
      · exact .inl ⟨none, rfl⟩
      · split
        · exact .inr rfl
        · exact .inl ⟨_, rfl⟩
  · next hover => exact .inr ⟨not_lt.mp hover, rfl⟩

/-- A callback that settles fails an attempt, or leaves the loop. -/
theorem callbackSettles_cases (cfg : Config) (w : World) (k : ℕ) (x : Call) (name : String)
    (config : StepConfig) (plan : RetryPlan) (attempt : ℕ) (outcome : CallbackOutcome) :
    (∃ err, outcome.failure cfg x name config w.clock = some err ∧
      callbackSettles cfg w k x name config plan attempt outcome =
        attemptFails w k x name plan attempt err) ∨
    outcome.failure cfg x name config w.clock = none ∧
      (callbackSettles cfg w k x name config plan attempt outcome).Plain k := by
  cases outcome with
  | returned v =>
    simp only [CallbackOutcome.failure, callbackSettles]
    cases hcache : cacheStep cfg x.instanceId name (v.map .result) w.clock with
    | error message => exact .inl ⟨_, rfl, rfl⟩
    | ok cache =>
      refine .inr ⟨rfl, .settle ?_ ?_⟩
      · exact List.forall_mem_append.mpr
          ⟨recordsAttempt_cacheStep hcache, List.forall_mem_singleton.mpr rfl⟩
      · cases v <;> exact fun h => by cases h
  | threw err => exact .inl ⟨err, rfl, rfl⟩
  | threwNonRetryable message => exact .inr ⟨rfl, .reject (List.forall_mem_nil _)⟩
  | timedOut => exact .inl ⟨_, rfl, rfl⟩

/-- The operation comes to the head of a retry loop or ends an attempt. -/
def Op.tries : Op → Bool
  | .enter _ | .callback _ _ | .retry _ => true
  | _ => false

theorem Tried.aside (hg : g.Plain k) (ho : o.tries = false) : Tried cfg w k x g o := by
  refine .plain hg ?_ ?_ ?_
  · rintro _ rfl
    cases ho
  · rintro _ rfl
    cases ho
  · rintro _ _ _ _ rfl
    cases ho

theorem loop_pauseRound {id : String} : (pauseRound w id).loop = none := by
  unfold pauseRound
  split <;> rfl

/-- **Inversion of a continuation, by the retry loop.** -/
theorem callSegment_tried (h : callSegment cfg w k x o = some g) : Tried cfg w k x g o := by
  cases o with
  | poll k' =>
    simp only [callSegment] at h
    split at h
    · split at h
      · obtain rfl := Option.some.inj h
        refine .aside ?_ rfl
        unfold pollPaused
        split
        · exact .reject (List.forall_mem_nil _)
        · exact .pending (List.forall_mem_nil _) loop_pauseRound
      · cases h
    · cases h
  | enter k' =>
    simp only [callSegment] at h
    split at h
    · next hx =>
        obtain rfl := Option.some.inj h
        rcases enter_cases cfg w k x with
          ⟨plan, attempt, m, hloop, hm, heq⟩ | ⟨hloop, hplain⟩
        · exact .started hx hloop hm heq
        · exact .plain hplain (fun _ _ => hloop) (fun _ h => by cases h)
            fun _ _ _ _ h => by cases h
    · cases h
  | callback k' outcome =>
    simp only [callSegment] at h
    split at h
    · next name config plan attempt due hmethod hx =>
        have heq : g = callbackSettles cfg w k x name config plan attempt outcome := by
          split at h
          · split at h
            · exact (Option.some.inj h).symm
            · cases h
          · exact (Option.some.inj h).symm
        rcases callbackSettles_cases cfg w k x name config plan attempt outcome with
          ⟨err, hfailure, hfails⟩ | ⟨hfailure, hplain⟩
        · exact .failed hx hmethod hfailure (heq.trans hfails)
        · refine .plain (heq ▸ hplain) (fun _ h => by cases h) (fun _ h => by cases h) ?_
          rintro _ _ name' config' h hmethod'
          cases h
          obtain ⟨rfl, rfl⟩ := StepCall.doStep.inj (hmethod.symm.trans hmethod')
          exact hfailure
    · cases h
  | retry k' =>
    simp only [callSegment] at h
    split at h
    · next hx =>
        split at h
        · obtain rfl := Option.some.inj h
          exact .retried hx rfl
        · cases h
    · cases h
  | sleepOver k' =>
    simp only [callSegment] at h
    split at h
    · split at h
      · obtain rfl := Option.some.inj h
        refine .aside ?_ rfl
        exact .settle (List.forall_mem_nil _) fun h => by cases h
      · cases h
    · cases h
  | eventTimeout k' =>
    simp only [callSegment] at h
    split at h
    · split at h
      · obtain rfl := Option.some.inj h
        refine .aside ?_ rfl
        exact .reject (List.forall_mem_nil _)
      · cases h
    · cases h
  | eventResume k' =>
    simp only [callSegment] at h
    split at h
    · obtain rfl := Option.some.inj h
      refine .aside ?_ rfl
      exact plain_recordEvent (List.forall_mem_nil _)
    · cases h
  | _ => cases h

end Lopata.Workflow
