import Lopata.Workflow.Attempts
import Lopata.Workflow.Delivery

/-!
# Retry Budgets

The failed attempts of a step are counted in a table, and the loop of `do` starts from the count,
so that attempts made before a stop of the process count after it. The error is not read from the
table: a `do` that starts with its attempts used up has none to throw.

## Main results

* `counted_act`: the counts that every step keeps.
* `budget_kept_iff`: no count ever exceeds the limit by more than one; and whenever a budget is used
  up `do` rejects with the error recorded last, never with `undefined`, exactly in the runs in which
  no `do` comes to its loop with its attempts used up.
* `not_rejects`: a stop of the process after the last attempt.
-/

namespace Lopata.Workflow

variable (cfg : Config) (limit : String → String → ℕ)

/-! ### Limits and budgets -/

/-- The bodies give a step the same retry limit whenever they call it. -/
def respects (w : World) (a : Action) : Bool :=
  match a.op? with
  | some (.call c (.doStep name config)) =>
      (w.mem.runs.get? c).all fun r =>
        config.limit.getD cfg.limits.defaultRetryLimit = limit r.instanceId name
  | _ => true

/-- The system with bodies that respect the limits of their steps. -/
def actWithin : World → Action → Option World :=
  restrict (act cfg) fun w a => respects cfg limit w a = true

/-- No step has failed more often than its limit allows. -/
def Budgeted (w : World) : Prop :=
  ∀ id name row, w.db.attempts.get? (id, name) = some row → row.failedAttempts ≤ limit id name + 1

/-- The step whose budget turns out to be used up: a `do` comes to the head of its loop with no
attempt left, or its last attempt fails. -/
def exhausts (w : World) : Op → Option (String × String)
  | .enter k =>
      (w.mem.calls.get? k).bind fun x =>
        if x.susp = .entered ∧ (x.startsLoop cfg w).any (fun p => p.1.maxRetries < p.2) then
          some (x.instanceId, x.key)
        else none
  | .retry k =>
      (w.mem.calls.get? k).bind fun x =>
        match x.susp with
        | .retryDelay plan attempt _ =>
            if plan.maxRetries < attempt + 1 then some (x.instanceId, x.key) else none
        | _ => none
  | .callback k outcome =>
      (w.mem.calls.get? k).bind fun x =>
        match x.method, x.susp with
        | .doStep name config, .callback plan attempt _ =>
            if plan.maxRetries ≤ attempt ∧
                (outcome.failure cfg x name config w.clock).isSome then
              some (x.instanceId, name)
            else none
        | _, _ => none
  | _ => none

/-- What an operation throws: never `undefined`, and, where a budget is used up, the error that is
recorded in the end. -/
structure Op.Rejects (w : World) (o : Op) (g : Seg) : Prop where
  defined : g.reply ≠ .threw none
  recorded : ∀ key, exhausts cfg w o = some key →
    ∃ row, (w.after g).db.attempts.get? key = some row ∧ g.reply = .threw (some row.lastError)

/-- The same of a step; a stop of the process lets nothing reject. -/
def Rejects (w : World) : Action → Prop
  | .op o => ∀ g, segment cfg w o = some g → o.Rejects cfg w g
  | _ => True

/-- No `do` comes to its loop with its attempts used up. -/
def Unspent (w : World) (a : Action) : Prop :=
  ∀ k x plan attempt, a = .op (.enter k) → w.mem.calls.get? k = some x → x.susp = .entered →
    x.startsLoop cfg w = some (plan, attempt) → attempt ≤ plan.maxRetries

/-! ### Counts -/

/-- The attempts of a call are counted within its limit. -/
structure Call.Counted (x : Call) : Prop where
  limit : ∀ name config, x.method = .doStep name config →
    config.limit.getD cfg.limits.defaultRetryLimit = limit x.instanceId name
  loop : ∀ plan attempt, x.susp.loop = some (plan, attempt) →
    ∃ name config, x.method = .doStep name config ∧ retryPlan cfg config = .ok plan ∧
      attempt ≤ plan.maxRetries
  delay : ∀ plan attempt due, x.susp = .retryDelay plan attempt due → attempt < plan.maxRetries

/-- The attempts in the table and those of the calls are counted within their limits. -/
structure World.Counted (w : World) : Prop where
  coherent : w.Coherent
  budgeted : Budgeted limit w
  calls : ∀ k x, w.mem.calls.get? k = some x → x.Counted cfg limit

/-- The statement records no attempt beyond the limit. -/
def Stmt.within : Stmt → Prop
  | .recordAttempt id name attempts .. => attempts ≤ limit id name + 1
  | _ => True

variable {cfg limit} {w w' : World} {k : ℕ} {x : Call} {g : Seg} {o : Op}

theorem counted_init : World.init.Counted cfg limit where
  coherent := coherent_init
  budgeted := fun _ _ _ h => by cases h
  calls := fun _ _ h => by cases h

/-- A computation that succeeds did so at its first step. -/
theorem ok_of_bind {α β : Type} {e : Except String α} {f : α → Except String β} {b : β}
    (h : (e >>= f) = .ok b) : ∃ a, e = .ok a ∧ f a = .ok b := by
  cases e with
  | error => cases h
  | ok a => exact ⟨a, rfl, h⟩

theorem maxRetries_of_retryPlan {config : StepConfig} {plan : RetryPlan}
    (h : retryPlan cfg config = .ok plan) :
    plan.maxRetries = config.limit.getD cfg.limits.defaultRetryLimit := by
  simp only [retryPlan] at h
  split at h
  all_goals
    obtain ⟨delayMs, -, h⟩ := ok_of_bind h
    split at h
  all_goals
    obtain ⟨timeoutMs, -, h⟩ := ok_of_bind h
    split at h
    · cases h
    · obtain rfl := Except.ok.inj h
      rfl

/-- The plan of a call in its loop has the limit of its step. -/
theorem Call.Counted.plan (h : x.Counted cfg limit) {plan : RetryPlan} {attempt : ℕ}
    (hloop : x.susp.loop = some (plan, attempt)) :
    ∃ name config, x.method = .doStep name config ∧ attempt ≤ plan.maxRetries ∧
      plan.maxRetries = limit x.instanceId name := by
  obtain ⟨name, config, hmethod, hplan, hle⟩ := h.loop plan attempt hloop
  exact ⟨name, config, hmethod, hle,
    (maxRetries_of_retryPlan hplan).trans (h.limit name config hmethod)⟩

theorem Stmt.within_of_not_recordsAttempt {s : Stmt} (h : s.recordsAttempt = false) :
    s.within limit := by
  cases s <;> trivial

theorem budgeted_exec {db : Db} {s : Stmt} (hs : s.within limit)
    (h : ∀ id name row, db.attempts.get? (id, name) = some row →
      row.failedAttempts ≤ limit id name + 1) :
    ∀ id name row, (exec db s).attempts.get? (id, name) = some row →
      row.failedAttempts ≤ limit id name + 1 := by
  intro id name row hrow
  cases s with
  | recordAttempt id' name' n message errName now =>
    simp only [exec, Table.get?_insert] at hrow
    split at hrow
    · next heq =>
        obtain ⟨rfl, rfl⟩ := Prod.mk.inj heq
        obtain rfl := Option.some.inj hrow
        exact hs
    · exact h id name row hrow
  | deleteAttempt id' name' =>
    simp only [exec, Table.get?_erase] at hrow
    split at hrow
    · cases hrow
    · exact h id name row hrow
  | deleteAttempts id' =>
    simp only [exec, Table.get?_filter, Option.filter_eq_some_iff] at hrow
    exact h id name row hrow.1
  | _ => exact h id name row hrow

theorem budgeted_execAll {db : Db} {ss : List Stmt} (hss : ∀ s ∈ ss, s.within limit)
    (h : ∀ id name row, db.attempts.get? (id, name) = some row →
      row.failedAttempts ≤ limit id name + 1) :
    ∀ id name row, (execAll db ss).attempts.get? (id, name) = some row →
      row.failedAttempts ≤ limit id name + 1 := by
  induction ss generalizing db with
  | nil => exact h
  | cons s ss ih =>
    exact ih (fun s' hs' => hss s' (List.mem_cons_of_mem s hs'))
      (budgeted_exec (hss s List.mem_cons_self) h)

/-! ### Operations without a retry loop -/

theorem recordsAttempt_cleanup (cfg : Config) (db : Db) (now : Millis) :
    ∀ s ∈ cleanupRetentionExpired cfg db now, s.recordsAttempt = false := by
  intro s hs
  unfold cleanupRetentionExpired at hs
  split at hs
  · cases hs
  · rcases List.mem_append.mp hs with hs | hs
    · obtain ⟨id', -, rfl⟩ := List.mem_map.mp hs
      rfl
    · obtain rfl := List.mem_singleton.mp hs
      rfl

theorem quiet_create {id? : Option String} {params : Option Json} :
    (create cfg w id? params).Quiet := by
  have hcleanup := recordsAttempt_cleanup cfg w.db w.clock
  simp only [create, createWith]
  split
  · exact ⟨hcleanup, fun h => by cases h⟩
  · split
    · exact ⟨hcleanup, fun h => by cases h⟩
    · split
      · exact ⟨List.forall_mem_append.mpr ⟨hcleanup, List.forall_mem_singleton.mpr rfl⟩,
          fun h => by cases h⟩
      · exact ⟨List.forall_mem_append.mpr ⟨hcleanup, List.forall_mem_singleton.mpr rfl⟩,
          fun h => by cases h⟩

theorem quiet_restart {id : String} {fromStep : Option String} :
    (restart w id fromStep).Quiet := by
  simp only [restart]
  split
  · exact ⟨List.forall_mem_nil _, fun h => by cases h⟩
  · split
    · exact ⟨List.forall_mem_nil _, fun h => by cases h⟩
    · next stmts hsteps =>
        refine ⟨List.forall_mem_append.mpr ⟨?_, ?_⟩, fun h => by cases h⟩
        · intro s hs
          unfold restartSteps at hsteps
          split at hsteps
          · obtain rfl := Except.ok.inj hsteps
            obtain rfl := List.mem_singleton.mp hs
            rfl
          · split at hsteps
            · obtain rfl := Except.ok.inj hsteps
              obtain rfl := List.mem_singleton.mp hs
              rfl
            · cases hsteps
        · exact List.forall_mem_cons.mpr ⟨rfl, List.forall_mem_singleton.mpr rfl⟩

theorem quiet_executeEnd {c : ℕ} {r : Run} {outcome : Outcome} :
    (executeEnd w c r outcome).Quiet := by
  have hend : ∀ s ∈ endStmts (w.mem.aborted c) r.instanceId w.clock outcome,
      s.recordsAttempt = false := by
    rcases outcome with (err | output) | err
    · simp only [endStmts]
      split
      · exact List.forall_mem_nil _
      · exact List.forall_mem_singleton.mpr rfl
    · simp only [endStmts]
      split
      · exact List.forall_mem_nil _
      · exact List.forall_mem_cons.mpr ⟨rfl, List.forall_mem_singleton.mpr rfl⟩
    · simp only [endStmts]
      split <;> exact List.forall_mem_singleton.mpr rfl
  simp only [executeEnd]
  split
  · exact ⟨List.forall_mem_append.mpr ⟨hend, List.forall_mem_singleton.mpr rfl⟩,
      fun h => by cases h⟩
  · exact ⟨hend, fun h => by cases h⟩

/-- An operation that continues no call records no attempt and does not throw `undefined`. -/
theorem quiet_segment (ho : o.call? = none) (hg : segment cfg w o = some g) : g.Quiet := by
  cases o with
  | create id? params =>
    obtain rfl := Option.some.inj hg
    exact quiet_create
  | pause id | resume id | terminate id =>
    obtain rfl := Option.some.inj hg
    exact ⟨List.forall_mem_singleton.mpr rfl, fun h => by cases h⟩
  | restart id fromStep =>
    obtain rfl := Option.some.inj hg
    exact quiet_restart
  | skipSleep id =>
    obtain rfl := Option.some.inj hg
    unfold skipSleep
    split <;> exact ⟨List.forall_mem_nil _, fun h => by cases h⟩
  | sendEvent id ty payload =>
    obtain rfl := Option.some.inj hg
    unfold sendEvent
    split
    · exact ⟨List.forall_mem_nil _, fun h => by cases h⟩
    · split
      · exact ⟨List.forall_mem_nil _, fun h => by cases h⟩
      · exact ⟨List.forall_mem_singleton.mpr rfl, fun h => by cases h⟩
  | call c method =>
    obtain ⟨r, -, rfl⟩ := Option.map_eq_some_iff.mp hg
    simp only [stepCall]
    split
    · exact ⟨List.forall_mem_nil _, fun h => by cases h⟩
    · split <;> exact ⟨List.forall_mem_nil _, fun h => by cases h⟩
  | runSettles c outcome =>
    obtain ⟨r, -, hg⟩ := Option.bind_eq_some_iff.mp hg
    split at hg
    · obtain rfl := Option.some.inj hg
      exact ⟨List.forall_mem_nil _, fun h => by cases h⟩
    · cases hg
  | runEnds c =>
    obtain ⟨r, -, hg⟩ := Option.bind_eq_some_iff.mp hg
    split at hg
    · obtain rfl := Option.some.inj hg
      exact quiet_executeEnd
    · cases hg
  | _ => cases ho

/-- An operation that continues a call. -/
theorem tried_of_segment (ho : o.call? = some k) (hg : segment cfg w o = some g) :
    ∃ x, w.mem.calls.get? k = some x ∧ Tried cfg w k x g o := by
  obtain ⟨x, hx, hcall⟩ := callSegment_of_segment ho hg
  exact ⟨x, hx, callSegment_tried hcall⟩

/-! ### Every step keeps the counts -/

/-- A failed attempt is counted within the limit. -/
theorem Call.Counted.within (h : x.Counted cfg limit) {plan : RetryPlan} {attempt : ℕ}
    {due : Millis} {name : String} {config : StepConfig} {err : Thrown} {now : Millis}
    (hx : x.susp = .callback plan attempt due) (hmethod : x.method = .doStep name config) :
    (Stmt.recordAttempt x.instanceId name (attempt + 1) err.message err.name now).within
      limit := by
  obtain ⟨name', config', hmethod', hle, hlimit⟩ := h.plan (by rw [hx]; rfl)
  obtain ⟨rfl, rfl⟩ := StepCall.doStep.inj (hmethod.symm.trans hmethod')
  exact Nat.succ_le_succ (hlimit ▸ hle)

theorem within_segment (h : w.Counted cfg limit) (hg : segment cfg w o = some g) :
    ∀ s ∈ g.stmts, s.within limit := by
  cases ho : o.call? with
  | none =>
    exact fun s hs => Stmt.within_of_not_recordsAttempt ((quiet_segment ho hg).stmts s hs)
  | some k =>
    obtain ⟨x, hx, htried⟩ := tried_of_segment ho hg
    have hcounted := h.calls k x hx
    cases htried with
    | plain hplain =>
      exact fun s hs => Stmt.within_of_not_recordsAttempt (hplain.stmts s hs)
    | started _ _ _ heq | retried _ heq =>
      have hnone : g.stmts = [] := by
        rw [heq]
        rcases attemptLoop_cases _ _ _ _ _ _ with ⟨-, heq⟩ | ⟨-, ⟨-, heq⟩ | ⟨-, heq⟩⟩
          <;> rw [heq] <;> rfl
      rw [hnone]
      exact List.forall_mem_nil _
    | failed hsusp hmethod _ heq =>
      rw [heq]
      rcases attemptFails_cases _ _ _ _ _ _ _ with ⟨-, ⟨due, heq⟩ | heq⟩ | ⟨-, heq⟩
        <;> rw [heq] <;>
        exact List.forall_mem_singleton.mpr (hcounted.within hsusp hmethod)

theorem not_retryDelay_of_loop {s : Suspension} (h : s.loop = none) {plan : RetryPlan}
    {attempt : ℕ} {due : Option Millis} : s ≠ .retryDelay plan attempt due := by
  rintro rfl
  cases h

/-- A call that is suspended again, outside its loop. -/
theorem Call.Counted.outside (h : x.Counted cfg limit) {s : Suspension} (hs : s.loop = none) :
    ({ x with susp := s } : Call).Counted cfg limit where
  limit := h.limit
  loop _ _ hloop := by cases hs.symm.trans hloop
  delay _ _ _ hdelay := absurd hdelay (not_retryDelay_of_loop hs)

/-- The calls after an operation. -/
theorem calls_segment (h : w.Counted cfg limit) (hlimit : respects cfg limit w (.op o) = true)
    (hg : segment cfg w o = some g) (hx : g.mem.calls.get? k = some x) : x.Counted cfg limit := by
  cases callFrom_of_segment h.coherent.linked hg hx with
  | old hk => exact h.calls k x hk
  | @called c r method ho hr hab hx =>
    subst hx
    refine ⟨?_, fun plan attempt hloop => ?_, fun plan attempt due hdelay => ?_⟩
    · rintro name config rfl
      subst ho
      simp only [respects, Action.op?, hr, Option.all_some, decide_eq_true_eq] at hlimit
      exact hlimit
    · cases loop_pauseRound.symm.trans hloop
    · exact absurd hdelay (not_retryDelay_of_loop loop_pauseRound)
  | given _ _ _ hk _ hx =>
    subst hx
    exact (h.calls k _ hk).outside rfl
  | @continued x₀ s ho hk hsame _ _ =>
    obtain ⟨x₁, hx₁, htried⟩ := tried_of_segment ho hg
    obtain rfl := Option.some.inj (hk.symm.trans hx₁)
    have hcounted := h.calls k x₀ hk
    have hs : x.susp = s := by rw [hsame]
    subst hsame
    cases htried with
    | plain hplain => exact hcounted.outside (hplain.calls _ hx)
    | started hsusp hloop _ heq =>
      rw [heq] at hx
      rcases attemptLoop_cases _ _ _ _ _ _ with ⟨-, heq⟩ | ⟨hleft, ⟨-, heq⟩ | ⟨-, heq⟩⟩
        <;> rw [heq] at hx
      · exact (not_settled hx).elim
      · exact (not_settled hx).elim
      · obtain rfl : s = _ := susp_of_suspend hx
        obtain ⟨-, name, config, hmethod, hplan, -⟩ := startsLoop_spec hloop
        refine ⟨hcounted.limit, fun plan' attempt' hloop => ?_, fun _ _ _ h => by cases h⟩
        obtain ⟨rfl, rfl⟩ := Prod.mk.inj (Option.some.inj hloop)
        exact ⟨name, config, hmethod, hplan, hleft⟩
    | retried hsusp heq =>
      rw [heq] at hx
      rcases attemptLoop_cases _ _ _ _ _ _ with ⟨-, heq⟩ | ⟨hleft, ⟨-, heq⟩ | ⟨-, heq⟩⟩
        <;> rw [heq] at hx
      · exact (not_settled hx).elim
      · exact (not_settled hx).elim
      · obtain rfl : s = _ := susp_of_suspend hx
        obtain ⟨name, config, hmethod, hplan, -⟩ := hcounted.loop _ _ (by rw [hsusp]; rfl)
        refine ⟨hcounted.limit, fun plan' attempt' hloop => ?_, fun _ _ _ h => by cases h⟩
        obtain ⟨rfl, rfl⟩ := Prod.mk.inj (Option.some.inj hloop)
        exact ⟨name, config, hmethod, hplan, hleft⟩
    | failed hsusp _ _ heq =>
      rw [heq] at hx
      rcases attemptFails_cases _ _ _ _ _ _ _ with ⟨hleft, ⟨due, heq⟩ | heq⟩ | ⟨-, heq⟩
        <;> rw [heq] at hx
      · obtain rfl : s = _ := susp_of_suspend hx
        obtain ⟨name, config, hmethod, hplan, hle⟩ := hcounted.loop _ _ (by rw [hsusp]; rfl)
        refine ⟨hcounted.limit, fun plan' attempt' hloop => ?_, fun _ _ _ hdelay => ?_⟩
        · obtain ⟨rfl, rfl⟩ := Prod.mk.inj (Option.some.inj hloop)
          exact ⟨name, config, hmethod, hplan, hle⟩
        · obtain ⟨rfl, rfl, -⟩ := Suspension.retryDelay.inj hdelay
          exact hleft
      · exact (not_settled hx).elim
      · exact (not_settled hx).elim

/-- **Every step keeps the counts.** -/
theorem counted_act {a : Action} (h : w.Counted cfg limit)
    (hstep : actWithin cfg limit w a = some w') : w'.Counted cfg limit := by
  obtain ⟨hlimit, hstep⟩ := restrict_eq_some.mp hstep
  have hcoherent := h.coherent.act hstep
  have hresumed : ∀ {w₀ : World}, Budgeted limit w₀ → Resumed w₀ w' → w'.Counted cfg limit := by
    intro w₀ hbudgeted hres
    refine ⟨hcoherent, ?_, fun k x hx => ?_⟩
    · unfold Budgeted
      rw [hres.attempts]
      exact hbudgeted
    · cases (calls_of_resumed hres k).symm.trans hx
  cases a with
  | op o =>
    obtain ⟨g, hg, rfl⟩ := Option.map_eq_some_iff.mp hstep
    exact ⟨hcoherent, budgeted_execAll (within_segment h hg) h.budgeted,
      fun k x hx => calls_segment h hlimit hg hx⟩
  | tick ms =>
    obtain rfl := Option.some.inj hstep
    exact ⟨hcoherent, h.budgeted, h.calls⟩
  | crash again =>
    obtain rfl := Option.some.inj hstep
    exact hresumed h.budgeted (resumed_resumeAfter w again)
  | crashIn o n again =>
    obtain ⟨g, hg, rfl⟩ := Option.map_eq_some_iff.mp hstep
    refine hresumed ?_ (resumed_resumeAfter _ again)
    exact budgeted_execAll (fun s hs => within_segment h hg s (List.mem_of_mem_take hs))
      h.budgeted

/-! ### Budgets that are used up -/

/-- An operation that continues no call uses no budget up. -/
theorem exhausts_of_call? (ho : o.call? = none) : exhausts cfg w o = none := by
  cases o <;> first | rfl | cases ho

/-- A call that has nothing to do with its loop uses no budget up. -/
theorem exhausts_of_plain (ho : o.call? = some k) (hx : w.mem.calls.get? k = some x)
    (henter : ∀ k', o = .enter k' → x.startsLoop cfg w = none) (hretry : ∀ k', o ≠ .retry k')
    (hfails : ∀ k' outcome name config, o = .callback k' outcome →
      x.method = .doStep name config → outcome.failure cfg x name config w.clock = none) :
    exhausts cfg w o = none := by
  cases o with
  | enter k' =>
    obtain rfl := Option.some.inj ho
    simp [exhausts, hx, henter k' rfl]
  | retry k' => exact absurd rfl (hretry k')
  | callback k' outcome =>
    obtain rfl := Option.some.inj ho
    simp only [exhausts, hx, Option.bind_some]
    split
    · next name config plan attempt due hmethod hsusp =>
        rw [hfails k' outcome name config rfl hmethod]
        exact if_neg fun h => by cases h.2
    · rfl
  | _ => rfl

/-- **Exactly the calls that come to their loop with attempts left reject as they should.** -/
theorem rejects_iff (h : w.Counted cfg limit) (hg : segment cfg w o = some g) :
    o.Rejects cfg w g ↔ Unspent cfg w (.op o) := by
  cases ho : o.call? with
  | none =>
    refine iff_of_true ⟨(quiet_segment ho hg).reply, fun key hkey => ?_⟩ ?_
    · cases (exhausts_of_call? ho).symm.trans hkey
    · rintro k x plan attempt heq
      obtain rfl := Action.op.inj heq
      cases ho
  | some k =>
    obtain ⟨x, hx, htried⟩ := tried_of_segment ho hg
    have hcounted := h.calls k x hx
    cases htried with
    | plain hplain henter hretry hfails =>
      refine iff_of_true ⟨hplain.reply, fun key hkey => ?_⟩ ?_
      · cases (exhausts_of_plain ho hx henter hretry hfails).symm.trans hkey
      · rintro k' x' plan attempt heq hx' - hloop
        obtain rfl := Action.op.inj heq
        obtain rfl := Option.some.inj ho
        obtain rfl := Option.some.inj (hx.symm.trans hx')
        cases (henter _ rfl).symm.trans hloop
    | @started k' m plan attempt hsusp hloop _ heq =>
      obtain rfl := Option.some.inj ho
      rcases attemptLoop_cases w m k' x plan attempt with ⟨hover, hout⟩ | ⟨hleft, hgoes⟩
      · refine iff_of_false (fun hrejects => hrejects.defined ?_) fun hunspent => ?_
        · rw [heq, hout]
          rfl
        · exact absurd (hunspent k' x plan attempt rfl hx hsusp hloop) (not_le.mpr hover)
      · refine iff_of_true ⟨?_, fun key hkey => ?_⟩ ?_
        · rw [heq]
          rcases hgoes with ⟨-, hgoes⟩ | ⟨-, hgoes⟩ <;> rw [hgoes] <;> exact fun h => by cases h
        · simp [exhausts, hx, hloop, not_lt.mpr hleft] at hkey
        · rintro k x' plan' attempt' hop hx' - hloop'
          obtain rfl := Op.enter.inj (Action.op.inj hop)
          obtain rfl := Option.some.inj (hx.symm.trans hx')
          obtain ⟨rfl, rfl⟩ := Prod.mk.inj (Option.some.inj (hloop.symm.trans hloop'))
          exact hleft
    | @retried k' plan attempt due hsusp heq =>
      obtain rfl := Option.some.inj ho
      have hleft := hcounted.delay plan attempt due hsusp
      refine iff_of_true ⟨?_, fun key hkey => ?_⟩ fun _ _ _ _ hop => by cases hop
      · rw [heq]
        rcases attemptLoop_cases _ _ _ _ _ _ with ⟨hover, -⟩ | ⟨-, ⟨-, hgoes⟩ | ⟨-, hgoes⟩⟩
        · exact absurd hover (not_lt.mpr hleft)
        · rw [hgoes]
          exact fun h => by cases h
        · rw [hgoes]
          exact fun h => by cases h
      · simp only [exhausts, hx, Option.bind_some, hsusp, Option.ite_none_right_eq_some] at hkey
        exact absurd hkey.1 (not_lt.mpr hleft)
    | @failed k' outcome name config plan attempt due err hsusp hmethod hfailure heq =>
      obtain rfl := Option.some.inj ho
      refine iff_of_true ⟨?_, fun key hkey => ?_⟩ fun _ _ _ _ hop => by cases hop
      · rw [heq]
        rcases attemptFails_cases _ _ _ _ _ _ _ with ⟨-, ⟨due, hout⟩ | hout⟩ | ⟨-, hout⟩
          <;> rw [hout] <;>
          exact fun h => by cases h
      · simp only [exhausts, hx, Option.bind_some, hmethod, hsusp, hfailure, Option.isSome_some,
          and_true, Option.ite_none_right_eq_some, Option.some.injEq] at hkey
        obtain ⟨hover, rfl⟩ := hkey
        rcases attemptFails_cases w k' x name plan attempt err with ⟨hleft, -⟩ | ⟨-, hout⟩
        · exact absurd hover (not_le.mpr hleft)
        · refine ⟨⟨attempt + 1, err.message, err.name, w.clock⟩, ?_, ?_⟩
          · rw [heq, hout]
            exact Table.get?_insert_self ..
          · rw [heq, hout]
            rfl

theorem rejects_act_iff {a : Action} (h : w.Counted cfg limit)
    (hstep : actWithin cfg limit w a = some w') : Rejects cfg w a ↔ Unspent cfg w a := by
  obtain ⟨-, hstep⟩ := restrict_eq_some.mp hstep
  cases a with
  | op o =>
    obtain ⟨g, hg, -⟩ := Option.map_eq_some_iff.mp hstep
    rw [← rejects_iff h hg]
    refine ⟨fun hrejects => hrejects g hg, fun hrejects g' hg' => ?_⟩
    obtain rfl := Option.some.inj (hg.symm.trans hg')
    exact hrejects
  | _ => exact iff_of_true trivial fun _ _ _ _ heq => by cases heq

/-! ### The results -/

/-- **Retry budgets.** In every run of bodies that give each step one limit no step has ever more
failed attempts than its limit and one. And a budget that is used up makes `do` reject with the
error recorded last, and nothing rejects with `undefined`, exactly in the runs in which no `do` comes
to its loop with its attempts used up. -/
theorem budget_kept_iff (cfg : Config) (limit : String → String → ℕ) (as : List Action) :
    (Throughout (actWithin cfg limit) (Budgeted limit) .init as ∧
      Along (actWithin cfg limit) (Rejects cfg) .init as ↔
        Along (actWithin cfg limit) (Unspent cfg) .init as) ∧
    Throughout (actWithin cfg limit) (Budgeted limit) .init as := by
  have hbudgeted : Throughout (actWithin cfg limit) (Budgeted limit) .init as := by
    have hall : Along (actWithin cfg limit) unguarded .init as :=
      Along.of_forall fun _ _ => trivial
    exact hall.throughout (J := World.Counted cfg limit) counted_init (fun _ h => h.budgeted)
      fun _ _ _ h _ hstep => counted_act h hstep
  have hrejects : Along (actWithin cfg limit) (Rejects cfg) .init as ↔
      Along (actWithin cfg limit) (Unspent cfg) .init as :=
    along_iff_along (J := World.Counted cfg limit) counted_init
      (fun _ _ _ h _ hstep => counted_act h hstep) fun _ _ _ h hstep => rejects_act_iff h hstep
  exact ⟨⟨fun h => hrejects.mp h.2, fun h => ⟨hbudgeted, hrejects.mpr h⟩⟩, hbudgeted⟩

/-- The process stops after the only attempt of a step has failed, before the body has ended. -/
def stopAfterLastAttempt : List Action :=
  [.op (.create (some "a") none), .op (.call 0 (.doStep "s" { limit := some 0 })), .op (.enter 0),
    .op (.callback 0 (.threw ⟨"Error", "no"⟩)), .crash [],
    .op (.call 0 (.doStep "s" { limit := some 0 }))]

/-- The replay's `do` rejects with `undefined`, though the table has the error. -/
theorem not_rejects :
    ∃ w, Reaches (actWithin .defaults fun _ _ => 0) unguarded .init w ∧
      ((w.db.attempts.get? ("a", "s")).map AttemptRow.lastError = some "no" ∧
        (segment .defaults w (.enter 0)).map Seg.reply = some (.threw none)) ∧
      ¬ Rejects .defaults w (.op (.enter 0)) := by
  have hrun : (play (restrict (actWithin .defaults fun _ _ => 0) unguarded) .init
      stopAfterLastAttempt).any (fun w => decide
        ((w.db.attempts.get? ("a", "s")).map AttemptRow.lastError = some "no" ∧
          (segment .defaults w (.enter 0)).map Seg.reply = some (.threw none))) = true := by
    decide +kernel
  obtain ⟨w, hreach, hw⟩ := exists_reaches_of_play hrun
  have hboth := of_decide_eq_true hw
  refine ⟨w, hreach, hboth, fun hrejects => ?_⟩
  obtain ⟨g, hg, hreply⟩ := Option.map_eq_some_iff.mp hboth.2
  exact (hrejects g hg).defined hreply

end Lopata.Workflow
