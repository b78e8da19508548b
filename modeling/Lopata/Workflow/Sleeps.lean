import Lopata.Workflow.Budget

/-!
# Sleeps and Waits

`sleep` and `sleepUntil` record their deadline, or find it recorded and wait for what is left of
it; `waitForEvent` waits with a timeout of its own. All of them hand their delay to a timer of the
host, which takes a delay of more than 31 bits for one millisecond.

## Main results

* `enter_starts`: what a sleep or a wait does once its checks have passed.
* `neverShort_along`: no wait ends before its deadline, and a replayed sleep waits exactly for the
  recorded one, in the runs whose delays fit the timer and whose replays ask for what is recorded.
* `not_neverShort`: a sleep of thirty days ends after a millisecond.
-/

namespace Lopata.Workflow

variable (cfg : Config)

/-! ### Delays and deadlines -/

/-- The longest delay a timer of the host takes as it is. -/
def maxTimerMs : Millis := 2147483647

/-- The checks of a method pass: its execution is not aborted and its name is new. -/
def Call.passes (w : World) (x : Call) : Prop :=
  w.mem.aborted x.run = false ∧
    ((w.mem.impls x.run).enroll cfg x.method.admission.1 x.method.admission.2).2 = none

instance (w : World) (x : Call) : Decidable (x.passes cfg w) :=
  inferInstanceAs (Decidable (_ ∧ _))

/-- The delay a sleep waits for, once its checks have passed; none if it throws. -/
def Call.sleepDelay (w : World) (x : Call) : Option Millis :=
  match x.method with
  | .sleep name duration =>
      match w.db.steps.get? (x.instanceId, "sleep:" ++ name) with
      | some row => row.output.map fun o => ((o.untilNumber cfg).map (· - w.clock)).getD 0
      | none =>
          match parseDuration duration with
          | .ok ms => if cfg.limits.maxSleepMs < ms then none else some ms
          | .error _ => none
  | .sleepUntil name timestamp =>
      match w.db.steps.get? (x.instanceId, "sleepUntil:" ++ name) with
      | some _ => some (timestamp - w.clock)
      | none =>
          let delay := max 0 (timestamp - w.clock)
          if cfg.limits.maxSleepMs < delay then none else some delay
  | .doStep .. | .waitForEvent .. => none

/-- What a method of a call does after its checks, as far as its waits go. -/
inductive Starts (w : World) (k : ℕ) (x : Call) (g : Seg) : Prop
  | throws (hgone : g.mem.calls.get? k = none) (hreply : ∃ message, g.reply = .threw message)
  /-- The result is in the step cache or in the table of events. -/
  | finds (hgone : g.mem.calls.get? k = none) (hreply : ∃ v, g.reply = .value v)
  /-- The callback of a `do` starts. -/
  | attempts {plan : RetryPlan} {n : ℕ} {due : Millis}
      (hcall : g.mem.calls.get? k = some { x with susp := .callback plan n due })
      (hmethod : ∃ name config, x.method = .doStep name config)
  /-- A sleep has nothing to wait for. -/
  | returns {ms : Millis} (hgone : g.mem.calls.get? k = none)
      (hdelay : x.sleepDelay cfg w = some ms) (hms : ms ≤ 0) (hreply : g.reply = .undefined)
  | sleeps {ms : Millis} (hdelay : x.sleepDelay cfg w = some ms) (hms : 0 < ms)
      (hreply : g.reply = .pending)
      (hcall : g.mem.calls.get? k = some { x with susp := .sleeping (timerDue w.clock ms) })
  | waits {name ty : String} {timeout : Option Duration} {ms : Millis} {map : ℕ}
      (hmethod : x.method = .waitForEvent name ty timeout)
      (hnone : w.db.steps.get? (x.instanceId, waitKey name) = none ∧
        w.db.firstEvent x.instanceId ty = none)
      (htimeout : waitTimeout cfg timeout = .ok ms) (hreply : g.reply = .pending)
      (hcall : g.mem.calls.get? k = some { x with susp := .waiting map (timerDue w.clock ms) })

variable {cfg} {w w' : World} {m : Memory} {k : ℕ} {x : Call} {g : Seg} {o : Op} {ss : List Stmt}

/-- A call that settles is gone. -/
theorem calls_settle (m : Memory) (k : ℕ) : (m.settle k).calls.get? k = none := by
  show (m.calls.erase k).get? k = none
  rw [Table.get?_erase, if_pos rfl]

theorem calls_suspend_self (hk : m.calls.get? k = some x) (s : Suspension) :
    (m.suspend k s).calls.get? k = some { x with susp := s } := by
  show (m.calls.modify k _).get? k = _
  rw [Table.get?_modify_self, hk]
  rfl

theorem Starts.reject {message : String} : Starts cfg w k x (Seg.reject m k ss message) :=
  .throws (calls_settle m k) ⟨_, rfl⟩

section Bodies

variable (hk : m.calls.get? k = some x)

include hk

theorem starts_sleepFor {ms : Millis} (hdelay : x.sleepDelay cfg w = some ms) :
    Starts cfg w k x (sleepFor w m k x ss ms) := by
  unfold sleepFor
  split
  · next hms => exact .sleeps hdelay hms rfl (calls_suspend_self hk _)
  · next hms => exact .returns (calls_settle m k) hdelay (not_lt.mp hms) rfl

theorem starts_sleepBody {name : String} {d : Duration} (hmethod : x.method = .sleep name d) :
    Starts cfg w k x (sleepBody cfg w m k x name d) := by
  simp only [sleepBody]
  split
  · next row hrow =>
      split
      · next o ho =>
          refine starts_sleepFor hk ?_
          simp only [Call.sleepDelay, hmethod, hrow, ho, Option.map_some]
      · exact .reject
  · next hnone =>
      split
      · exact .reject
      · next ms hms =>
          split
          · exact .reject
          · next hle =>
              split
              · exact .reject
              · refine starts_sleepFor hk ?_
                simp only [Call.sleepDelay, hmethod, hnone, hms, if_neg hle]

theorem starts_sleepUntilBody {name : String} {t : Millis}
    (hmethod : x.method = .sleepUntil name t) :
    Starts cfg w k x (sleepUntilBody cfg w m k x name t) := by
  simp only [sleepUntilBody]
  split
  · next row hrow =>
      refine starts_sleepFor hk ?_
      simp only [Call.sleepDelay, hmethod, hrow]
  · next hnone =>
      split
      · exact .reject
      · next hle =>
          split
          · exact .reject
          · refine starts_sleepFor hk ?_
            simp only [Call.sleepDelay, hmethod, hnone, if_neg hle]

theorem starts_waitForEventBody {name ty : String} {timeout : Option Duration}
    (hmethod : x.method = .waitForEvent name ty timeout) :
    Starts cfg w k x (waitForEventBody cfg w m k x name ty timeout) := by
  simp only [waitForEventBody]
  split
  · exact .reject
  · split
    · exact .finds (calls_settle m k) ⟨_, rfl⟩
    · next hsteps =>
        split
        · simp only [recordEvent]
          split
          · exact .finds (calls_settle m k) ⟨_, rfl⟩
          · exact .reject
        · next hevents =>
            split
            · exact .reject
            · next ms hms =>
                refine .waits hmethod ⟨hsteps, hevents⟩ hms rfl
                  (calls_suspend_self (m := (m.getWaitersForInstance x.instanceId).2) ?_ _)
                rwa [Memory.calls_getWaitersForInstance]

end Bodies

/-- **Inversion of the continuation after `checkPaused`, by the waits it starts.** -/
theorem enter_starts (cfg : Config) (hk : w.mem.calls.get? k = some x) :
    Starts cfg w k x (enter cfg w k x) := by
  unfold enter
  split
  · exact .reject
  · split
    · exact .reject
    · dsimp only
      split
      · next name config hmethod =>
          simp only [doBody]
          split
          · exact .finds (calls_settle _ k) ⟨_, rfl⟩
          · split
            · exact .reject
            · unfold attemptLoop
              split
              · exact .throws (calls_settle _ k) ⟨_, rfl⟩
              · refine .attempts (calls_suspend_self ?_ _) ⟨name, config, hmethod⟩
                exact hk
      · next hmethod =>
          refine starts_sleepBody ?_ hmethod
          exact hk
      · next hmethod =>
          refine starts_sleepUntilBody ?_ hmethod
          exact hk
      · next hmethod =>
          refine starts_waitForEventBody ?_ hmethod
          exact hk

/-- A method that does not throw has passed its checks. -/
theorem passes_of_reply (h : ∀ message, (enter cfg w k x).reply ≠ .threw message) :
    x.passes cfg w := by
  unfold enter at h
  split at h
  · exact absurd rfl (h _)
  · next hlive =>
      split at h
      · exact absurd rfl (h _)
      · next henroll => exact ⟨Bool.not_eq_true _ ▸ hlive, congrArg Prod.snd henroll⟩

/-! ### Deadlines -/

/-- The deadline a sleep has recorded. -/
def Recorded.deadline : Recorded → Option Millis
  | .until time | .untilIso time => some time
  | .result _ | .event .. => none

/-- The deadline that is recorded under the name of a call. -/
def Call.recorded (w : World) (x : Call) : Option Millis :=
  (w.db.steps.get? (x.instanceId, x.key)).bind fun row => row.output.bind Recorded.deadline

/-- The deadline of the argument of a call that starts to wait now, if it is admitted. -/
def Call.requested (cfg : Config) (w : World) (x : Call) : Option Millis :=
  match x.method with
  | .doStep .. => none
  | .sleep _ duration =>
      match parseDuration duration with
      | .ok ms => if cfg.limits.maxSleepMs < ms then none else some (w.clock + ms)
      | .error _ => none
  | .sleepUntil _ timestamp =>
      if cfg.limits.maxSleepMs < max 0 (timestamp - w.clock) then none else some timestamp
  | .waitForEvent _ _ timeout =>
      match waitTimeout cfg timeout with
      | .ok ms => some (w.clock + ms)
      | .error _ => none

/-- The deadline of the wait that a call starts: the recorded one or else that of its argument. -/
def Call.deadline (cfg : Config) (w : World) (x : Call) : Option Millis :=
  (x.recorded w).or (x.requested cfg w)

/-- The method sleeps. -/
def StepCall.isSleep : StepCall → Bool
  | .sleep .. | .sleepUntil .. => true
  | .doStep .. | .waitForEvent .. => false

/-- The time at which the timer of a sleep or of a wait fires. -/
def Suspension.alarm : Suspension → Option Millis
  | .sleeping due | .waiting _ due => some due
  | _ => none

/-- The system, and the deadlines of the waits its calls have started. -/
structure Waits where
  world : World
  deadline : ℕ → Option Millis

/-- No wait is under way. -/
def Waits.start : Waits := ⟨.init, fun _ => none⟩

/-- The deadlines after a step: that of a call that comes from its pause check is known. -/
def Waits.deadlines (cfg : Config) (s : Waits) : Action → ℕ → Option Millis
  | .op (.enter k) =>
      Function.update s.deadline k
        ((s.world.mem.calls.get? k).bind fun x => x.deadline cfg s.world)
  | _ => s.deadline

/-- The transition function with deadlines. -/
def wait (cfg : Config) (s : Waits) (a : Action) : Option Waits :=
  (act cfg s.world a).map fun w => ⟨w, s.deadlines cfg a⟩

/-- No wait ends before its deadline, by its timer or at once; and a sleep that is replayed waits
for exactly the recorded deadline. -/
def NeverShort (cfg : Config) (s : Waits) : Action → Prop
  | .op (.sleepOver k) | .op (.eventTimeout k) =>
      ∀ t, s.deadline k = some t → t ≤ s.world.clock
  | .op (.enter k) => ∀ x, s.world.mem.calls.get? k = some x → x.method.isSleep = true →
      ((enter cfg s.world k x).reply = .undefined →
        ∀ t, x.deadline cfg s.world = some t → t ≤ s.world.clock) ∧
      ((enter cfg s.world k x).reply = .pending → ∀ t, x.recorded s.world = some t →
        (enter cfg s.world k x).mem.calls.get? k = some { x with susp := .sleeping t })
  | _ => True

/-- The delay of the wait that a call starts fits the timer, and a sleep that is recorded was
recorded as a sleep, and by `sleepUntil` for the same time unless both are past. -/
def Call.timely (cfg : Config) (w : World) (x : Call) : Prop :=
  match x.method with
  | .doStep .. => True
  | .sleep name duration =>
      match w.db.steps.get? (x.instanceId, "sleep:" ++ name) with
      | some row => ∃ t, row.output = some (.until t) ∧ t - w.clock ≤ maxTimerMs
      | none => ∀ ms, parseDuration duration = .ok ms → ms ≤ cfg.limits.maxSleepMs →
          ms ≤ maxTimerMs
  | .sleepUntil name timestamp =>
      match w.db.steps.get? (x.instanceId, "sleepUntil:" ++ name) with
      | some row => timestamp - w.clock ≤ maxTimerMs ∧ ∃ t, row.output = some (.untilIso t) ∧
          (t = timestamp ∨ t ≤ w.clock ∧ timestamp ≤ w.clock)
      | none => max 0 (timestamp - w.clock) ≤ cfg.limits.maxSleepMs →
          timestamp - w.clock ≤ maxTimerMs
  | .waitForEvent name ty timeout =>
      w.db.steps.get? (x.instanceId, waitKey name) = none → w.db.firstEvent x.instanceId ty = none →
        ∀ ms, waitTimeout cfg timeout = .ok ms → ms ≤ maxTimerMs

/-- The calls that pass their checks start timely waits. -/
def Timely (cfg : Config) (s : Waits) (a : Action) : Prop :=
  ∀ k x, a = .op (.enter k) → s.world.mem.calls.get? k = some x → x.passes cfg s.world →
    x.timely cfg s.world

/-! ### The delay is what is left to the deadline -/

theorem timerDue_of_le {now ms : Millis} (h : ms ≤ maxTimerMs) : timerDue now ms = now + ms :=
  if_pos h

/-- What is left until a deadline. -/
theorem left_of_eq {now ms t most : ℤ} (hfits : ms ≤ most) (h : t = now + ms) :
    ms ≤ most ∧ (0 < ms → t = now + ms) ∧ (ms ≤ 0 → t ≤ now) := by
  omega

theorem left_of_sub {now ms t most : ℤ} (h : t - now = ms) (hfits : t - now ≤ most) :
    ms ≤ most ∧ (0 < ms → t = now + ms) ∧ (ms ≤ 0 → t ≤ now) := by
  omega

theorem left_of_past {now ms t u most : ℤ} (h : u - now = ms) (hfits : u - now ≤ most)
    (hu : u ≤ now) (ht : t ≤ now) :
    ms ≤ most ∧ (0 < ms → t = now + ms) ∧ (ms ≤ 0 → t ≤ now) := by
  omega

/-- A delay that counts up to a deadline, but not below zero. -/
theorem left_of_max {now t most : ℤ} (hmost : 0 ≤ most) (hfits : t - now ≤ most) :
    max 0 (t - now) ≤ most ∧ (0 < max 0 (t - now) → t = now + max 0 (t - now)) ∧
      (max 0 (t - now) ≤ 0 → t ≤ now) := by
  omega

/-- A timely sleep waits until its deadline, or returns after it. -/
theorem delay_of_timely (htimely : x.timely cfg w) {ms t : Millis}
    (hdelay : x.sleepDelay cfg w = some ms) (ht : x.deadline cfg w = some t) :
    ms ≤ maxTimerMs ∧ (0 < ms → t = w.clock + ms) ∧ (ms ≤ 0 → t ≤ w.clock) := by
  unfold Call.sleepDelay at hdelay
  unfold Call.timely at htimely
  cases hmethod : x.method with
  | doStep | waitForEvent =>
    rw [hmethod] at hdelay
    cases hdelay
  | sleep name duration =>
    have hkey : x.key = "sleep:" ++ name := by rw [Call.key, hmethod]; rfl
    rw [hmethod] at hdelay htimely
    simp only at hdelay htimely
    cases hrow : w.db.steps.get? (x.instanceId, "sleep:" ++ name) with
    | some row =>
      rw [hrow] at hdelay htimely
      obtain ⟨wake, houtput, hle⟩ := htimely
      simp only [houtput, Option.map_some, Option.some.injEq] at hdelay
      have hms : wake - w.clock = ms := hdelay
      have ht' : wake = t := by
        simpa [Call.deadline, Call.recorded, hkey, hrow, houtput, Recorded.deadline] using ht
      subst ht'
      exact left_of_sub hms hle
    | none =>
      rw [hrow] at hdelay htimely
      cases hparse : parseDuration duration with
      | error message =>
        rw [hparse] at hdelay
        cases hdelay
      | ok ms' =>
        have ht' : x.requested cfg w = some t := by
          simpa [Call.deadline, Call.recorded, hkey, hrow] using ht
        simp only [hparse] at hdelay
        simp only [Call.requested, hmethod, hparse] at ht'
        split at hdelay
        · cases hdelay
        · next hle =>
            obtain rfl := Option.some.inj hdelay
            rw [if_neg hle] at ht'
            exact left_of_eq (htimely ms' hparse (not_lt.mp hle)) (Option.some.inj ht').symm
  | sleepUntil name timestamp =>
    have hkey : x.key = "sleepUntil:" ++ name := by rw [Call.key, hmethod]; rfl
    rw [hmethod] at hdelay htimely
    simp only at hdelay htimely
    cases hrow : w.db.steps.get? (x.instanceId, "sleepUntil:" ++ name) with
    | some row =>
      rw [hrow] at hdelay htimely
      obtain ⟨hle, wake, houtput, hsame⟩ := htimely
      have hms : timestamp - w.clock = ms := Option.some.inj hdelay
      have ht' : wake = t := by
        simpa [Call.deadline, Call.recorded, hkey, hrow, houtput, Recorded.deadline] using ht
      subst ht'
      rcases hsame with rfl | ⟨hpast, hnow⟩
      · exact left_of_sub hms hle
      · exact left_of_past hms hle hnow hpast
    | none =>
      rw [hrow] at hdelay htimely
      have ht' : x.requested cfg w = some t := by
        simpa [Call.deadline, Call.recorded, hkey, hrow] using ht
      simp only [Call.requested, hmethod] at ht'
      simp only at hdelay
      split at hdelay
      · cases hdelay
      · next hle =>
          obtain rfl := Option.some.inj hdelay
          rw [if_neg hle] at ht'
          obtain rfl := Option.some.inj ht'
          exact left_of_max (by decide) (htimely (not_lt.mp hle))

/-! ### Armed timers -/

theorem alarm_of_unregistered {s : Suspension} (h : s.unregistered = true) : s.alarm = none := by
  cases s <;> first | rfl | cases h

/-- A continuation leaves the timers of sleeps and waits alone, but for those a call arms that
comes from its pause check. -/
theorem CallMove.alarm {m' : Memory} (hm : CallMove w k x m') (hk : w.mem.calls.get? k = some x)
    {k' : ℕ} {x' : Call} (hx' : m'.calls.get? k' = some x') {due : Millis}
    (hdue : x'.susp.alarm = some due) :
    w.mem.calls.get? k' = some x' ∨ k' = k ∧ x.susp = .entered := by
  have hold : k' ≠ k → w.mem.calls.get? k' = some x' := by
    intro hne
    rcases hm.calls hk hx' with h | ⟨heq, -⟩
    · exact h
    · exact absurd heq hne
  by_cases hkk : k' = k
  · subst hkk
    have herase : (w.mem.calls.erase k').get? k' ≠ some x' := by
      rw [Table.get?_erase, if_pos rfl]
      exact fun h => by cases h
    cases hm with
    | settled hm =>
      obtain ⟨i, rfl⟩ := hm
      exact absurd hx' herase
    | parked hm _ hs =>
      obtain ⟨i, rfl⟩ := hm
      rw [susp_of_suspend hx', alarm_of_unregistered hs] at hdue
      cases hdue
    | slept _ hx | waited _ hx => exact .inr ⟨rfl, hx⟩
    | sleptOver | timedOut => exact absurd hx' herase
  · exact .inl (hold hkk)

/-- **Timers in a segment.** A sleep or a wait was there, or a call from its pause check has just
started it. -/
theorem alarm_of_segment (hl : w.mem.Linked) (hg : segment cfg w o = some g)
    {x' : Call} (hx' : g.mem.calls.get? k = some x') {due : Millis}
    (hdue : x'.susp.alarm = some due) :
    w.mem.calls.get? k = some x' ∨
      o = .enter k ∧ ∃ x, w.mem.calls.get? k = some x ∧ g = enter cfg w k x := by
  cases callFrom_of_segment hl hg hx' with
  | old hk => exact .inl hk
  | called _ _ _ hx =>
    rw [hx] at hdue
    simp only [pauseRound] at hdue
    split at hdue <;> cases hdue
  | given _ _ _ _ _ hx =>
    rw [hx] at hdue
    cases hdue
  | continued ho hk =>
    obtain ⟨x, hx, hcall⟩ := callSegment_of_segment ho hg
    rcases (callSegment_move hcall).alarm hx hx' hdue with h | ⟨-, hentered⟩
    · exact .inl h
    · refine .inr ?_
      cases o with
      | enter k' =>
        obtain rfl := Option.some.inj ho
        simp only [callSegment, hentered, Option.some.injEq] at hcall
        exact ⟨rfl, x, hx, hcall.symm⟩
      | poll k' | callback k' outcome | retry k' | sleepOver k' | eventTimeout k'
      | eventResume k' => simp [callSegment, hentered] at hcall
      | _ => cases ho

/-- A call that comes from its pause check waits for nothing yet. -/
theorem entered_of_segment (hk : w.mem.calls.get? k = some x)
    (hg : segment cfg w (.enter k) = some g) : x.susp = .entered ∧ g = enter cfg w k x := by
  simp only [segment, hk, Option.bind_some, callSegment] at hg
  split at hg
  · next hx => exact ⟨hx, (Option.some.inj hg).symm⟩
  · cases hg

/-- The timers of sleeps and waits are armed for their deadlines or later. -/
structure Waits.Timed (s : Waits) : Prop where
  coherent : s.world.Coherent
  alarm : ∀ k x due, s.world.mem.calls.get? k = some x → x.susp.alarm = some due →
    ∀ t, s.deadline k = some t → t ≤ due

theorem timed_start : Waits.start.Timed :=
  ⟨coherent_init, fun _ _ _ h => nomatch h⟩

/-- A timely wait arms its timer for its deadline. -/
theorem alarm_of_enter (hk : w.mem.calls.get? k = some x)
    (htimely : x.passes cfg w → x.timely cfg w) {x' : Call} {due t : Millis}
    (hx' : (enter cfg w k x).mem.calls.get? k = some x') (hdue : x'.susp.alarm = some due)
    (ht : x.deadline cfg w = some t) : due = t := by
  have hgone : (enter cfg w k x).mem.calls.get? k ≠ none := fun h => by
    cases h.symm.trans hx'
  cases enter_starts cfg hk with
  | throws h | finds h | returns h => exact absurd h hgone
  | attempts hcall =>
    obtain rfl := Option.some.inj (hcall.symm.trans hx')
    cases hdue
  | sleeps hdelay hms hreply hcall =>
    obtain rfl := Option.some.inj (hcall.symm.trans hx')
    have hpass := passes_of_reply fun message h => by cases hreply.symm.trans h
    obtain ⟨hfits, hleft, -⟩ := delay_of_timely (htimely hpass) hdelay ht
    rw [← Option.some.inj hdue, timerDue_of_le hfits, hleft hms]
  | @waits name ty timeout ms map hmethod hnone htimeout hreply hcall =>
    obtain rfl := Option.some.inj (hcall.symm.trans hx')
    have hpass := passes_of_reply fun message h => by cases hreply.symm.trans h
    have hfits := htimely hpass
    have hkey : x.key = waitKey name := by rw [Call.key, hmethod]; rfl
    simp only [Call.timely, hmethod] at hfits
    simp only [Call.deadline, Call.recorded, Call.requested, hkey, hnone.1, hmethod, htimeout,
      Option.bind_none, Option.none_or, Option.some.injEq] at ht
    rw [← Option.some.inj hdue, timerDue_of_le (hfits hnone.1 hnone.2 _ htimeout), ht]

/-- **The step lemma.** Timers stay armed for their deadlines. -/
theorem Waits.Timed.step {s s' : Waits} {a : Action} (h : s.Timed) (hok : Timely cfg s a)
    (hstep : wait cfg s a = some s') : s'.Timed := by
  obtain ⟨w', hact, rfl⟩ := Option.map_eq_some_iff.mp hstep
  refine ⟨h.coherent.act hact, ?_⟩
  have hcrash : ∀ {w₀ : World}, Resumed w₀ w' → ∀ k x, w'.mem.calls.get? k ≠ some x := by
    intro w₀ hres k x hx
    rw [hres.memory] at hx
    cases hx
  intro k x' due hx' hdue t ht
  cases a with
  | tick ms =>
    obtain rfl := Option.some.inj hact
    exact h.alarm k x' due hx' hdue t ht
  | crashIn o n again =>
    obtain ⟨g, -, rfl⟩ := Option.map_eq_some_iff.mp hact
    exact absurd hx' (hcrash (resumed_resumeAfter _ again) k x')
  | crash again =>
    obtain rfl := Option.some.inj hact
    exact absurd hx' (hcrash (resumed_resumeAfter _ again) k x')
  | op o =>
    obtain ⟨g, hg, rfl⟩ := Option.map_eq_some_iff.mp hact
    rcases alarm_of_segment h.coherent.linked hg hx' hdue with hk | ⟨rfl, x, hk, rfl⟩
    · by_cases ho : o = .enter k
      · subst ho
        rw [(entered_of_segment hk hg).1] at hdue
        cases hdue
      · have hsame : s.deadlines cfg (.op o) k = s.deadline k := by
          cases o with
          | enter k' => exact Function.update_of_ne (fun hkk => ho (by rw [hkk])) _ _
          | _ => rfl
        exact h.alarm k x' due hk hdue t (hsame ▸ ht)
    · have hdeadline : x.deadline cfg s.world = some t := by
        simpa [Waits.deadlines, hk] using ht
      exact (alarm_of_enter hk (hok k x rfl hk) hx' hdue hdeadline).ge

/-- What the step says about the waits that end in it. -/
theorem Waits.Timed.neverShort {s s' : Waits} {a : Action} (h : s.Timed) (hok : Timely cfg s a)
    (hstep : wait cfg s a = some s') : NeverShort cfg s a := by
  obtain ⟨w', hact, rfl⟩ := Option.map_eq_some_iff.mp hstep
  cases a with
  | tick | crashIn | crash => trivial
  | op o =>
    obtain ⟨g, hg, rfl⟩ := Option.map_eq_some_iff.mp hact
    cases o with
    | sleepOver k =>
      intro t ht
      obtain ⟨x, hx, hcall⟩ := Option.bind_eq_some_iff.mp hg
      simp only [callSegment] at hcall
      split at hcall
      · next due hsusp =>
          split at hcall
          · next hdue => exact (h.alarm k x due hx (by rw [hsusp]; rfl) t ht).trans hdue
          · cases hcall
      · cases hcall
    | eventTimeout k =>
      intro t ht
      obtain ⟨x, hx, hcall⟩ := Option.bind_eq_some_iff.mp hg
      simp only [callSegment] at hcall
      split at hcall
      · next due _ hsusp =>
          split at hcall
          · next hdue => exact (h.alarm k x _ hx (by rw [hsusp]; rfl) t ht).trans hdue
          · cases hcall
      · cases hcall
    | enter k =>
      intro x hk hsleep
      constructor
      · intro hreply t ht
        have hpass := passes_of_reply fun message heq => by cases hreply.symm.trans heq
        cases enter_starts cfg hk with
        | returns _ hdelay hms =>
          exact (delay_of_timely (hok k x rfl hk hpass) hdelay ht).2.2 hms
        | throws _ hr => obtain ⟨_, hr⟩ := hr; cases hreply.symm.trans hr
        | finds _ hr => obtain ⟨_, hr⟩ := hr; cases hreply.symm.trans hr
        | sleeps _ _ hr | waits _ _ _ hr => cases hreply.symm.trans hr
        | attempts _ hmethod =>
          obtain ⟨_, _, hmethod⟩ := hmethod
          rw [hmethod] at hsleep
          cases hsleep
      · intro hreply t ht
        have hdeadline : x.deadline cfg s.world = some t := by
          rw [Call.deadline, ht]
          rfl
        cases enter_starts cfg hk with
        | sleeps _ _ _ hcall =>
          have heq := alarm_of_enter hk (hok k x rfl hk) hcall rfl hdeadline
          rw [hcall, heq]
        | throws _ hr => obtain ⟨_, hr⟩ := hr; cases hreply.symm.trans hr
        | finds _ hr => obtain ⟨_, hr⟩ := hr; cases hreply.symm.trans hr
        | returns _ _ _ hr => cases hreply.symm.trans hr
        | attempts _ hmethod =>
          obtain ⟨_, _, hmethod⟩ := hmethod
          rw [hmethod] at hsleep
          cases hsleep
        | waits hmethod =>
          rw [hmethod] at hsleep
          cases hsleep
    | _ => trivial

/-! ### The results -/

/-- **Sleeps are never short.** In every run in which the calls that pass their checks ask for
delays that fit the timer, and for what is recorded when they sleep again, no sleep and no timeout
ends before its deadline, and a replayed sleep waits for exactly the recorded one. -/
theorem neverShort_along (cfg : Config) (as : List Action)
    (h : Along (wait cfg) (Timely cfg) .start as) :
    Along (wait cfg) (NeverShort cfg) .start as :=
  h.of_invariant timed_start (fun _ _ _ hs hok hstep => hs.step hok hstep)
    fun _ _ _ hs hok hstep => hs.neverShort hok hstep

/-- A sleep of thirty days, and a millisecond. -/
def thirtyDays : List Action :=
  [.op (.create (some "a") none), .op (.call 0 (.sleep "n" (.text "30 days"))), .op (.enter 0),
    .tick 1]

/-- The process stops in a sleep until a time. The replay asks for a later one, as a body does
that counts from its own clock. -/
def laterReplay : List Action :=
  [.op (.create (some "a") none), .op (.call 0 (.sleepUntil "n" 1000)), .op (.enter 0), .tick 1,
    .crash [], .op (.call 0 (.sleepUntil "n" 1001))]

/-- After a millisecond the sleep of thirty days can end; and the replay sleeps until the time it
asks for, not until the recorded one. -/
theorem not_neverShort :
    (∃ s, Reaches (wait .defaults) unguarded .start s ∧
      (s.deadline 0 = some 2592000000 ∧ s.world.clock = 1 ∧
        (wait .defaults s (.op (.sleepOver 0))).isSome = true) ∧
      ¬ NeverShort .defaults s (.op (.sleepOver 0))) ∧
    ∃ s, Reaches (wait .defaults) unguarded .start s ∧
      ((s.world.mem.calls.get? 0).map (fun x => (x.method.isSleep, x.recorded s.world)) =
          some (true, some 1000) ∧
        (segment .defaults s.world (.enter 0)).map (fun g =>
          (g.reply, (g.mem.calls.get? 0).map Call.susp)) =
            some (.pending, some (.sleeping 1001))) ∧
      ¬ NeverShort .defaults s (.op (.enter 0)) := by
  constructor
  · have hrun : (play (restrict (wait .defaults) unguarded) .start thirtyDays).any (fun s => decide
        (s.deadline 0 = some 2592000000 ∧ s.world.clock = 1 ∧
          (wait .defaults s (.op (.sleepOver 0))).isSome = true)) = true := by
      decide +kernel
    obtain ⟨s, hreach, hs⟩ := exists_reaches_of_play hrun
    have hall := of_decide_eq_true hs
    refine ⟨s, hreach, hall, fun hshort => ?_⟩
    have hle : (2592000000 : Millis) ≤ s.world.clock := hshort _ hall.1
    rw [hall.2.1] at hle
    exact absurd hle (by decide)
  · have hrun : (play (restrict (wait .defaults) unguarded) .start laterReplay).any (fun s => decide
        ((s.world.mem.calls.get? 0).map (fun x => (x.method.isSleep, x.recorded s.world)) =
            some (true, some 1000) ∧
          (segment .defaults s.world (.enter 0)).map (fun g =>
            (g.reply, (g.mem.calls.get? 0).map Call.susp)) =
              some (.pending, some (.sleeping 1001)))) = true := by
      decide +kernel
    obtain ⟨s, hreach, hs⟩ := exists_reaches_of_play hrun
    have hboth := of_decide_eq_true hs
    refine ⟨s, hreach, hboth, fun hshort => ?_⟩
    obtain ⟨x, hk, hx⟩ := Option.map_eq_some_iff.mp hboth.1
    obtain ⟨g, hg, hend⟩ := Option.map_eq_some_iff.mp hboth.2
    obtain ⟨-, rfl⟩ := entered_of_segment hk hg
    have hsleeping := (hshort x hk (congrArg Prod.fst hx)).2 (congrArg Prod.fst hend) 1000
      (congrArg Prod.snd hx)
    rw [hsleeping] at hend
    have hsusp : some (Suspension.sleeping 1000) = some (Suspension.sleeping 1001) :=
      congrArg Prod.snd hend
    exact absurd hsusp (by decide)

/-- A sleep of one day, which ends on time. -/
def oneDay : List Action :=
  [.op (.create (some "a") none), .op (.call 0 (.sleep "n" (.text "1 day"))), .op (.enter 0),
    .tick 86400000, .op (.sleepOver 0)]

theorem neverShort_along_oneDay : Along (wait .defaults) (NeverShort .defaults) .start oneDay := by
  refine neverShort_along .defaults oneDay ?_
  have hother : ∀ (s : Waits) (a : Action), (∀ k, a ≠ .op (.enter k)) → Timely .defaults s a :=
    fun _ _ ha k _ h => absurd h (ha k)
  intro s₁ h₁
  refine ⟨hother _ _ nofun, ?_⟩
  intro s₂ h₂
  refine ⟨hother _ _ nofun, ?_⟩
  intro s₃ h₃
  refine ⟨?_, fun _ _ => ⟨hother _ _ nofun, fun _ _ => ⟨hother _ _ nofun, trivial⟩⟩⟩
  intro k x hk hx _
  cases hk
  obtain rfl := Option.some.inj h₁
  obtain rfl := Option.some.inj h₂
  obtain rfl := Option.some.inj hx
  intro ms hms _
  obtain rfl : 86400000 = ms := Except.ok.inj hms
  decide

end Lopata.Workflow
