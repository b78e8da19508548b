import Lopata.DurableObject.Arming

/-!
# Alarms and the Clock

The timers of the namespaces, with the clock of their host. A timer is armed with a delay, which
is computed when an alarm is set, when its row is restored and when it is retried; the host takes
a delay that does not fit in 31 bits for one millisecond. A process may stop at any time: what
was committed stays, everything in memory is gone.

A handler starts when its timer fires, or later, when the object lets it in. The steps of
`triggerAlarm` are not timers: they start a handler because they are told to.

## Main results

* `Clocked.neverEarly_along`: in a run in which no alarm is set or restored for a time more than
  31 bits of milliseconds away, no timer fires before the time it was armed for; and without
  careless steps the alarm that fires is the one of the row.
* `Clocked.not_neverEarly`: an alarm in thirty days fires after a millisecond.
-/

namespace Lopata.DurableObject

/-- The longest delay a timer of the host takes as it is. -/
def maxDelay : ℤ := 2147483647

/-- The namespaces and the clock. -/
structure Clocked where
  spaces : Namespaces
  clock : ℤ
  /-- When `setTimeout` gave out a handle. -/
  armedAt : ℕ → ℤ

/-- What happens to the namespaces or to their process. -/
inductive ClockAction
  | alarm (a : AlarmAction)
  | tick (ms : ℕ)
  /-- The process stops and is started again. -/
  | restart
  deriving DecidableEq, Repr

namespace Clocked

/-- The namespaces before their classes are set. -/
def start (db : Db) (clock : ℤ) : Clocked := ⟨.init db, clock, fun _ => clock⟩

/-- When the host fires a timer. Its delay is `Math.max(0, scheduledTime - now)`, or the backoff of
a retry, which is `retryTime - now`. -/
def due (c : Clocked) (u : ℕ) (timer : Timer) : ℤ :=
  let delay := max 0 (timer.time - c.armedAt u)
  c.armedAt u + if delay ≤ maxDelay then delay else 1

/-- A timer fires when it is due, and a handler that fails reads the clock. -/
def allows (c : Clocked) : AlarmAction → Bool
  | .fires u _ => (c.spaces.timers.armed.get? u).all fun timer => c.due u timer ≤ c.clock
  | .fails _ now => now = c.clock
  | .setClass _ | .access _ _ | .dispose _ | .storage _ _ | .triggerAlarm _ _ | .succeeds _
  | .cancelAlarm _ | .deleteInstance _ => true

end Clocked

/-- The step of the namespaces in time. -/
def clockStep (c : Clocked) : ClockAction → Option Clocked
  | .alarm a =>
      if c.allows a then
        (alarmStep c.spaces a).map fun s =>
          { c with
            spaces := s
            armedAt := fun u => if u < c.spaces.timers.next then c.armedAt u else c.clock }
      else none
  | .tick ms => some { c with clock := c.clock + ms }
  | .restart => some { c with spaces := c.spaces.restart }

namespace Clocked

variable {c c' : Clocked}

/-! ### What is asked of a firing -/

/-- A timer that fires is due. -/
def onTime (c : Clocked) : ClockAction → Prop
  | .alarm (.fires u _) => ∀ timer ∈ c.spaces.timers.armed.get? u, timer.time ≤ c.clock
  | _ => True

/-- When a timer fires, no row says that the alarm of its object is yet to come. -/
def rowDue (c : Clocked) : ClockAction → Prop
  | .alarm (.fires u _) => ∀ timer ∈ c.spaces.timers.armed.get? u,
      ∀ t ∈ c.spaces.row timer.obj, t ≤ c.clock
  | _ => True

/-- The alarms that are set, or restored, are not too far away for a timer. -/
def fits (c : Clocked) : ClockAction → Prop
  | .alarm a => ∀ timer ∈ c.spaces.arms a, timer.retryCount = 0 → timer.time ≤ c.clock + maxDelay
  | .tick _ | .restart => True

/-- The step does not part the rows from the timers. -/
def careful (c : Clocked) : ClockAction → Prop
  | .alarm a => c.spaces.careful a
  | .tick _ | .restart => True

instance (c : Clocked) : (a : ClockAction) → Decidable (c.fits a)
  | .alarm a => inferInstanceAs (Decidable (∀ timer ∈ c.spaces.arms a, timer.retryCount = 0 →
      timer.time ≤ c.clock + maxDelay))
  | .tick _ | .restart => inferInstanceAs (Decidable True)

instance (c : Clocked) : (a : ClockAction) → Decidable (c.careful a)
  | .alarm a => inferInstanceAs (Decidable (c.spaces.careful a))
  | .tick _ | .restart => inferInstanceAs (Decidable True)

/-! ### Delays that fit -/

/-- No timer was armed for a time too far away. -/
def Near (c : Clocked) : Prop :=
  ∀ u timer, c.spaces.timers.armed.get? u = some timer → timer.time ≤ c.armedAt u + maxDelay

theorem near_start (db : Db) (clock : ℤ) : (start db clock).Near := nofun

/-- A timer whose delay fits is not fired before its time. -/
theorem Near.le_due (h : c.Near) {u : ℕ} {timer : Timer}
    (hu : c.spaces.timers.armed.get? u = some timer) : timer.time ≤ c.due u timer := by
  have hnear := h u timer hu
  have hfit : max 0 (timer.time - c.armedAt u) ≤ maxDelay := by
    refine max_le (by decide) ?_
    omega
  simp only [due, if_pos hfit]
  omega

/-- The cases of a step. -/
theorem of_alarm {a : AlarmAction} (hstep : clockStep c (.alarm a) = some c') :
    c.allows a = true ∧ ∃ s, alarmStep c.spaces a = some s ∧ { c with
      spaces := s
      armedAt := fun u => if u < c.spaces.timers.next then c.armedAt u else c.clock } = c' := by
  obtain ⟨hallows, hstep⟩ := Option.ite_none_right_eq_some.mp hstep
  exact ⟨hallows, Option.map_eq_some_iff.mp hstep⟩

/-- A timer the step arms has a time that fits, if the alarms that are set and restored have:
retries are near anyway. -/
theorem time_le_of_fits {a : AlarmAction} (hallows : c.allows a = true) (hfits : c.fits (.alarm a))
    {timer : Timer} (hmem : timer ∈ c.spaces.arms a) : timer.time ≤ c.clock + maxDelay := by
  cases a with
  | fails i now =>
    have hnow : now = c.clock := of_decide_eq_true hallows
    have hretry := Namespaces.time_le_of_mem_arms_fails hmem
    have hmax : (32000 : ℤ) ≤ maxDelay := by decide
    omega
  | setClass ns =>
    obtain ⟨row, -, rfl⟩ := List.mem_map.mp hmem
    exact hfits _ hmem rfl
  | storage hasCallback a =>
    refine hfits timer hmem ?_
    exact Namespaces.retryCount_of_mem_arms_storage hmem
  | access | dispose | fires | triggerAlarm | succeeds | cancelAlarm | deleteInstance => cases hmem

/-- **One step.** Timers are armed for near times as long as near times are asked for. -/
theorem Near.step (h : c.Near) {a : ClockAction} (hfits : c.fits a)
    (hstep : clockStep c a = some c') : c'.Near := by
  cases a with
  | alarm a =>
    obtain ⟨hallows, s, hs, rfl⟩ := of_alarm hstep
    intro u timer hu
    show timer.time ≤ (if u < c.spaces.timers.next then c.armedAt u else c.clock) + maxDelay
    rcases (Namespaces.grows_of_step hs).armed u timer hu with hold | ⟨hnew, hmem⟩
    · rw [if_pos (c.spaces.timers.lt_next hold)]
      exact h u timer hold
    · rw [if_neg (Nat.not_lt.mpr hnew)]
      exact time_le_of_fits hallows hfits hmem
  | tick ms =>
    obtain rfl := Option.some.inj hstep
    exact h
  | restart =>
    obtain rfl := Option.some.inj hstep
    exact nofun

/-- A timer that fires was due, so its time has come. -/
theorem Near.onTime (h : c.Near) {a : ClockAction} (hstep : clockStep c a = some c') :
    c.onTime a := by
  cases a with
  | alarm a =>
    cases a with
    | fires u creation =>
      intro timer hu
      obtain ⟨hallows, -⟩ := of_alarm hstep
      simp only [allows, Option.mem_def.mp hu, Option.all_some, decide_eq_true_eq] at hallows
      exact le_trans (h.le_due hu) hallows
    | _ => trivial
  | _ => trivial

/-! ### The alarm of the row -/

/-- Armed timers are those of the rows, in a process and from one process to the next. -/
structure Faithful (c : Clocked) : Prop where
  tracked : c.spaces.Tracked
  grounded : c.spaces.Grounded

theorem faithful_start (db : Db) (clock : ℤ) : (start db clock).Faithful :=
  ⟨Namespaces.tracked_init db, Namespaces.grounded_init db⟩

theorem Faithful.step (h : c.Faithful) {a : ClockAction} (hcareful : c.careful a)
    (hstep : clockStep c a = some c') : c'.Faithful := by
  cases a with
  | alarm a =>
    obtain ⟨-, s, hs, rfl⟩ := of_alarm hstep
    exact ⟨(h.tracked.step_iff h.grounded hs).mpr hcareful, h.grounded.step hs⟩
  | tick ms =>
    obtain rfl := Option.some.inj hstep
    exact ⟨h.tracked, h.grounded⟩
  | restart =>
    obtain rfl := Option.some.inj hstep
    exact ⟨Namespaces.tracked_init _, Namespaces.grounded_init _⟩

/-- The row of a timer that fires has its time. -/
theorem Faithful.rowDue (h : c.Faithful) {a : ClockAction} (honTime : c.onTime a) :
    c.rowDue a := by
  cases a with
  | alarm a =>
    cases a with
    | fires u creation =>
      intro timer hu t hrow
      have hwired := h.grounded.timers u timer hu
      have htime := h.tracked.linked.armed_iff.mp ⟨u, timer, hu, rfl, rfl⟩
      rw [h.tracked.time_eq timer.obj hwired, Option.mem_def.mp hrow] at htime
      obtain rfl := Option.some.inj htime
      exact honTime timer hu
    | _ => trivial
  | _ => trivial

/-! ### The results -/

/-- **Alarms are never early.** Whatever is set, restored and retried, and however often the
classes are reloaded or the process is restarted: while the alarms that are set and restored are
not too far away for a timer, none fires before the time it was armed for. If no step parts the
rows from the timers either, no alarm fires before the time of its row. -/
theorem neverEarly_along (db : Db) (clock : ℤ) (as : List ClockAction)
    (h : Along clockStep fits (start db clock) as) :
    Along clockStep onTime (start db clock) as ∧ (Along clockStep careful (start db clock) as →
      Along clockStep rowDue (start db clock) as) := by
  have honTime : Along clockStep onTime (start db clock) as :=
    h.of_invariant (near_start db clock) (fun _ _ _ hnear hfits hstep => hnear.step hfits hstep)
      fun _ _ _ hnear _ hstep => hnear.onTime hstep
  refine ⟨honTime, fun hcareful => ?_⟩
  exact (hcareful.and honTime).of_invariant (faithful_start db clock)
    (fun _ _ _ hc hok hstep => hc.step hok.1 hstep) fun _ _ _ hc hok _ => hc.rowDue hok.2

/-- The object of the runs below. -/
def counterA : Obj := ⟨"Counter", "a"⟩

/-- An object sets its alarm. -/
def sets (time : ℤ) : ClockAction :=
  .alarm (.storage true (.write .outside counterA (.setAlarm (some time))))

/-- The class is set and the object accessed. -/
def opening : List ClockAction :=
  [.alarm (.setClass "Counter"), .alarm (.access counterA Namespaces.quiet)]

/-- The process stops before the alarm, the alarm is restored, fires, fails and is retried. -/
def restartedRun : List ClockAction :=
  opening ++ [sets 5000, .tick 1000, .restart, .tick 1000, .alarm (.setClass "Counter"),
    .tick 3000, .alarm (.fires 0 Namespaces.quiet), .tick 10, .alarm (.fails 0 5010), .tick 1000,
    .alarm (.fires 1 Namespaces.quiet), .alarm (.succeeds 1)]

/-- The alarm of the run, and its retry, are on time. -/
theorem neverEarly_along_restartedRun :
    (play clockStep (start .empty 0) restartedRun).isSome = true ∧
      Along clockStep onTime (start .empty 0) restartedRun ∧
      Along clockStep rowDue (start .empty 0) restartedRun := by
  obtain ⟨honTime, hrow⟩ := neverEarly_along .empty 0 restartedRun (by decide +kernel)
  exact ⟨by decide +kernel, honTime, hrow (by decide +kernel)⟩

/-- An alarm in thirty days, and a millisecond. -/
def inThirtyDays : List ClockAction := opening ++ [sets 2592000000, .tick 1]

/-- After a millisecond the timer of the alarm in thirty days fires. -/
theorem not_neverEarly : ¬ ∀ c a c', Reaches clockStep unguarded (start .empty 0) c →
    clockStep c a = some c' → c.onTime a := by
  intro hall
  have hrun : (play (restrict clockStep unguarded) (start .empty 0) inThirtyDays).any (fun c =>
      c.spaces.timers.armed.get? 0 = some ⟨counterA, 2592000000, 0⟩ ∧ c.clock = 1 ∧
        (clockStep c (.alarm (.fires 0 Namespaces.quiet))).isSome = true) = true := by
    decide +kernel
  obtain ⟨c, hreach, hc⟩ := exists_reaches_of_play hrun
  obtain ⟨harmed, hclock, hfires⟩ := of_decide_eq_true hc
  obtain ⟨c', hstep⟩ := Option.isSome_iff_exists.mp hfires
  have htime : (2592000000 : ℤ) ≤ c.clock := hall c _ c' hreach hstep _ harmed
  omega

/-- A handler sets the next alarm and fails. The timer of its retry takes the place of the one it
has set, and a later alarm clears only the former. -/
def leftTimer : List ClockAction :=
  opening ++ [sets 1000, .tick 1000, .alarm (.fires 0 Namespaces.quiet), sets 5000,
    .alarm (.fails 0 1000), sets 100000, .tick 4000]

end Clocked

end Lopata.DurableObject
