import Lopata.DurableObject.Storage

/-!
# The Timers of Alarms

A namespace keeps, beside the rows of `do_alarms`, one handle of `setTimeout` for each object in
the map `alarmTimers`. The map only says which timer `clearTimeout` is called with: a timer whose
handle was overwritten stays armed.

The maps of all namespaces are one map here, keyed by the object. Handles are numbered in the
order in which they are given out.

## Main results

* `Timers.Linked.onAlarmSet`: the callback of `setAlarm` and `deleteAlarm` leaves one armed timer
  of the object or none.
* `Timers.linked_setTimeout_iff`: a timer that is armed without clearing the one before it keeps
  that up exactly when there is none.
* `Timers.linked_foldl_notify`: calls that write, each with its callback, change the armed times
  as they change the rows.
-/

namespace Lopata.DurableObject

/-- An armed timer. -/
structure Timer where
  /-- The object whose alarm it fires. -/
  obj : Obj
  /-- The time it is armed for. -/
  time : ℤ
  /-- What its callback passes on to `_fireAlarm`. -/
  retryCount : ℕ
  deriving DecidableEq, Repr

/-- The timers of all namespaces. -/
structure Timers where
  /-- The timers that are neither cleared nor fired, by handle. -/
  armed : Table ℕ Timer
  /-- The next handle. -/
  next : ℕ
  /-- `alarmTimers`. -/
  alarmTimers : Obj → Option ℕ
  /-- Handles are not given out twice. -/
  fresh : ∀ u, next ≤ u → armed.get? u = none

namespace Timers

/-- No timer is armed. -/
def empty : Timers := ⟨.empty, 0, fun _ => none, fun _ _ => rfl⟩

/-- `clearTimeout` of the timer the map holds for an object, if any. -/
def clearTimeout (ts : Timers) (o : Obj) : Timers :=
  match ts.alarmTimers o with
  | none => ts
  | some u =>
      { ts with
        armed := ts.armed.erase u
        fresh := by
          intro v hv
          rw [Table.get?_erase, ts.fresh v hv, ite_self] }

/-- `setTimeout`, and `alarmTimers.set`. -/
def setTimeout (ts : Timers) (timer : Timer) : Timers where
  armed := ts.armed.insert ts.next timer
  next := ts.next + 1
  alarmTimers := fun o => if o = timer.obj then some ts.next else ts.alarmTimers o
  fresh := by
    intro v hv
    rw [Table.get?_insert_of_ne _ _ (by omega)]
    exact ts.fresh v (by omega)

/-- `alarmTimers.delete`. -/
def forget (ts : Timers) (o : Obj) : Timers :=
  { ts with alarmTimers := fun o' => if o' = o then none else ts.alarmTimers o' }

/-- `_scheduleAlarmTimer`. -/
def scheduleAlarmTimer (ts : Timers) (o : Obj) (scheduledTime : ℤ) : Timers :=
  (ts.clearTimeout o).setTimeout ⟨o, scheduledTime, 0⟩

/-- The timer of an object is cleared and forgotten. -/
def cancel (ts : Timers) (o : Obj) : Timers :=
  (ts.clearTimeout o).forget o

/-- The callback `onAlarmSet` of an executor. -/
def onAlarmSet (ts : Timers) (o : Obj) : Option ℤ → Timers
  | none => ts.cancel o
  | some time => ts.scheduleAlarmTimer o time

/-- A timer fires: its callback forgets the timer the map holds. -/
def expire (ts : Timers) (u : ℕ) (o : Obj) : Timers :=
  { ts with
    armed := ts.armed.erase u
    fresh := by
      intro v hv
      rw [Table.get?_erase, ts.fresh v hv, ite_self] }.forget o

/-- `_restoreAlarms`, on the rows of the namespace. -/
def restoreAlarms (ts : Timers) (rows : List (Obj × ℤ)) : Timers :=
  rows.foldl (fun ts row => ts.scheduleAlarmTimer row.1 row.2) ts

end Timers

/-- What a storage method calls `_onAlarmSet` with, if it does. -/
def Write.onAlarmSet : Write → Option (Option ℤ)
  | .setAlarm (some time) => some (some time)
  | .deleteAlarm => some none
  | .setAlarm none | .put _ _ | .putEntries _ | .delete _ | .deleteKeys _ | .deleteAll => none

/-- A storage method calls its callback, in the same piece of code as its statement. -/
def Timers.notify (ts : Timers) (o : Obj) (w : Write) : Timers :=
  match w.onAlarmSet with
  | none => ts
  | some time => ts.onAlarmSet o time

/-! ### The map and the timers -/

namespace Timers

variable {ts : Timers}

/-- A timer of the object is armed for the time. -/
def Armed (ts : Timers) (o : Obj) (time : ℤ) : Prop :=
  ∃ u timer, ts.armed.get? u = some timer ∧ timer.obj = o ∧ timer.time = time

/-- The map holds exactly the armed timers. -/
def Linked (ts : Timers) : Prop :=
  ∀ o u, ts.alarmTimers o = some u ↔ ∃ timer, ts.armed.get? u = some timer ∧ timer.obj = o

/-- The time of the timer the map holds for an object. -/
def time (ts : Timers) (o : Obj) : Option ℤ :=
  ((ts.alarmTimers o).bind ts.armed.get?).map Timer.time

theorem linked_empty : empty.Linked := by
  intro o u
  constructor
  · exact nofun
  · rintro ⟨timer, htimer, -⟩
    cases htimer

/-- Each object has one armed timer at most. -/
theorem Linked.unique (h : ts.Linked) {u v : ℕ} {timer timer' : Timer}
    (hu : ts.armed.get? u = some timer) (hv : ts.armed.get? v = some timer')
    (hobj : timer.obj = timer'.obj) : u = v := by
  have hmap := (h timer.obj u).mpr ⟨timer, hu, rfl⟩
  have hmap' := (h timer.obj v).mpr ⟨timer', hv, hobj.symm⟩
  exact Option.some.inj (hmap.symm.trans hmap')

/-- The map tells which times are armed. -/
theorem Linked.armed_iff (h : ts.Linked) {o : Obj} {t : ℤ} :
    ts.Armed o t ↔ ts.time o = some t := by
  constructor
  · rintro ⟨u, timer, hu, hobj, rfl⟩
    have hmap := (h o u).mpr ⟨timer, hu, hobj⟩
    simp [time, hmap, hu]
  · intro ht
    obtain ⟨timer, hbind, rfl⟩ := Option.map_eq_some_iff.mp ht
    obtain ⟨u, hmap, hu⟩ := Option.bind_eq_some_iff.mp hbind
    obtain ⟨timer', hu', hobj⟩ := (h o u).mp hmap
    obtain rfl := Option.some.inj (hu.symm.trans hu')
    exact ⟨u, timer, hu, hobj, rfl⟩

/-- An object without an entry has no time, and conversely. -/
theorem Linked.time_eq_none_iff (h : ts.Linked) {o : Obj} :
    ts.time o = none ↔ ts.alarmTimers o = none := by
  constructor
  · intro htime
    cases hmap : ts.alarmTimers o with
    | none => rfl
    | some u =>
      obtain ⟨timer, hu, -⟩ := (h o u).mp hmap
      simp [time, hmap, hu] at htime
  · intro hmap
    simp [time, hmap]

/-! ### The operations -/

@[simp] theorem alarmTimers_clearTimeout (ts : Timers) (o : Obj) :
    (ts.clearTimeout o).alarmTimers = ts.alarmTimers := by
  simp only [clearTimeout]
  split <;> rfl

@[simp] theorem next_clearTimeout (ts : Timers) (o : Obj) :
    (ts.clearTimeout o).next = ts.next := by
  simp only [clearTimeout]
  split <;> rfl

/-- Clearing removes the timer of the map. -/
theorem get?_clearTimeout (ts : Timers) (o : Obj) (u : ℕ) :
    (ts.clearTimeout o).armed.get? u =
      if ts.alarmTimers o = some u then none else ts.armed.get? u := by
  simp only [clearTimeout]
  split
  · next hnone => simp [hnone]
  · next v hv =>
      rw [Table.get?_erase, hv]
      simp [eq_comm]

/-- Cancelling leaves the object without a timer and the others with theirs. -/
theorem Linked.cancel (h : ts.Linked) (o : Obj) : (ts.cancel o).Linked := by
  intro o' u
  have harmed : (ts.cancel o).armed.get? u =
      if ts.alarmTimers o = some u then none else ts.armed.get? u := ts.get?_clearTimeout o u
  have hmap : (ts.cancel o).alarmTimers o' = if o' = o then none else ts.alarmTimers o' := by
    simp [Timers.cancel, forget]
  rw [harmed, hmap]
  constructor
  · intro hsome
    split at hsome
    · cases hsome
    · next hne =>
        obtain ⟨timer, hu, hobj⟩ := (h o' u).mp hsome
        refine ⟨timer, ?_, hobj⟩
        rw [if_neg]
        · exact hu
        · intro ho
          obtain ⟨timer', hu', hobj'⟩ := (h o u).mp ho
          obtain rfl := Option.some.inj (hu.symm.trans hu')
          exact hne (hobj.symm.trans hobj')
  · rintro ⟨timer, hu, hobj⟩
    split at hu
    · cases hu
    · next hother =>
        have hold := (h o' u).mpr ⟨timer, hu, hobj⟩
        rw [if_neg]
        · exact hold
        · rintro rfl
          exact hother hold

theorem Linked.time_cancel (h : ts.Linked) (o o' : Obj) :
    (ts.cancel o).time o' = if o' = o then none else ts.time o' := by
  have hmap : (ts.cancel o).alarmTimers o' = if o' = o then none else ts.alarmTimers o' := by
    simp [Timers.cancel, forget]
  split
  · next heq =>
      rw [if_pos heq] at hmap
      exact (h.cancel o).time_eq_none_iff.mpr hmap
  · next hne =>
      rw [if_neg hne] at hmap
      simp only [time, hmap]
      cases hold : ts.alarmTimers o' with
      | none => rfl
      | some u =>
        have hother : ts.alarmTimers o ≠ some u := by
          intro ho
          obtain ⟨timer, hu, hobj⟩ := (h o' u).mp hold
          obtain ⟨timer', hu', hobj'⟩ := (h o u).mp ho
          obtain rfl := Option.some.inj (hu.symm.trans hu')
          exact hne (hobj.symm.trans hobj')
        have harmed := ts.get?_clearTimeout o u
        rw [if_neg hother] at harmed
        exact congrArg (Option.map Timer.time) harmed

/-- A timer that fires is gone from both. -/
theorem Linked.expire_armed (h : ts.Linked) {u : ℕ} {timer : Timer}
    (hu : ts.armed.get? u = some timer) :
    (ts.expire u timer.obj) = ts.cancel timer.obj := by
  have hmap := (h timer.obj u).mpr ⟨timer, hu, rfl⟩
  simp only [expire, Timers.cancel, clearTimeout]
  split
  · next hnone => cases hmap.symm.trans hnone
  · next v hv =>
      obtain rfl := Option.some.inj (hmap.symm.trans hv)
      rfl

/-- The map is overwritten anyway: scheduling is arming after a cancellation. -/
theorem scheduleAlarmTimer_eq (ts : Timers) (o : Obj) (scheduledTime : ℤ) :
    ts.scheduleAlarmTimer o scheduledTime = (ts.cancel o).setTimeout ⟨o, scheduledTime, 0⟩ := by
  have hmap : (fun o' => if o' = o then some (ts.clearTimeout o).next
      else (ts.clearTimeout o).alarmTimers o') =
      fun o' => if o' = o then some (ts.cancel o).next else (ts.cancel o).alarmTimers o' := by
    funext o'
    by_cases h : o' = o
    · rw [if_pos h, if_pos h]
      rfl
    · rw [if_neg h, if_neg h]
      simp [cancel, forget, h]
  simp only [scheduleAlarmTimer, setTimeout, hmap]
  rfl

theorem get?_setTimeout (ts : Timers) (timer : Timer) (u : ℕ) :
    (ts.setTimeout timer).armed.get? u =
      if u = ts.next then some timer else ts.armed.get? u :=
  ts.armed.get?_insert ts.next timer u

/-- A handle that is armed was given out. -/
theorem lt_next (ts : Timers) {u : ℕ} {timer : Timer} (hu : ts.armed.get? u = some timer) :
    u < ts.next := by
  by_contra hlt
  have hnone := ts.fresh u (by omega)
  cases hu.symm.trans hnone

/-- **Arming without clearing.** The map still holds exactly the armed timers if and only if it
held none for the object. -/
theorem linked_setTimeout_iff (h : ts.Linked) (timer : Timer) :
    (ts.setTimeout timer).Linked ↔ ts.alarmTimers timer.obj = none := by
  constructor
  · intro hnew
    cases hmap : ts.alarmTimers timer.obj with
    | none => rfl
    | some u =>
      obtain ⟨old, hu, hobj⟩ := (h timer.obj u).mp hmap
      have hlt := ts.lt_next hu
      have hold : (ts.setTimeout timer).armed.get? u = some old := by
        rw [get?_setTimeout, if_neg (by omega), hu]
      have hadded : (ts.setTimeout timer).armed.get? ts.next = some timer := by
        rw [get?_setTimeout, if_pos rfl]
      have := hnew.unique hold hadded hobj
      omega
  · intro hnone o u
    rw [get?_setTimeout]
    show (if o = timer.obj then some ts.next else ts.alarmTimers o) = some u ↔ _
    by_cases ho : o = timer.obj
    · rw [if_pos ho]
      by_cases hu : u = ts.next
      · simp [hu, ho]
      · rw [if_neg hu]
        refine ⟨fun heq => absurd (Option.some.inj heq).symm hu, ?_⟩
        intro hold
        have hmap := (h o u).mpr hold
        rw [ho, hnone] at hmap
        cases hmap
    · rw [if_neg ho, h o u]
      by_cases hu : u = ts.next
      · have hunused : ts.armed.get? u = none := ts.fresh u (by omega)
        rw [if_pos hu, hunused]
        constructor
        · rintro ⟨_, hsome, -⟩
          cases hsome
        · rintro ⟨added, hsome, hobj⟩
          obtain rfl := Option.some.inj hsome
          exact absurd hobj.symm ho
      · rw [if_neg hu]

/-- The time of the new timer is its own, the others keep theirs. -/
theorem Linked.time_setTimeout (h : ts.Linked) (timer : Timer) (o : Obj) :
    (ts.setTimeout timer).time o = if o = timer.obj then some timer.time else ts.time o := by
  have hmap : (ts.setTimeout timer).alarmTimers o =
      if o = timer.obj then some ts.next else ts.alarmTimers o := rfl
  split
  · next ho =>
      rw [if_pos ho] at hmap
      simp [time, hmap, get?_setTimeout]
  · next ho =>
      rw [if_neg ho] at hmap
      simp only [time, hmap]
      cases hold : ts.alarmTimers o with
      | none => rfl
      | some u =>
        obtain ⟨old, hu, -⟩ := (h o u).mp hold
        have hlt := ts.lt_next hu
        have hkept : (ts.setTimeout timer).armed.get? u = ts.armed.get? u := by
          rw [get?_setTimeout, if_neg (by omega)]
        exact congrArg (Option.map Timer.time) hkept

/-- Scheduling leaves one timer of the object, armed for the new time. -/
theorem Linked.scheduleAlarmTimer (h : ts.Linked) (o : Obj) (t : ℤ) :
    (ts.scheduleAlarmTimer o t).Linked ∧ ∀ o', (ts.scheduleAlarmTimer o t).time o' =
      if o' = o then some t else ts.time o' := by
  have hcancel := h.cancel o
  have hnone : (ts.cancel o).alarmTimers o = none := by simp [Timers.cancel, forget]
  rw [scheduleAlarmTimer_eq]
  refine ⟨(linked_setTimeout_iff hcancel _).mpr hnone, ?_⟩
  intro o'
  rw [hcancel.time_setTimeout, h.time_cancel]
  split <;> rfl

/-- **The callback.** It leaves one armed timer of the object or none, as it is told. -/
theorem Linked.onAlarmSet (h : ts.Linked) (o : Obj) (t : Option ℤ) :
    (ts.onAlarmSet o t).Linked ∧ ∀ o', (ts.onAlarmSet o t).time o' =
      if o' = o then t else ts.time o' := by
  cases t with
  | none => exact ⟨h.cancel o, h.time_cancel o⟩
  | some t => exact h.scheduleAlarmTimer o t

end Timers

/-! ### Rows and callbacks -/

namespace Write

/-- What a write makes of the alarm of an object, in the rows or in the map. -/
def alarm (w : Write) (o : Obj) (alarms : Obj → Option ℤ) : Obj → Option ℤ :=
  match w.onAlarmSet with
  | none => alarms
  | some time => fun o' => if o' = o then time else alarms o'

/-- The loop of `put(entries)` keeps the alarms. -/
theorem alarm_foldl_set (o : Obj) (entries : List (String × Option String)) (c : Contents) :
    (entries.foldl (fun c e => c.set o e.1 e.2) c).alarm = c.alarm := by
  induction entries generalizing c with
  | nil => rfl
  | cons e entries ih =>
    rw [List.foldl_cons, ih]
    rfl

/-- A write changes the rows of `do_alarms` as it tells its callback. -/
theorem alarm_run (o : Obj) (db : Db) (w : Write) :
    (w.run o db).1.contents.alarm = w.alarm o db.contents.alarm := by
  rw [contents_run]
  cases w with
  | putEntries entries =>
    split
    · exact alarm_foldl_set o entries db.contents
    · rfl
  | put key value => cases value <;> rfl
  | setAlarm time => cases time <;> rfl
  | delete key => rfl
  | deleteKeys keys => rfl
  | deleteAll => rfl
  | deleteAlarm => rfl

/-- The alarm of an object depends on what its alarm was. -/
theorem alarm_congr (w : Write) (o : Obj) {f g : Obj → Option ℤ} {o' : Obj} (h : f o' = g o') :
    w.alarm o f o' = w.alarm o g o' := by
  simp only [alarm]
  cases w.onAlarmSet with
  | none => exact h
  | some t => simp only [h]

/-- A write of another object keeps the alarm. -/
theorem alarm_of_ne (w : Write) {o o' : Obj} (h : o' ≠ o) (f : Obj → Option ℤ) :
    w.alarm o f o' = f o' := by
  simp only [alarm]
  cases w.onAlarmSet with
  | none => rfl
  | some t => exact if_neg h

end Write

/-- What writes make of the alarms. -/
def alarmsAfter (ws : List (Obj × Write)) (alarms : Obj → Option ℤ) : Obj → Option ℤ :=
  ws.foldl (fun alarms w => w.2.alarm w.1 alarms) alarms

theorem alarm_foldl_run (ws : List (Obj × Write)) (db : Db) :
    (ws.foldl (fun db w => (w.2.run w.1 db).1) db).contents.alarm =
      alarmsAfter ws db.contents.alarm := by
  induction ws generalizing db with
  | nil => rfl
  | cons w ws ih =>
    rw [List.foldl_cons, ih, Write.alarm_run]
    rfl

theorem alarmsAfter_congr (ws : List (Obj × Write)) {f g : Obj → Option ℤ} {o : Obj}
    (h : f o = g o) : alarmsAfter ws f o = alarmsAfter ws g o := by
  induction ws generalizing f g with
  | nil => exact h
  | cons w ws ih => exact ih (w.2.alarm_congr w.1 h)

namespace Timers

variable {ts : Timers}

/-- The callback of a write changes the armed times as the write changes the rows. -/
theorem Linked.notify (h : ts.Linked) (o : Obj) (w : Write) :
    (ts.notify o w).Linked ∧ (ts.notify o w).time = w.alarm o ts.time := by
  simp only [Timers.notify, Write.alarm]
  cases w.onAlarmSet with
  | none => exact ⟨h, rfl⟩
  | some t =>
    obtain ⟨hlinked, htime⟩ := h.onAlarmSet o t
    exact ⟨hlinked, funext htime⟩

/-- **Writes with their callbacks.** The armed times follow the rows. -/
theorem linked_foldl_notify (ws : List (Obj × Write)) (h : ts.Linked) :
    (ws.foldl (fun ts w => ts.notify w.1 w.2) ts).Linked ∧
      (ws.foldl (fun ts w => ts.notify w.1 w.2) ts).time = alarmsAfter ws ts.time := by
  induction ws generalizing ts with
  | nil => exact ⟨h, rfl⟩
  | cons w ws ih =>
    obtain ⟨hlinked, htime⟩ := h.notify w.1 w.2
    obtain ⟨hlinked', htime'⟩ := ih hlinked
    rw [htime] at htime'
    exact ⟨hlinked', htime'⟩

/-- Restoring arms the timer of each row and leaves the others. -/
theorem Linked.restoreAlarms (h : ts.Linked) {rows : List (Obj × ℤ)}
    (hnodup : (rows.map Prod.fst).Nodup) :
    (ts.restoreAlarms rows).Linked ∧
      (∀ row ∈ rows, (ts.restoreAlarms rows).time row.1 = some row.2) ∧
      ∀ o, o ∉ rows.map Prod.fst → (ts.restoreAlarms rows).time o = ts.time o := by
  induction rows generalizing ts with
  | nil => exact ⟨h, nofun, fun _ _ => rfl⟩
  | cons row rows ih =>
    obtain ⟨hrow, hnodup⟩ := List.nodup_cons.mp hnodup
    obtain ⟨hlinked, htime⟩ := h.scheduleAlarmTimer row.1 row.2
    obtain ⟨hlinked', hrows, hothers⟩ := ih hlinked hnodup
    refine ⟨hlinked', ?_, ?_⟩
    · intro row' hmem
      rcases List.mem_cons.mp hmem with rfl | hmem
      · exact (hothers row'.1 hrow).trans ((htime row'.1).trans (if_pos rfl))
      · exact hrows row' hmem
    · intro o ho
      obtain ⟨hne, ho⟩ := not_or.mp (fun hor => ho (List.mem_cons.mpr hor))
      exact (hothers o ho).trans ((htime o).trans (if_neg hne))

/-! ### Whose timers are armed -/

/-- Every armed timer is of an object that satisfies `q`. -/
def Of (ts : Timers) (q : Obj → Prop) : Prop :=
  ∀ u timer, ts.armed.get? u = some timer → q timer.obj

variable {q : Obj → Prop}

theorem Of.cancel (h : ts.Of q) (o : Obj) : (ts.cancel o).Of q := by
  intro u timer hu
  have hget := ts.get?_clearTimeout o u
  split at hget
  · cases hu.symm.trans hget
  · exact h u timer (hget.symm.trans hu)

theorem Of.expire (h : ts.Of q) (u : ℕ) (o : Obj) : (ts.expire u o).Of q := by
  intro v timer hv
  have hget : (ts.expire u o).armed.get? v = _ := ts.armed.get?_erase u v
  split at hget
  · cases hv.symm.trans hget
  · exact h v timer (hget.symm.trans hv)

theorem Of.setTimeout (h : ts.Of q) {timer : Timer} (hq : q timer.obj) :
    (ts.setTimeout timer).Of q := by
  intro u timer' hu
  rw [get?_setTimeout] at hu
  split at hu
  · obtain rfl := Option.some.inj hu
    exact hq
  · exact h u timer' hu

theorem Of.scheduleAlarmTimer (h : ts.Of q) {o : Obj} (hq : q o) (t : ℤ) :
    (ts.scheduleAlarmTimer o t).Of q := by
  rw [scheduleAlarmTimer_eq]
  exact (h.cancel o).setTimeout hq

theorem Of.notify (h : ts.Of q) {o : Obj} (hq : q o) (w : Write) : (ts.notify o w).Of q := by
  simp only [Timers.notify]
  split
  · exact h
  · next t _ =>
      cases t with
      | none => exact h.cancel o
      | some t => exact h.scheduleAlarmTimer hq t

theorem Of.foldl_notify {ws : List (Obj × Write)} (h : ts.Of q) (hq : ∀ w ∈ ws, q w.1) :
    (ws.foldl (fun ts w => ts.notify w.1 w.2) ts).Of q := by
  induction ws generalizing ts with
  | nil => exact h
  | cons w ws ih =>
    obtain ⟨hw, hws⟩ := List.forall_mem_cons.mp hq
    exact ih (h.notify hw w.2) hws

theorem Of.restoreAlarms {rows : List (Obj × ℤ)} (h : ts.Of q) (hq : ∀ row ∈ rows, q row.1) :
    (ts.restoreAlarms rows).Of q := by
  induction rows generalizing ts with
  | nil => exact h
  | cons row rows ih =>
    obtain ⟨hrow, hrows⟩ := List.forall_mem_cons.mp hq
    exact ih (h.scheduleAlarmTimer hrow row.2) hrows

end Timers

end Lopata.DurableObject
