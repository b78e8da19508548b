import Lopata.DurableObject.Timers
import Lopata.DurableObject.Transaction
import Mathlib.Algebra.Group.Int.Defs

/-!
# Alarms

An alarm is a row of `do_alarms` and an armed timer. The storage methods write the row and tell
the namespace through a callback; the namespace restores timers from rows, fires them, writes the
row of a retry itself, and cancels both.

A label is one uninterrupted piece of code, on the executors that live in the process of the
namespace. A handler may be answered at any time, and its object may go on in the meantime. The
row of `do_instances`, the stubs and the known ids of a namespace decide nothing here.

## Main results

* `Namespaces.tracked_throughout_iff`: the armed timers are those of the rows all along a run
  exactly when no step is careless: no rollback changes a row, no handler that is to be retried
  leaves a timer behind, and no constructor changes a row that it cannot tell.
* `Namespaces.coherent_along`: in a run without careless steps each object has one armed timer at
  most, and while none of its handlers runs it is armed for the time of its row.
* `Namespaces.not_coherent`: a handler that sets an alarm and fails leaves two armed timers.
-/

namespace Lopata.DurableObject

/-- What the constructor of a class does before the executor has set the callback. -/
structure Creation where
  /-- The writes it makes. -/
  writes : List Write
  throws : Bool
  deriving DecidableEq, Repr

/-- A call of `executor.executeAlarm`. -/
structure Handler where
  obj : Obj
  retryCount : ℕ
  /-- It is not settled. -/
  running : Bool
  deriving DecidableEq, Repr

/-- The namespaces of one connection. -/
structure Namespaces where
  conn : Connection
  timers : Timers
  /-- `_isWired`, by name. -/
  wired : String → Bool
  /-- `_executors` has the object. -/
  executors : Obj → Bool
  /-- An executor was created for the object. Its code may go on after it is disposed of. -/
  loaded : Obj → Bool
  /-- A constructor of the object threw. What it has started may go on, without a callback. -/
  abandoned : Obj → Bool
  /-- The calls of alarm handlers, oldest first. -/
  handlers : List Handler

/-- `MAX_ALARM_RETRIES`. -/
def maxAlarmRetries : ℕ := 6

namespace Namespaces

/-- The namespaces before their classes are set. -/
def init (db : Db) : Namespaces :=
  ⟨.init db, .empty, fun _ => false, fun _ => false, fun _ => false, fun _ => false, []⟩

/-- `alarm_time` of the row of an object. -/
def row (s : Namespaces) (o : Obj) : Option ℤ := s.conn.db.contents.alarm o

/-- `_setClass`, as far as it goes beyond disposing of executors. -/
def setClass (s : Namespaces) (ns : String) : Namespaces :=
  { s with
    wired := fun ns' => ns' = ns || s.wired ns'
    timers := s.timers.restoreAlarms
      (s.conn.db.alarms.rows.filter fun row => row.1.doNamespace = ns) }

/-- The constructor runs: its writes have no callback. -/
def construct (s : Namespaces) (o : Obj) (ws : List Write) : Namespaces :=
  { s with conn := ws.foldl (fun c w => c.write true o w) s.conn }

/-- An access to the object creates an executor. -/
def creates (s : Namespaces) (o : Obj) : Bool :=
  !s.executors o && s.wired o.doNamespace

/-- `_getOrCreateExecutor`, and whether it returns an executor. -/
def getOrCreateExecutor (s : Namespaces) (o : Obj) (creation : Creation) : Namespaces × Bool :=
  if s.executors o then (s, true)
  else if !s.wired o.doNamespace then (s, false)
  else
    let s := s.construct o creation.writes
    if creation.throws then
      ({ s with abandoned := fun o' => o' = o || s.abandoned o' }, false)
    else
      ({ s with
        executors := fun o' => o' = o || s.executors o'
        loaded := fun o' => o' = o || s.loaded o' }, true)

/-- `_fireAlarm` until it awaits the handler. -/
def fireAlarm (s : Namespaces) (o : Obj) (retryCount : ℕ) (creation : Creation) : Namespaces :=
  let (s, found) := s.getOrCreateExecutor o creation
  if found then
    { s with
      conn := s.conn.write true o .deleteAlarm
      handlers := s.handlers ++ [⟨o, retryCount, true⟩] }
  else s

/-- A handler is settled. -/
def ends (s : Namespaces) (h : ℕ) (handler : Handler) : Namespaces :=
  { s with handlers := s.handlers.set h { handler with running := false } }

/-- The `catch` of `_fireAlarm`. -/
def retry (s : Namespaces) (o : Obj) (retryCount : ℕ) (now : ℤ) : Namespaces :=
  if retryCount < maxAlarmRetries then
    let retryTime := now + 2 ^ retryCount * 1000
    { s with
      conn := s.conn.write true o (.setAlarm (some retryTime))
      -- the timer before is not cleared
      timers := s.timers.setTimeout ⟨o, retryTime, retryCount + 1⟩ }
  else s

/-- `cancelAlarm`. -/
def cancelAlarm (s : Namespaces) (o : Obj) : Namespaces :=
  { s with
    timers := s.timers.cancel o
    conn := s.conn.write true o .deleteAlarm }

/-- `deleteInstance`. -/
def deleteInstance (s : Namespaces) (o : Obj) : Namespaces :=
  let s := s.cancelAlarm o
  let s := { s with executors := fun o' => o' ≠ o && s.executors o' }
  match s.conn.opened with
  -- BEGIN within a transaction is refused
  | some _ => s
  | none => { s with conn := (s.conn.write true o .deleteAll).write true o .deleteAlarm }

end Namespaces

/-- The objects whose storage an action is about. -/
def StorageAction.objects : StorageAction → List Obj
  | .write _ o _ => [o]
  | .transactionSync ws _ => ws.map Prod.fst
  | .transaction | .begins _ | .settles _ _ => []

/-- The callbacks of an action. -/
def Timers.callbacks (ts : Timers) (c : Connection) : StorageAction → Timers
  | .write _ o w => ts.notify o w
  | .transactionSync ws _ =>
      match c.opened with
      -- BEGIN IMMEDIATE within a transaction is refused
      | some _ => ts
      | none => ws.foldl (fun ts w => ts.notify w.1 w.2) ts
  | .transaction | .begins _ | .settles _ _ => ts

/-- One uninterrupted piece of code. -/
inductive AlarmAction
  /-- The class of a namespace is set, at the start or by a reload. -/
  | setClass (ns : String)
  /-- A request obtains the executor of an object. -/
  | access (o : Obj) (creation : Creation)
  /-- An executor is disposed of: evicted, aborted or replaced. -/
  | dispose (o : Obj)
  /-- The code of an object goes on. -/
  | storage (hasCallback : Bool) (a : StorageAction)
  /-- A timer fires. -/
  | fires (timer : ℕ) (creation : Creation)
  /-- `triggerAlarm`. -/
  | triggerAlarm (o : Obj) (creation : Creation)
  /-- A handler resolves. -/
  | succeeds (handler : ℕ)
  /-- A handler rejects. -/
  | fails (handler : ℕ) (now : ℤ)
  /-- `cancelAlarm`. -/
  | cancelAlarm (o : Obj)
  /-- `deleteInstance`. -/
  | deleteInstance (o : Obj)
  deriving DecidableEq, Repr

/-- The step of the namespaces. -/
def alarmStep (s : Namespaces) : AlarmAction → Option Namespaces
  | .setClass ns => some (s.setClass ns)
  | .access o creation => some (s.getOrCreateExecutor o creation).1
  | .dispose o => some { s with executors := fun o' => o' ≠ o && s.executors o' }
  | .storage hasCallback a =>
      if a.objects.all (if hasCallback then s.loaded else s.abandoned) then
        (storageStep s.conn a).map fun conn =>
          { s with
            conn
            timers := if hasCallback then s.timers.callbacks s.conn a else s.timers }
      else none
  | .fires u creation =>
      (s.timers.armed.get? u).map fun timer =>
        { s with timers := s.timers.expire u timer.obj }.fireAlarm timer.obj timer.retryCount
          creation
  | .triggerAlarm o creation =>
      some ({ s with timers := s.timers.cancel o }.fireAlarm o 0 creation)
  | .succeeds h =>
      match s.handlers[h]? with
      | some handler => if handler.running then some (s.ends h handler) else none
      | none => none
  | .fails h now =>
      match s.handlers[h]? with
      | some handler =>
          if handler.running then
            some ((s.ends h handler).retry handler.obj handler.retryCount now)
          else none
      | none => none
  | .cancelAlarm o => some (s.cancelAlarm o)
  | .deleteInstance o => some (s.deleteInstance o)

/-- The steps of `_fireReadyAlarms`: it triggers the alarm of each row that is due. -/
def Namespaces.fireReadyAlarms (s : Namespaces) (ns : String) (now : ℤ)
    (creation : Obj → Creation) : List AlarmAction :=
  (s.conn.db.alarms.rows.filter fun row => row.1.doNamespace = ns && row.2 ≤ now).map fun row =>
    .triggerAlarm row.1 (creation row.1)

namespace Namespaces

/-! ### Careless steps -/

/-- Tables hold the alarms of the rows, for the objects of namespaces in use. -/
def Agree (s : Namespaces) (db : Db) : Prop :=
  ∀ o, s.wired o.doNamespace = true → db.contents.alarm o = s.row o

instance (s : Namespaces) (db : Db) : Decidable (s.Agree db) :=
  decidable_of_iff _ Table.forall_get?_eq_iff.symm

/-- A storage action does not part the rows from the timers: what is rolled back, or done without
a callback, leaves the alarms as they are. -/
def carefulStorage (s : Namespaces) (hasCallback : Bool) : StorageAction → Prop
  | .write _ o w => hasCallback = false → s.Agree (w.run o s.conn.db).1
  | .settles _ outcome => outcome ≠ .resolved → s.Agree (s.conn.opened.getD s.conn.db)
  | .transactionSync ws throws =>
      -- with callbacks nothing may be rolled back, without them nothing committed
      hasCallback = throws → s.conn.opened.isNone = true →
        s.Agree (ws.foldl (fun db w => (w.2.run w.1 db).1) s.conn.db)
  | .transaction | .begins _ => True

/-- An alarm that fires creates an executor, or there is no alarm left. -/
def survives (s : Namespaces) (o : Obj) (creation : Creation) : Prop :=
  s.creates o = true → creation.throws = true → (s.construct o creation.writes).row o = none

/-- The step does not part the rows from the timers. -/
def careful (s : Namespaces) : AlarmAction → Prop
  | .access o creation =>
      s.creates o = true → (s.construct o creation.writes).row o = s.row o
  | .storage hasCallback a => s.carefulStorage hasCallback a
  | .fires u creation => ∀ timer ∈ s.timers.armed.get? u, s.survives timer.obj creation
  | .triggerAlarm o creation => s.survives o creation
  | .fails h _ => ∀ handler ∈ s.handlers[h]?, handler.retryCount < maxAlarmRetries →
      s.timers.alarmTimers handler.obj = none
  | .setClass _ | .dispose _ | .succeeds _ | .cancelAlarm _ | .deleteInstance _ => True

instance (s : Namespaces) (hasCallback : Bool) :
    (a : StorageAction) → Decidable (s.carefulStorage hasCallback a)
  | .write _ o w =>
      inferInstanceAs (Decidable (hasCallback = false → s.Agree (w.run o s.conn.db).1))
  | .settles _ outcome => inferInstanceAs
      (Decidable (outcome ≠ .resolved → s.Agree (s.conn.opened.getD s.conn.db)))
  | .transactionSync ws throws => inferInstanceAs
      (Decidable (hasCallback = throws → s.conn.opened.isNone = true →
        s.Agree (ws.foldl (fun db w => (w.2.run w.1 db).1) s.conn.db)))
  | .transaction | .begins _ => inferInstanceAs (Decidable True)

instance (s : Namespaces) (o : Obj) (creation : Creation) : Decidable (s.survives o creation) :=
  inferInstanceAs (Decidable (s.creates o = true → creation.throws = true →
    (s.construct o creation.writes).row o = none))

instance (s : Namespaces) : (a : AlarmAction) → Decidable (s.careful a)
  | .access o creation => inferInstanceAs
      (Decidable (s.creates o = true → (s.construct o creation.writes).row o = s.row o))
  | .storage hasCallback a => inferInstanceAs (Decidable (s.carefulStorage hasCallback a))
  | .fires u creation => inferInstanceAs
      (Decidable (∀ timer ∈ s.timers.armed.get? u, s.survives timer.obj creation))
  | .triggerAlarm o creation => inferInstanceAs (Decidable (s.survives o creation))
  | .fails h _ => inferInstanceAs (Decidable (∀ handler ∈ s.handlers[h]?,
      handler.retryCount < maxAlarmRetries → s.timers.alarmTimers handler.obj = none))
  | .setClass _ | .dispose _ | .succeeds _ | .cancelAlarm _ | .deleteInstance _ =>
      inferInstanceAs (Decidable True)

/-! ### Coherence -/

/-- Each object has one armed timer at most, and while no alarm handler of it runs a timer is
armed for the time of its row and no other. An object whose namespace has no class yet waits for
its alarm to be restored. -/
structure Coherent (s : Namespaces) : Prop where
  /-- One armed timer at most. -/
  unique : ∀ u v timer timer', s.timers.armed.get? u = some timer →
    s.timers.armed.get? v = some timer' → timer.obj = timer'.obj → u = v
  /-- The row and the timer say the same. -/
  armed_iff : ∀ o, s.wired o.doNamespace = true →
    (∀ handler ∈ s.handlers, handler.obj = o → handler.running = false) →
    ∀ t, s.timers.Armed o t ↔ s.row o = some t

/-- The armed timers are those of the map, and those of the rows, whatever runs. -/
structure Tracked (s : Namespaces) : Prop where
  /-- The map holds the armed timers. -/
  linked : s.timers.Linked
  /-- They are armed for the times of the rows. -/
  time_eq : ∀ o, s.wired o.doNamespace = true → s.timers.time o = s.row o

theorem Tracked.coherent {s : Namespaces} (h : s.Tracked) : s.Coherent where
  unique _ _ _ _ hu hv hobj := h.linked.unique hu hv hobj
  armed_iff o hwired _ t := by
    rw [h.linked.armed_iff, h.time_eq o hwired]

/-- Only objects of namespaces in use have executors, handlers and timers. -/
structure Grounded (s : Namespaces) : Prop where
  executors : ∀ o, s.executors o = true → s.wired o.doNamespace = true
  loaded : ∀ o, s.loaded o = true → s.wired o.doNamespace = true
  handlers : ∀ handler ∈ s.handlers, s.wired handler.obj.doNamespace = true
  timers : s.timers.Of fun o => s.wired o.doNamespace = true

theorem tracked_init (db : Db) : (init db).Tracked := ⟨Timers.linked_empty, nofun⟩

theorem grounded_init (db : Db) : (init db).Grounded := ⟨nofun, nofun, nofun, nofun⟩

/-! ### Rows -/

end Namespaces

/-- A storage method leaves the tables its statement leaves. -/
theorem Connection.db_write (c : Connection) (isOutside : Bool) (o : Obj) (w : Write) :
    (c.write isOutside o w).db = (w.run o c.db).1 := by
  simp only [Connection.write, Connection.book]
  split
  · rfl
  · split <;> rfl

theorem Connection.alarm_write (c : Connection) (isOutside : Bool) (o : Obj) (w : Write) :
    (c.write isOutside o w).db.contents.alarm = w.alarm o c.db.contents.alarm := by
  rw [db_write, Write.alarm_run]

namespace Namespaces

variable {s s' : Namespaces}

/-- A constructor does not write rows of other objects. -/
theorem row_construct_of_ne (s : Namespaces) {o o' : Obj} (ws : List Write) (h : o' ≠ o) :
    (s.construct o ws).row o' = s.row o' := by
  induction ws generalizing s with
  | nil => rfl
  | cons w ws ih =>
    have hrest := ih { s with conn := s.conn.write true o w }
    have hfirst : ({ s with conn := s.conn.write true o w } : Namespaces).row o' = s.row o' := by
      simp only [row, Connection.alarm_write]
      exact w.alarm_of_ne h _
    exact hrest.trans hfirst

/-- The cases of `_getOrCreateExecutor`. -/
theorem getOrCreateExecutor_cases (s : Namespaces) (o : Obj) (creation : Creation) :
    (s.executors o = true ∧ s.getOrCreateExecutor o creation = (s, true)) ∨
    (s.executors o = false ∧ s.wired o.doNamespace = false ∧
      s.getOrCreateExecutor o creation = (s, false)) ∨
    (s.creates o = true ∧ creation.throws = true ∧ s.getOrCreateExecutor o creation =
      ({ s.construct o creation.writes with
        abandoned := fun o' => o' = o || s.abandoned o' }, false)) ∨
    (s.creates o = true ∧ creation.throws = false ∧ s.getOrCreateExecutor o creation =
      ({ s.construct o creation.writes with
        executors := fun o' => o' = o || s.executors o'
        loaded := fun o' => o' = o || s.loaded o' }, true)) := by
  simp only [getOrCreateExecutor, creates]
  cases s.executors o with
  | true => exact .inl ⟨rfl, rfl⟩
  | false =>
    cases s.wired o.doNamespace with
    | false => exact .inr (.inl ⟨rfl, rfl, rfl⟩)
    | true =>
      cases creation.throws with
      | true => exact .inr (.inr (.inl ⟨rfl, rfl, rfl⟩))
      | false => exact .inr (.inr (.inr ⟨rfl, rfl, rfl⟩))

/-! ### What keeps rows and timers together -/

/-- Without a change of the timers it takes that the rows in use stay. -/
theorem Tracked.iff_agree (h : s.Tracked) (htimers : s'.timers = s.timers)
    (hwired : s'.wired = s.wired) : s'.Tracked ↔ s.Agree s'.conn.db := by
  constructor
  · intro h' o ho
    have htime := h'.time_eq o (hwired ▸ ho)
    rw [htimers, h.time_eq o ho] at htime
    exact htime.symm
  · intro hagree
    refine ⟨htimers ▸ h.linked, ?_⟩
    intro o ho
    rw [hwired] at ho
    rw [htimers, h.time_eq o ho]
    exact (hagree o ho).symm

/-- Writes with their callbacks keep rows and timers together. -/
theorem Tracked.follow (h : s.Tracked) (ws : List (Obj × Write)) (hwired : s'.wired = s.wired)
    (htimers : s'.timers = ws.foldl (fun ts w => ts.notify w.1 w.2) s.timers)
    (halarm : s'.conn.db.contents.alarm = alarmsAfter ws s.conn.db.contents.alarm) :
    s'.Tracked := by
  obtain ⟨hlinked, htime⟩ := Timers.linked_foldl_notify ws h.linked
  refine ⟨htimers ▸ hlinked, ?_⟩
  intro o ho
  rw [hwired] at ho
  rw [htimers, htime, row, halarm]
  exact alarmsAfter_congr ws (h.time_eq o ho)

/-- Callbacks of writes that are rolled back: it takes that the writes changed no alarm. -/
theorem Tracked.undone_iff (h : s.Tracked) (ws : List (Obj × Write)) (hwired : s'.wired = s.wired)
    (htimers : s'.timers = ws.foldl (fun ts w => ts.notify w.1 w.2) s.timers)
    (hdb : s'.conn.db = s.conn.db) :
    s'.Tracked ↔ s.Agree (ws.foldl (fun db w => (w.2.run w.1 db).1) s.conn.db) := by
  obtain ⟨hlinked, htime⟩ := Timers.linked_foldl_notify ws h.linked
  have htold : ∀ o, s.wired o.doNamespace = true → s'.timers.time o =
      (ws.foldl (fun db w => (w.2.run w.1 db).1) s.conn.db).contents.alarm o := by
    intro o ho
    rw [htimers, htime, alarm_foldl_run]
    exact alarmsAfter_congr ws (h.time_eq o ho)
  have hrow : ∀ o, s'.row o = s.row o := by
    intro o
    rw [row, hdb]
    rfl
  constructor
  · intro h' o ho
    rw [← htold o ho, h'.time_eq o (hwired ▸ ho), hrow]
  · intro hagree
    refine ⟨htimers ▸ hlinked, ?_⟩
    intro o ho
    rw [hwired] at ho
    rw [htold o ho, hrow]
    exact hagree o ho

/-- The timer of an object is gone, the others are those of the rows. -/
structure Cleared (s : Namespaces) (o : Obj) : Prop where
  linked : s.timers.Linked
  time_eq_none : s.timers.time o = none
  time_eq : ∀ o', o' ≠ o → s.wired o'.doNamespace = true → s.timers.time o' = s.row o'

theorem Tracked.cleared (h : s.Tracked) (o : Obj) :
    Cleared { s with timers := s.timers.cancel o } o where
  linked := h.linked.cancel o
  time_eq_none := (h.linked.time_cancel o o).trans (if_pos rfl)
  time_eq := by
    intro o' hne ho'
    exact ((h.linked.time_cancel o o').trans (if_neg hne)).trans (h.time_eq o' ho')

/-- It takes that the row is gone as well, if it is in use. -/
theorem Cleared.tracked_iff {o : Obj} (h : s.Cleared o) (htimers : s'.timers = s.timers)
    (hwired : s'.wired = s.wired) (hrow : ∀ o', o' ≠ o → s'.row o' = s.row o') :
    s'.Tracked ↔ (s.wired o.doNamespace = true → s'.row o = none) := by
  constructor
  · intro h' ho
    rw [← h'.time_eq o (hwired ▸ ho), htimers]
    exact h.time_eq_none
  · intro hnone
    refine ⟨htimers ▸ h.linked, ?_⟩
    intro o' ho'
    rw [hwired] at ho'
    rw [htimers]
    by_cases heq : o' = o
    · subst heq
      exact h.time_eq_none.trans (hnone ho').symm
    · exact (h.time_eq o' heq ho').trans (hrow o' heq).symm

/-- **An alarm that fires.** The timer is gone before the row; rows and timers stay together
exactly when the row goes with it, or the constructor that throws leaves none. -/
theorem Cleared.tracked_fireAlarm_iff {o : Obj} (h : s.Cleared o) (retryCount : ℕ)
    (creation : Creation) :
    (s.fireAlarm o retryCount creation).Tracked ↔ s.survives o creation := by
  have hdelete : ∀ c : Connection, (c.write true o .deleteAlarm).db.contents.alarm =
      fun o' => if o' = o then none else c.db.contents.alarm o' := fun c => c.alarm_write ..
  rcases s.getOrCreateExecutor_cases o creation with
    ⟨hexec, hget⟩ | ⟨-, hwired, hget⟩ | ⟨hcreates, hthrows, hget⟩ | ⟨hcreates, hthrows, hget⟩
  · have hsurvives : s.survives o creation := by
      intro hcreates
      rw [creates, hexec] at hcreates
      cases hcreates
    refine iff_of_true ((h.tracked_iff ?_ ?_ ?_).mpr ?_) hsurvives
    all_goals rw [fireAlarm, hget]
    · rfl
    · rfl
    · intro o' hne
      exact (congrFun (hdelete s.conn) o').trans (if_neg hne)
    · intro _
      exact (congrFun (hdelete s.conn) o).trans (if_pos rfl)
  · have hsurvives : s.survives o creation := by
      intro hcreates
      rw [creates, hwired, Bool.and_false] at hcreates
      cases hcreates
    refine iff_of_true ((h.tracked_iff ?_ ?_ ?_).mpr ?_) hsurvives
    all_goals rw [fireAlarm, hget]
    · rfl
    · rfl
    · intro _ _
      rfl
    · intro hyes
      cases hwired.symm.trans hyes
  · rw [fireAlarm, hget]
    have hyes : s.wired o.doNamespace = true := (Bool.and_eq_true_iff.mp hcreates).2
    refine (h.tracked_iff ?_ ?_ ?_).trans ?_
    · rfl
    · rfl
    · exact fun o' hne => s.row_construct_of_ne creation.writes hne
    · exact ⟨fun hnone _ _ => hnone hyes, fun hnone _ => hnone hcreates hthrows⟩
  · have hsurvives : s.survives o creation := by
      intro _ hthrows'
      cases hthrows.symm.trans hthrows'
    refine iff_of_true ((h.tracked_iff ?_ ?_ ?_).mpr ?_) hsurvives
    all_goals rw [fireAlarm, hget]
    · rfl
    · rfl
    · intro o' hne
      have hother := s.row_construct_of_ne creation.writes hne
      exact ((congrFun (hdelete _) o').trans (if_neg hne)).trans hother
    · intro _
      exact (congrFun (hdelete _) o).trans (if_pos rfl)

/-- A constructor keeps rows and timers together exactly when it leaves its own row. -/
theorem Tracked.construct_iff (h : s.Tracked) {o : Obj} (ws : List Write)
    (ho : s.wired o.doNamespace = true) (htimers : s'.timers = s.timers)
    (hwired : s'.wired = s.wired) (hconn : s'.conn = (s.construct o ws).conn) :
    s'.Tracked ↔ (s.construct o ws).row o = s.row o := by
  refine (h.iff_agree htimers hwired).trans ?_
  have hrow : ∀ o', s'.conn.db.contents.alarm o' = (s.construct o ws).row o' := by
    intro o'
    rw [hconn]
    rfl
  constructor
  · intro hagree
    exact (hrow o).symm.trans (hagree o ho)
  · intro hsame o' _
    by_cases heq : o' = o
    · subst heq
      exact (hrow o').trans hsame
    · exact (hrow o').trans (s.row_construct_of_ne ws heq)

/-- An access keeps rows and timers together unless it creates an executor whose constructor
changes its row. -/
theorem Tracked.access_iff (h : s.Tracked) (o : Obj) (creation : Creation) :
    (s.getOrCreateExecutor o creation).1.Tracked ↔
      (s.creates o = true → (s.construct o creation.writes).row o = s.row o) := by
  have hno : s.creates o = false → (s.getOrCreateExecutor o creation).1 = s →
      ((s.getOrCreateExecutor o creation).1.Tracked ↔
        (s.creates o = true → (s.construct o creation.writes).row o = s.row o)) := by
    intro hcreates hsame
    rw [hsame, hcreates]
    exact iff_of_true h nofun
  rcases s.getOrCreateExecutor_cases o creation with
    ⟨hexec, hget⟩ | ⟨-, hwired, hget⟩ | ⟨hcreates, -, hget⟩ | ⟨hcreates, -, hget⟩
  · refine hno ?_ (by rw [hget])
    rw [creates, hexec]
    rfl
  · refine hno ?_ (by rw [hget])
    rw [creates, hwired, Bool.and_false]
  all_goals
    have ho : s.wired o.doNamespace = true := (Bool.and_eq_true_iff.mp hcreates).2
    rw [hget]
    refine (h.construct_iff creation.writes ho ?_ ?_ ?_).trans ?_
    · rfl
    · rfl
    · rfl
    · exact ⟨fun hsame _ => hsame, fun hsame => hsame hcreates⟩

/-- A retry keeps rows and timers together exactly when no timer is armed, unless it is the
last. -/
theorem Tracked.retry_iff (h : s.Tracked) (o : Obj) (retryCount : ℕ) (now : ℤ) :
    (s.retry o retryCount now).Tracked ↔
      (retryCount < maxAlarmRetries → s.timers.alarmTimers o = none) := by
  simp only [retry]
  split
  · next hlt =>
      constructor
      · intro h' _
        exact (Timers.linked_setTimeout_iff h.linked _).mp h'.linked
      · intro hnone
        refine ⟨(Timers.linked_setTimeout_iff h.linked _).mpr (hnone hlt), ?_⟩
        intro o' ho'
        rw [h.linked.time_setTimeout, h.time_eq o' ho']
        have hrow := s.conn.alarm_write true o (.setAlarm (some (now + 2 ^ retryCount * 1000)))
        exact (congrFun hrow o').symm
  · next hle => exact ⟨fun _ hlt => absurd hlt hle, fun _ => h⟩

/-- Cancelling removes the timer and the row. -/
theorem Tracked.cancelAlarm (h : s.Tracked) (o : Obj) : (s.cancelAlarm o).Tracked :=
  h.follow [(o, .deleteAlarm)] rfl rfl (s.conn.alarm_write ..)

theorem Tracked.deleteInstance (h : s.Tracked) (o : Obj) : (s.deleteInstance o).Tracked := by
  have hcancel := h.cancelAlarm o
  simp only [Namespaces.deleteInstance]
  split
  · exact ⟨hcancel.linked, hcancel.time_eq⟩
  · refine (hcancel.iff_agree ?_ ?_).mpr ?_
    · rfl
    · rfl
    · intro o' _
      have hgone : (s.cancelAlarm o).row o' = if o' = o then none else s.row o' :=
        congrFun (s.conn.alarm_write true o .deleteAlarm) o'
      have hagain :=
        ((s.cancelAlarm o).conn.write true o .deleteAll).alarm_write true o .deleteAlarm
      rw [(s.cancelAlarm o).conn.alarm_write] at hagain
      refine (congrFun hagain o').trans ?_
      show (if o' = o then none else (s.cancelAlarm o).row o') = _
      rw [hgone]
      split <;> rfl

/-- Restoring arms a timer for each row of the namespace. -/
theorem Tracked.setClass (h : s.Tracked) (hJ : s.Grounded) (ns : String) :
    (s.setClass ns).Tracked := by
  set rows := s.conn.db.alarms.rows.filter fun row => row.1.doNamespace = ns with hrows
  have hnodup : (rows.map Prod.fst).Nodup :=
    (List.filter_sublist.map Prod.fst).nodup s.conn.db.alarms.nodup
  obtain ⟨hlinked, hrestored, hothers⟩ := h.linked.restoreAlarms hnodup
  refine ⟨hlinked, ?_⟩
  intro o ho
  by_cases hmem : o ∈ rows.map Prod.fst
  · obtain ⟨⟨o, t⟩, hrow, rfl⟩ := List.mem_map.mp hmem
    obtain ⟨hin, -⟩ := List.mem_filter.mp hrow
    exact (hrestored _ hrow).trans (Table.mem_rows_iff.mp hin).symm
  · refine (hothers o hmem).trans ?_
    by_cases hold : s.wired o.doNamespace = true
    · exact h.time_eq o hold
    · -- the namespace is new: it has no timer yet, and no row is left over
      have hns : o.doNamespace = ns := by
        have hor : o.doNamespace = ns ∨ s.wired o.doNamespace = true := by
          simpa [Namespaces.setClass] using ho
        exact hor.resolve_right hold
      have htime : s.timers.time o = none := by
        rw [Option.eq_none_iff_forall_ne_some]
        intro t ht
        obtain ⟨u, timer, hu, hobj, -⟩ := h.linked.armed_iff.mpr ht
        exact hold (hobj ▸ hJ.timers u timer hu)
      have hrow : s.row o = none := by
        rw [Option.eq_none_iff_forall_ne_some]
        intro t ht
        have hin : (o, t) ∈ rows := by
          rw [hrows, List.mem_filter]
          exact ⟨Table.mem_rows_iff.mpr ht, decide_eq_true hns⟩
        exact hmem (List.mem_map_of_mem hin)
      exact htime.trans hrow.symm

/-- A storage action keeps rows and timers together exactly when it is careful. -/
theorem Tracked.storage_iff (h : s.Tracked) (hasCallback : Bool) {a : StorageAction}
    {conn : Connection} (hstep : storageStep s.conn a = some conn) :
    ({ s with
        conn
        timers := if hasCallback then s.timers.callbacks s.conn a else s.timers } :
      Namespaces).Tracked ↔ s.carefulStorage hasCallback a := by
  cases a with
  | write origin o w =>
    have hdb : conn.db = (w.run o s.conn.db).1 := by
      cases origin with
      | outside =>
        obtain rfl := Option.some.inj hstep
        exact s.conn.db_write ..
      | inside t =>
        obtain ⟨-, rfl⟩ := Option.ite_some_none_eq_some.mp hstep
        exact s.conn.db_write ..
    cases hasCallback with
    | true =>
      refine iff_of_true ?_ (fun h => by cases h)
      refine h.follow [(o, w)] rfl rfl ?_
      show conn.db.contents.alarm = _
      rw [hdb]
      exact w.alarm_run o s.conn.db
    | false =>
      refine (h.iff_agree ?_ ?_).trans ?_
      · rfl
      · rfl
      · show s.Agree conn.db ↔ (false = false → s.Agree (w.run o s.conn.db).1)
        rw [hdb]
        exact ⟨fun hagree _ => hagree, fun hagree => hagree rfl⟩
  | transaction =>
    obtain rfl := Option.some.inj hstep
    refine iff_of_true ?_ trivial
    exact h.follow [] rfl (ite_self _) rfl
  | begins t =>
    obtain ⟨-, rfl⟩ := Option.ite_some_none_eq_some.mp hstep
    refine iff_of_true (h.follow [] rfl (ite_self _) ?_) trivial
    show (s.conn.begins t).db.contents.alarm = s.conn.db.contents.alarm
    simp only [Connection.begins]
    split <;> rfl
  | settles t outcome =>
    obtain ⟨-, rfl⟩ := Option.ite_some_none_eq_some.mp hstep
    by_cases hresolved : outcome = .resolved
    · refine iff_of_true (h.follow [] rfl (ite_self _) ?_) (fun hne => absurd hresolved hne)
      rw [if_pos hresolved]
      rfl
    · refine (h.iff_agree (ite_self _) ?_).trans ?_
      · rfl
      · rw [if_neg hresolved]
        exact ⟨fun hagree _ => hagree, fun hagree => hagree hresolved⟩
  | transactionSync ws throws =>
    obtain rfl := Option.some.inj hstep
    cases hopen : s.conn.opened with
    | some db =>
      have hrefused : s.conn.transactionSync ws throws = s.conn := by
        rw [Connection.transactionSync, hopen]
      have hsilent : s.timers.callbacks s.conn (.transactionSync ws throws) = s.timers := by
        simp only [Timers.callbacks, hopen]
      rw [hrefused, hsilent, ite_self]
      refine iff_of_true ⟨h.linked, h.time_eq⟩ ?_
      intro _ hnone
      rw [hopen] at hnone
      cases hnone
    | none =>
      have htold : s.timers.callbacks s.conn (.transactionSync ws throws) =
          ws.foldl (fun ts w => ts.notify w.1 w.2) s.timers := by
        simp only [Timers.callbacks, hopen]
      have hdb : (s.conn.transactionSync ws throws).db = if throws then s.conn.db
          else ws.foldl (fun db w => (w.2.run w.1 db).1) s.conn.db := by
        simp only [Connection.transactionSync, hopen]
        split <;> rfl
      have hclosed : s.conn.opened.isNone = true := by
        rw [hopen]
        rfl
      rw [htold]
      cases hasCallback with
      | true =>
        cases throws with
        | true =>
          refine (h.undone_iff ws ?_ ?_ hdb).trans ?_
          · rfl
          · rfl
          · exact ⟨fun hagree _ _ => hagree, fun hagree => hagree rfl hclosed⟩
        | false =>
          refine iff_of_true (h.follow ws rfl rfl ?_) fun heq => by cases heq
          exact (congrArg (fun db => db.contents.alarm) hdb).trans (alarm_foldl_run ..)
      | false =>
        cases throws with
        | true =>
          refine iff_of_true (h.follow [] rfl rfl ?_) fun heq => by cases heq
          exact congrArg (fun db => db.contents.alarm) hdb
        | false =>
          refine (h.iff_agree ?_ ?_).trans ?_
          · rfl
          · rfl
          · show s.Agree (s.conn.transactionSync ws false).db ↔ _
            rw [hdb]
            exact ⟨fun hagree _ _ => hagree, fun hagree => hagree rfl hclosed⟩

/-- The code of an object that goes on is the code of an object that was loaded. -/
theorem of_storage {hasCallback : Bool} {a : StorageAction}
    (hstep : alarmStep s (.storage hasCallback a) = some s') :
    (∀ o ∈ a.objects, hasCallback = true → s.loaded o = true) ∧
      ∃ conn, storageStep s.conn a = some conn ∧
        { s with
          conn
          timers := if hasCallback then s.timers.callbacks s.conn a else s.timers } = s' := by
  obtain ⟨hobjects, hstep⟩ := Option.ite_none_right_eq_some.mp hstep
  refine ⟨?_, Option.map_eq_some_iff.mp hstep⟩
  rintro o ho rfl
  exact List.all_eq_true.mp hobjects o ho

/-- A handler that is settled was running. -/
theorem of_settled {i : ℕ} {f : Handler → Namespaces}
    (hstep : (match s.handlers[i]? with
      | some handler => if handler.running then some (f handler) else none
      | none => none) = some s') :
    ∃ handler, s.handlers[i]? = some handler ∧ f handler = s' := by
  split at hstep
  · next handler hhandler =>
      obtain ⟨-, heq⟩ := Option.ite_none_right_eq_some.mp hstep
      exact ⟨handler, hhandler, Option.some.inj heq⟩
  · cases hstep

/-- **One step.** Rows and timers stay together exactly when the step is careful. -/
theorem Tracked.step_iff {a : AlarmAction} (h : s.Tracked) (hJ : s.Grounded)
    (hstep : alarmStep s a = some s') : s'.Tracked ↔ s.careful a := by
  cases a with
  | setClass ns =>
    obtain rfl := Option.some.inj hstep
    exact iff_of_true (h.setClass hJ ns) trivial
  | access o creation =>
    obtain rfl := Option.some.inj hstep
    exact h.access_iff o creation
  | dispose o =>
    obtain rfl := Option.some.inj hstep
    exact iff_of_true ⟨h.linked, h.time_eq⟩ trivial
  | storage hasCallback a =>
    obtain ⟨-, conn, hconn, rfl⟩ := of_storage hstep
    exact h.storage_iff hasCallback hconn
  | fires u creation =>
    obtain ⟨timer, hu, rfl⟩ := Option.map_eq_some_iff.mp hstep
    rw [h.linked.expire_armed hu, (h.cleared timer.obj).tracked_fireAlarm_iff]
    constructor
    · intro hsurvives timer' hu'
      obtain rfl := Option.some.inj (hu.symm.trans hu')
      exact hsurvives
    · intro hall
      exact hall timer hu
  | triggerAlarm o creation =>
    obtain rfl := Option.some.inj hstep
    exact (h.cleared o).tracked_fireAlarm_iff 0 creation
  | succeeds i =>
    obtain ⟨handler, -, rfl⟩ := of_settled hstep
    exact iff_of_true ⟨h.linked, h.time_eq⟩ trivial
  | fails i now =>
    obtain ⟨handler, hhandler, rfl⟩ := of_settled hstep
    have hends : (s.ends i handler).Tracked := ⟨h.linked, h.time_eq⟩
    refine (hends.retry_iff handler.obj handler.retryCount now).trans ?_
    constructor
    · intro hnone handler' hhandler'
      obtain rfl := Option.some.inj (hhandler.symm.trans hhandler')
      exact hnone
    · intro hall
      exact hall handler hhandler
  | cancelAlarm o =>
    obtain rfl := Option.some.inj hstep
    exact iff_of_true (h.cancelAlarm o) trivial
  | deleteInstance o =>
    obtain rfl := Option.some.inj hstep
    exact iff_of_true (h.deleteInstance o) trivial

/-! ### Objects of namespaces in use -/

/-- An executor is found or created only in a namespace in use. -/
theorem Grounded.getOrCreateExecutor (h : s.Grounded) (o : Obj) (creation : Creation) :
    (s.getOrCreateExecutor o creation).1.Grounded ∧
      ((s.getOrCreateExecutor o creation).2 = true →
        (s.getOrCreateExecutor o creation).1.wired o.doNamespace = true) := by
  rcases s.getOrCreateExecutor_cases o creation with
    ⟨hexec, hget⟩ | ⟨-, -, hget⟩ | ⟨-, -, hget⟩ | ⟨hcreates, -, hget⟩
  · rw [hget]
    exact ⟨h, fun _ => h.executors o hexec⟩
  · rw [hget]
    exact ⟨h, nofun⟩
  · rw [hget]
    exact ⟨⟨h.executors, h.loaded, h.handlers, h.timers⟩, nofun⟩
  · have ho : s.wired o.doNamespace = true := (Bool.and_eq_true_iff.mp hcreates).2
    have hadded : ∀ (f : Obj → Bool), (∀ o, f o = true → s.wired o.doNamespace = true) →
        ∀ o', (decide (o' = o) || f o') = true → s.wired o'.doNamespace = true := by
      intro f hf o' ho'
      rcases Bool.or_eq_true_iff.mp ho' with heq | hold
      · exact (of_decide_eq_true heq) ▸ ho
      · exact hf o' hold
    rw [hget]
    exact ⟨⟨hadded _ h.executors, hadded _ h.loaded, h.handlers, h.timers⟩, fun _ => ho⟩

/-- The timers are replaced. -/
theorem Grounded.withTimers (h : s.Grounded) {ts : Timers}
    (htimers : ts.Of fun o => s.wired o.doNamespace = true) : Grounded { s with timers := ts } :=
  ⟨h.executors, h.loaded, h.handlers, htimers⟩

theorem Grounded.fireAlarm (h : s.Grounded) (o : Obj) (retryCount : ℕ) (creation : Creation) :
    (s.fireAlarm o retryCount creation).Grounded := by
  obtain ⟨hget, hfound⟩ := h.getOrCreateExecutor o creation
  simp only [Namespaces.fireAlarm]
  split
  · next hyes =>
      refine ⟨hget.executors, hget.loaded, ?_, hget.timers⟩
      intro handler hmem
      rcases List.mem_append.mp hmem with hold | hnew
      · exact hget.handlers handler hold
      · obtain rfl := List.mem_singleton.mp hnew
        exact hfound hyes
  · exact hget

theorem Grounded.cancelAlarm (h : s.Grounded) (o : Obj) : (s.cancelAlarm o).Grounded :=
  ⟨h.executors, h.loaded, h.handlers, h.timers.cancel o⟩

/-- An object is taken out of `_executors`. -/
theorem Grounded.dispose (h : s.Grounded) (o : Obj) :
    Grounded { s with executors := fun o' => o' ≠ o && s.executors o' } where
  executors o' ho' := h.executors o' (Bool.and_eq_true_iff.mp ho').2
  loaded := h.loaded
  handlers := h.handlers
  timers := h.timers

theorem Grounded.ends (h : s.Grounded) {i : ℕ} {handler : Handler}
    (hhandler : s.handlers[i]? = some handler) : (s.ends i handler).Grounded where
  executors := h.executors
  loaded := h.loaded
  handlers := by
    intro handler' hmem
    rcases List.mem_or_eq_of_mem_set hmem with hold | rfl
    · exact h.handlers handler' hold
    · exact h.handlers handler (List.mem_of_getElem? hhandler)
  timers := h.timers

theorem Grounded.callbacks (h : s.Grounded) {a : StorageAction}
    (hloaded : ∀ o ∈ a.objects, s.loaded o = true) :
    (s.timers.callbacks s.conn a).Of fun o => s.wired o.doNamespace = true := by
  cases a with
  | write origin o w =>
    exact h.timers.notify (h.loaded o (hloaded o (List.mem_singleton_self o))) w
  | transactionSync ws throws =>
    simp only [Timers.callbacks]
    split
    · exact h.timers
    · refine h.timers.foldl_notify ?_
      intro w hw
      exact h.loaded w.1 (hloaded w.1 (List.mem_map_of_mem hw))
  | transaction => exact h.timers
  | begins t => exact h.timers
  | settles t outcome => exact h.timers

theorem Grounded.setClass (h : s.Grounded) (ns : String) : (s.setClass ns).Grounded := by
  have hmono : ∀ o : Obj, s.wired o.doNamespace = true →
      (s.setClass ns).wired o.doNamespace = true := by
    intro o ho
    exact Bool.or_eq_true_iff.mpr (.inr ho)
  have holds : s.timers.Of fun o => (s.setClass ns).wired o.doNamespace = true :=
    fun u timer hu => hmono timer.obj (h.timers u timer hu)
  refine ⟨fun o ho => hmono o (h.executors o ho), fun o ho => hmono o (h.loaded o ho),
    fun handler hmem => hmono handler.obj (h.handlers handler hmem), holds.restoreAlarms ?_⟩
  intro row hrow
  exact Bool.or_eq_true_iff.mpr (.inl (List.mem_filter.mp hrow).2)

/-- Objects of namespaces without a class stay without executors, handlers and timers. -/
theorem Grounded.step {a : AlarmAction} (h : s.Grounded) (hstep : alarmStep s a = some s') :
    s'.Grounded := by
  cases a with
  | setClass ns =>
    obtain rfl := Option.some.inj hstep
    exact h.setClass ns
  | access o creation =>
    obtain rfl := Option.some.inj hstep
    exact (h.getOrCreateExecutor o creation).1
  | dispose o =>
    obtain rfl := Option.some.inj hstep
    exact h.dispose o
  | storage hasCallback a =>
    obtain ⟨hloaded, conn, -, rfl⟩ := of_storage hstep
    refine ⟨h.executors, h.loaded, h.handlers, ?_⟩
    cases hasCallback with
    | true => exact h.callbacks fun o ho => hloaded o ho rfl
    | false => exact h.timers
  | fires u creation =>
    obtain ⟨timer, hu, rfl⟩ := Option.map_eq_some_iff.mp hstep
    exact (h.withTimers (h.timers.expire u timer.obj)).fireAlarm ..
  | triggerAlarm o creation =>
    obtain rfl := Option.some.inj hstep
    exact (h.withTimers (h.timers.cancel o)).fireAlarm ..
  | succeeds i =>
    obtain ⟨handler, hhandler, rfl⟩ := of_settled hstep
    exact h.ends hhandler
  | fails i now =>
    obtain ⟨handler, hhandler, rfl⟩ := of_settled hstep
    have hends := h.ends hhandler
    simp only [retry]
    split
    · refine ⟨hends.executors, hends.loaded, hends.handlers, hends.timers.setTimeout ?_⟩
      exact h.handlers handler (List.mem_of_getElem? hhandler)
    · exact hends
  | cancelAlarm o =>
    obtain rfl := Option.some.inj hstep
    exact h.cancelAlarm o
  | deleteInstance o =>
    obtain rfl := Option.some.inj hstep
    have hdisposed := (h.cancelAlarm o).dispose o
    simp only [Namespaces.deleteInstance]
    split
    · exact hdisposed
    · exact ⟨hdisposed.executors, hdisposed.loaded, hdisposed.handlers, hdisposed.timers⟩

/-- The steps of `_fireReadyAlarms` are never refused. -/
theorem exists_play_fireReadyAlarms (s : Namespaces) (ns : String) (now : ℤ)
    (creation : Obj → Creation) :
    ∃ t, play alarmStep s (s.fireReadyAlarms ns now creation) = some t := by
  have hall : ∀ (rows : List (Obj × ℤ)) (s : Namespaces), ∃ t, play alarmStep s
      (rows.map fun row => .triggerAlarm row.1 (creation row.1)) = some t := by
    intro rows
    induction rows with
    | nil => exact fun s => ⟨s, rfl⟩
    | cons row rows ih => exact fun s => ih _
  exact hall _ s

/-! ### The results -/

/-- **Rows and timers.** All along a run the armed timers are those of the rows exactly when no
step is careless. -/
theorem tracked_throughout_iff (db : Db) (as : List AlarmAction) :
    Throughout alarmStep Tracked (init db) as ↔ Along alarmStep careful (init db) as :=
  throughout_iff_along (grounded_init db) (tracked_init db)
    (fun _ _ _ hJ _ hstep => hJ.step hstep)
    (fun _ _ _ hJ h hstep => h.step_iff hJ hstep)

/-- **Alarms are coherent in careful runs.** Whatever is set, deleted, fired, retried, rolled
back, deleted and restored: without a careless step each object has one armed timer at most, and
while none of its handlers runs a timer is armed for the time of its row and no other. -/
theorem coherent_along (db : Db) (as : List AlarmAction)
    (h : Along alarmStep careful (init db) as) :
    Throughout alarmStep Coherent (init db) as :=
  ((tracked_throughout_iff db as).mpr h).mono fun _ => Tracked.coherent

/-- An object whose constructor writes nothing. -/
def quiet : Creation := ⟨[], false⟩

/-- An alarm is retried, a transaction beside the handler is rolled back, the retry sets the next
alarm, the class is reloaded and the instance deleted. -/
def retriedRun : List AlarmAction :=
  [.setClass "Counter", .access ⟨"Counter", "a"⟩ quiet,
    .storage true (.write .outside ⟨"Counter", "a"⟩ (.setAlarm (some 1000))),
    .fires 0 quiet, .storage true .transaction, .storage true (.begins 0),
    .storage true (.write (.inside 0) ⟨"Counter", "a"⟩ (.put "k" (some "1"))),
    .storage true (.settles 0 .rejected), .fails 0 1001, .fires 1 quiet,
    .storage true (.write .outside ⟨"Counter", "a"⟩ (.setAlarm (some 9000))), .succeeds 1,
    .setClass "Counter", .deleteInstance ⟨"Counter", "a"⟩]

/-- The run is careful, so the alarm is coherent in each of its states. -/
theorem coherent_along_retriedRun :
    (play alarmStep (init .empty) retriedRun).isSome = true ∧
      Throughout alarmStep Coherent (init .empty) retriedRun :=
  ⟨by decide, coherent_along .empty retriedRun (by decide)⟩

/-- A handler sets the next alarm and fails. -/
def failedAfterSetAlarm : List AlarmAction :=
  [.setClass "Counter", .access ⟨"Counter", "a"⟩ quiet,
    .storage true (.write .outside ⟨"Counter", "a"⟩ (.setAlarm (some 1000))),
    .fires 0 quiet,
    .storage true (.write .outside ⟨"Counter", "a"⟩ (.setAlarm (some 5000))), .fails 0 1001]

/-- The timer of the retry is armed beside the one the handler has set. -/
theorem not_coherent : ¬ ∀ s, Reaches alarmStep unguarded (init .empty) s → s.Coherent := by
  intro hall
  have hrun : (play (restrict alarmStep unguarded) (init .empty) failedAfterSetAlarm).any
      (fun s => s.timers.armed.get? 1 = some ⟨⟨"Counter", "a"⟩, 5000, 0⟩ ∧
        s.timers.armed.get? 2 = some ⟨⟨"Counter", "a"⟩, 2001, 1⟩) = true := by
    decide
  obtain ⟨s, hreach, hs⟩ := exists_reaches_of_play hrun
  obtain ⟨hset, hretry⟩ := of_decide_eq_true hs
  have hsame := (hall s hreach).unique 1 2 _ _ hset hretry rfl
  exact absurd hsame (by decide)

end Namespaces

end Lopata.DurableObject
