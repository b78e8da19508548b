import Lopata.DurableObject.Arming

/-!
# Deleted Instances

`deleteInstance` clears the timer the map holds, drops the executor and deletes the rows of an
instance. It stops no code: a handler of the instance that is running goes on, and once it has
failed the namespace writes the row of its retry and arms its timer.

An instance is deleted from the moment `deleteInstance` returns (within an open transaction of the
connection it throws) until the instance is accessed again, by a request or by `triggerAlarm`.

## Main results

* `Deleting.gone_throughout`: nothing of a deleted instance is there or comes back, in the runs
  whose deletions find no timer the map has lost, and in which no handler with retries left fails
  and no code adds a row after the instance of it was deleted.
* `Deleting.not_gone`: a handler fails after the deletion, and row and timer are back.
-/

namespace Lopata.DurableObject

/-- The write adds a row, or replaces one. -/
def Write.adds : Write → Bool
  | .put _ value => value.isSome
  | .putEntries entries => !entries.isEmpty && entries.all fun e => e.2.isSome
  | .setAlarm time => time.isSome
  | .delete _ | .deleteKeys _ | .deleteAll | .deleteAlarm => false

/-- The namespaces, and which instances are deleted. -/
structure Deleting where
  spaces : Namespaces
  deleted : Obj → Bool

/-- The instances that are deleted after a step. -/
def Deleting.deletedAfter (d : Deleting) : AlarmAction → Obj → Bool
  | .deleteInstance o => fun o' => (o' = o && d.spaces.conn.opened.isNone) || d.deleted o'
  | .access o _ | .triggerAlarm o _ => fun o' => o' ≠ o && d.deleted o'
  | .setClass _ | .dispose _ | .storage _ _ | .fires _ _ | .succeeds _ | .fails _ _
  | .cancelAlarm _ => d.deleted

/-- The step of the namespaces, with the bookkeeping of deletions. -/
def deletionStep (d : Deleting) : ProcessAction → Option Deleting
  | .alarm a => (alarmStep d.spaces a).map fun s => ⟨s, d.deletedAfter a⟩
  | .restart => some { d with spaces := d.spaces.restart }

namespace Deleting

/-- The namespaces before their classes are set. -/
def start (db : Db) : Deleting := ⟨.init db, fun _ => false⟩

end Deleting

/-- No storage row, alarm row or armed timer of the instance exists. -/
structure Namespaces.Gone (s : Namespaces) (o : Obj) : Prop where
  storage : ∀ key, s.conn.db.storage.get? (o, key) = none
  alarms : s.conn.db.alarms.get? o = none
  timers : ∀ u timer, s.timers.armed.get? u = some timer → timer.obj ≠ o

namespace Deleting

/-- The step brings nothing of a deleted instance back, and a deletion leaves no timer. -/
def keeps (d : Deleting) : ProcessAction → Prop
  | .alarm (.storage _ (.write _ o w)) => d.deleted o = true → w.adds = false
  | .alarm (.storage hasCallback (.transactionSync ws throws)) =>
      d.spaces.conn.opened.isNone = true → ∀ w ∈ ws, d.deleted w.1 = true →
        -- the timers that callbacks have armed are not rolled back
        if throws then hasCallback = true → w.2.arms w.1 = [] else w.2.adds = false
  | .alarm (.fails h _) => ∀ handler ∈ d.spaces.handlers[h]?, d.deleted handler.obj = true →
      maxAlarmRetries ≤ handler.retryCount
  | .alarm (.deleteInstance o) => d.spaces.conn.opened.isNone = true →
      ∀ row ∈ d.spaces.timers.armed.rows, row.2.obj = o → d.spaces.timers.alarmTimers o = some row.1
  | .alarm (.storage _ .transaction) | .alarm (.storage _ (.begins _))
  | .alarm (.storage _ (.settles _ _)) | .alarm (.setClass _) | .alarm (.access _ _)
  | .alarm (.dispose _) | .alarm (.fires _ _) | .alarm (.triggerAlarm _ _) | .alarm (.succeeds _)
  | .alarm (.cancelAlarm _) | .restart => True

instance (d : Deleting) : (a : ProcessAction) → Decidable (d.keeps a)
  | .alarm (.storage _ (.write _ o w)) =>
      inferInstanceAs (Decidable (d.deleted o = true → w.adds = false))
  | .alarm (.storage hasCallback (.transactionSync ws throws)) => inferInstanceAs
      (Decidable (d.spaces.conn.opened.isNone = true → ∀ w ∈ ws, d.deleted w.1 = true →
        if throws then hasCallback = true → w.2.arms w.1 = [] else w.2.adds = false))
  | .alarm (.fails h _) => inferInstanceAs (Decidable (∀ handler ∈ d.spaces.handlers[h]?,
      d.deleted handler.obj = true → maxAlarmRetries ≤ handler.retryCount))
  | .alarm (.deleteInstance o) => inferInstanceAs (Decidable (d.spaces.conn.opened.isNone = true →
      ∀ row ∈ d.spaces.timers.armed.rows, row.2.obj = o →
        d.spaces.timers.alarmTimers o = some row.1))
  | .alarm (.storage _ .transaction) | .alarm (.storage _ (.begins _))
  | .alarm (.storage _ (.settles _ _)) | .alarm (.setClass _) | .alarm (.access _ _)
  | .alarm (.dispose _) | .alarm (.fires _ _) | .alarm (.triggerAlarm _ _) | .alarm (.succeeds _)
  | .alarm (.cancelAlarm _) | .restart => inferInstanceAs (Decidable True)

end Deleting

/-! ### Tables without rows of an object -/

/-- The tables have no row of the object. -/
structure Contents.Without (c : Contents) (o : Obj) : Prop where
  value : ∀ key, c.value o key = none
  alarm : c.alarm o = none

namespace Write

/-- A write that adds no row arms no timer. -/
theorem arms_eq_nil {w : Write} (hw : w.adds = false) (o : Obj) : w.arms o = [] := by
  cases w with
  | setAlarm time =>
    cases time with
    | none => rfl
    | some t => cases hw
  | _ => rfl

/-- A write leaves the values of other objects. -/
theorem value_apply_of_ne (w : Write) {o o' : Obj} (h : o' ≠ o) (c : Contents) (key : String) :
    (w.apply o c).value o' key = c.value o' key := by
  have hset : ∀ (c : Contents) (k : String) (v : Option String),
      (c.set o k v).value o' key = c.value o' key := fun c k v => if_neg fun heq => h heq.1
  cases w with
  | put k value => exact hset c k value
  | putEntries entries =>
    induction entries generalizing c with
    | nil => rfl
    | cons e entries ih => exact (ih (c.set o e.1 e.2)).trans (hset c e.1 e.2)
  | delete k => exact hset c k none
  | deleteKeys keys => exact if_neg fun heq => h heq.1
  | deleteAll => exact if_neg fun heq => h heq.1
  | setAlarm time => rfl
  | deleteAlarm => rfl

end Write

/-- Writes of other objects, and writes that add nothing, leave the tables without rows. -/
theorem Contents.Without.run {db : Db} {o : Obj} (h : db.contents.Without o) {o' : Obj} {w : Write}
    (hw : o' = o → w.adds = false) : (w.run o' db).1.contents.Without o := by
  refine ⟨?_, ?_⟩
  · intro key
    rw [Write.contents_run]
    split
    · next haccepted =>
        by_cases heq : o' = o
        · subst heq
          have hadds := hw rfl
          cases w with
          | put k value =>
            cases (show value.isSome = true from haccepted).symm.trans hadds
          | putEntries entries =>
            cases entries with
            | nil => exact h.value key
            | cons e entries =>
              have hall : ((e :: entries).all fun e => e.2.isSome) = true := haccepted
              simp [Write.adds, hall] at hadds
          | delete k =>
            simp only [Write.apply, Contents.set]
            split
            · rfl
            · exact h.value key
          | deleteKeys keys =>
            simp only [Write.apply, Contents.clear]
            split
            · rfl
            · exact h.value key
          | deleteAll => exact if_pos ⟨rfl, trivial⟩
          | setAlarm time => exact h.value key
          | deleteAlarm => exact h.value key
        · rw [w.value_apply_of_ne (Ne.symm heq)]
          exact h.value key
    · exact h.value key
  · rw [Write.alarm_run]
    by_cases heq : o' = o
    · subst heq
      simp only [Write.alarm]
      have hadds := hw rfl
      cases w with
      | setAlarm time =>
        cases time with
        | none => exact h.alarm
        | some t => cases hadds
      | deleteAlarm => exact if_pos rfl
      | _ => exact h.alarm
    · rw [w.alarm_of_ne (Ne.symm heq)]
      exact h.alarm

/-- Neither the tables nor what a rollback restores have a row of the object. -/
structure Connection.Without (c : Connection) (o : Obj) : Prop where
  db : c.db.contents.Without o
  opened : ∀ db ∈ c.opened, db.contents.Without o

namespace Connection.Without

variable {c c' : Connection} {o : Obj}

theorem write (h : c.Without o) (isOutside : Bool) {o' : Obj} {w : Write}
    (hw : o' = o → w.adds = false) : (c.write isOutside o' w).Without o := by
  refine ⟨?_, ?_⟩
  · rw [Connection.db_write]
    exact h.db.run hw
  · rw [(c.txns_write isOutside o' w).2]
    exact h.opened

theorem foldl_run {ws : List (Obj × Write)} {db : Db} (h : db.contents.Without o)
    (hws : ∀ w ∈ ws, w.1 = o → w.2.adds = false) :
    (ws.foldl (fun db w => (w.2.run w.1 db).1) db).contents.Without o := by
  induction ws generalizing db with
  | nil => exact h
  | cons w ws ih =>
    obtain ⟨hw, hws⟩ := List.forall_mem_cons.mp hws
    exact ih (h.run hw) hws

/-- What a rollback restores, or what is there if no transaction is open. -/
theorem getD (h : c.Without o) : (c.opened.getD c.db).contents.Without o := by
  cases hopen : c.opened with
  | none => exact h.db
  | some db => exact h.opened db hopen

/-- A storage action that adds no row of the object leaves the tables without any. -/
theorem step {a : StorageAction} (h : c.Without o) (hstep : storageStep c a = some c')
    (hwrite : ∀ origin o' w, a = .write origin o' w → o' = o → w.adds = false)
    (hsync : ∀ ws, a = .transactionSync ws false → c.opened = none →
      ∀ w ∈ ws, w.1 = o → w.2.adds = false) : c'.Without o := by
  cases a with
  | write origin o' w =>
    cases origin with
    | outside =>
      obtain rfl := Option.some.inj hstep
      exact h.write true (hwrite .outside o' w rfl)
    | inside t =>
      obtain ⟨-, rfl⟩ := Option.ite_some_none_eq_some.mp hstep
      exact h.write false (hwrite (.inside t) o' w rfl)
  | transaction =>
    obtain rfl := Option.some.inj hstep
    exact ⟨h.db, h.opened⟩
  | begins t =>
    obtain ⟨-, rfl⟩ := Option.ite_some_none_eq_some.mp hstep
    simp only [Connection.begins]
    split
    · refine ⟨h.db, ?_⟩
      intro db hdb
      obtain rfl := Option.some.inj hdb
      exact h.db
    · exact ⟨h.db, h.opened⟩
  | settles t outcome =>
    obtain ⟨-, rfl⟩ := Option.ite_some_none_eq_some.mp hstep
    split
    · exact ⟨h.db, fun db hdb => absurd hdb.symm (Option.some_ne_none db)⟩
    · exact ⟨h.getD, fun db hdb => absurd hdb.symm (Option.some_ne_none db)⟩
  | transactionSync ws throws =>
    obtain rfl := Option.some.inj hstep
    simp only [Connection.transactionSync]
    split
    · exact h
    · next hopen =>
        cases throws with
        | true => exact h
        | false =>
          refine ⟨?_, ?_⟩
          · exact foldl_run h.db (hsync ws rfl hopen)
          · exact h.opened

end Connection.Without

namespace Namespaces

variable {s s' : Namespaces} {o : Obj}

/-- Nothing of the object is there, and no rollback brings anything back. -/
structure Without (s : Namespaces) (o : Obj) : Prop where
  conn : s.conn.Without o
  timers : s.timers.Of fun o' => o' ≠ o

theorem Without.gone (h : s.Without o) : s.Gone o where
  storage := h.conn.db.value
  alarms := h.conn.db.alarm
  timers := h.timers

/-- The constructor of another object. -/
theorem conn_construct_without (h : s.conn.Without o) {o' : Obj} (ho : o' ≠ o) (ws : List Write) :
    (s.construct o' ws).conn.Without o := by
  induction ws generalizing s with
  | nil => exact h
  | cons w ws ih =>
    refine ih (s := { s with conn := s.conn.write true o' w }) ?_
    exact h.write true fun heq => absurd heq ho

/-- The executor of another object. -/
theorem conn_getOrCreateExecutor_without (h : s.conn.Without o) {o' : Obj} (ho : o' ≠ o)
    (creation : Creation) : (s.getOrCreateExecutor o' creation).1.conn.Without o := by
  rcases s.getOrCreateExecutor_cases o' creation with
    ⟨-, hget⟩ | ⟨-, -, hget⟩ | ⟨-, -, hget⟩ | ⟨-, -, hget⟩
  all_goals rw [hget]
  · exact h
  · exact h
  · exact conn_construct_without h ho creation.writes
  · exact conn_construct_without h ho creation.writes

theorem conn_fireAlarm_without (h : s.conn.Without o) {o' : Obj} (ho : o' ≠ o) (retryCount : ℕ)
    (creation : Creation) : (s.fireAlarm o' retryCount creation).conn.Without o := by
  have hget := conn_getOrCreateExecutor_without h ho creation
  simp only [fireAlarm]
  split
  · exact hget.write true (w := .deleteAlarm) fun _ => rfl
  · exact hget

/-- The retry of another object, or no retry. -/
theorem conn_retry_without (h : s.conn.Without o) {o' : Obj} {retryCount : ℕ} (now : ℤ)
    (hlast : o' = o → maxAlarmRetries ≤ retryCount) :
    (s.retry o' retryCount now).conn.Without o := by
  simp only [retry]
  split
  · next hlt =>
      show (s.conn.write true o' (.setAlarm (some (now + 2 ^ retryCount * 1000)))).Without o
      refine h.write true ?_
      intro heq
      have := hlast heq
      omega
  · exact h

/-- **A deletion.** It leaves nothing of the instance, if the map holds each of its timers. -/
theorem without_deleteInstance (hopen : s.conn.opened = none)
    (hmap : ∀ u timer, s.timers.armed.get? u = some timer → timer.obj = o →
      s.timers.alarmTimers o = some u) : (s.deleteInstance o).Without o := by
  simp only [deleteInstance, cancelAlarm]
  have hopened : (s.conn.write true o .deleteAlarm).opened = none :=
    (s.conn.txns_write true o .deleteAlarm).2.trans hopen
  rw [hopened]
  refine ⟨⟨⟨?_, ?_⟩, ?_⟩, ?_⟩
  · intro key
    rw [Connection.db_write, Connection.db_write, Write.contents_run, Write.contents_run]
    exact if_pos ⟨rfl, trivial⟩
  · rw [Connection.alarm_write]
    exact if_pos rfl
  · intro db hdb
    rw [(Connection.txns_write ..).2, (Connection.txns_write ..).2, hopened] at hdb
    cases hdb
  · intro u timer hu heq
    have hget := s.timers.get?_clearTimeout o u
    split at hget
    · cases hu.symm.trans hget
    · next hne => exact hne (hmap u timer (hget.symm.trans hu) heq)

end Namespaces

namespace Deleting

variable {d d' : Deleting} {s : Namespaces} {o : Obj}

/-! ### One step -/

/-- The rows and what a rollback restores. -/
theorem conn_without_step {a : AlarmAction} (h : d.spaces.Without o) (hdel : d.deleted o = true)
    (hkeeps : d.keeps (.alarm a)) (hafter : d.deletedAfter a o = true)
    (hstep : alarmStep d.spaces a = some s) : s.conn.Without o := by
  cases a with
  | setClass ns =>
    obtain rfl := Option.some.inj hstep
    exact h.conn
  | access o' creation =>
    obtain rfl := Option.some.inj hstep
    have hne : o ≠ o' := of_decide_eq_true (Bool.and_eq_true_iff.mp hafter).1
    exact Namespaces.conn_getOrCreateExecutor_without h.conn hne.symm creation
  | dispose o' =>
    obtain rfl := Option.some.inj hstep
    exact h.conn
  | storage hasCallback a =>
    obtain ⟨-, conn, hconn, rfl⟩ := Namespaces.of_storage hstep
    refine h.conn.step hconn ?_ ?_
    · rintro origin o' w rfl rfl
      exact hkeeps hdel
    · rintro ws rfl hopen w hw rfl
      exact hkeeps (Option.isNone_iff_eq_none.mpr hopen) w hw hdel
  | fires u creation =>
    obtain ⟨timer, hu, rfl⟩ := Option.map_eq_some_iff.mp hstep
    refine Namespaces.conn_fireAlarm_without ?_ (h.timers u timer hu) timer.retryCount creation
    exact h.conn
  | triggerAlarm o' creation =>
    obtain rfl := Option.some.inj hstep
    have hne : o ≠ o' := of_decide_eq_true (Bool.and_eq_true_iff.mp hafter).1
    refine Namespaces.conn_fireAlarm_without ?_ hne.symm 0 creation
    exact h.conn
  | succeeds i =>
    obtain ⟨handler, -, rfl⟩ := Namespaces.of_settled hstep
    exact h.conn
  | fails i now =>
    obtain ⟨handler, hhandler, rfl⟩ := Namespaces.of_settled hstep
    refine Namespaces.conn_retry_without (s := d.spaces.ends i handler) h.conn now ?_
    rintro rfl
    exact hkeeps handler hhandler hdel
  | cancelAlarm o' =>
    obtain rfl := Option.some.inj hstep
    exact h.conn.write true (w := .deleteAlarm) fun _ => rfl
  | deleteInstance o' =>
    obtain rfl := Option.some.inj hstep
    have hcancelled : (d.spaces.conn.write true o' .deleteAlarm).Without o :=
      h.conn.write true fun _ => rfl
    simp only [Namespaces.deleteInstance]
    split
    · exact hcancelled
    · exact (hcancelled.write true (w := .deleteAll) fun _ => rfl).write true
        (w := .deleteAlarm) fun _ => rfl

/-- The timers a step arms are of other objects. -/
theorem obj_ne_of_mem_arms {a : AlarmAction} (h : d.spaces.Without o) (hdel : d.deleted o = true)
    (hkeeps : d.keeps (.alarm a)) {timer : Timer} (hmem : timer ∈ d.spaces.arms a) :
    timer.obj ≠ o := by
  rintro rfl
  cases a with
  | setClass ns =>
    obtain ⟨row, hrow, rfl⟩ := List.mem_map.mp hmem
    have hget := Table.mem_rows_iff.mp (List.mem_of_mem_filter hrow)
    cases hget.symm.trans h.conn.db.alarm
  | storage hasCallback a =>
    cases hasCallback with
    | false => cases hmem
    | true =>
      cases a with
      | write origin o w =>
        obtain ⟨hobj, -⟩ := w.of_mem_arms hmem
        have hadds : w.adds = false := hkeeps (hobj ▸ hdel)
        have hnil := Write.arms_eq_nil hadds o
        cases hnil ▸ (show timer ∈ w.arms o from hmem)
      | transactionSync ws throws =>
        simp only [Namespaces.arms] at hmem
        split at hmem
        · cases hmem
        · next hopen =>
            obtain ⟨w, hw, htimer⟩ := List.mem_flatMap.mp hmem
            obtain ⟨hobj, -⟩ := w.2.of_mem_arms htimer
            have hnone : d.spaces.conn.opened.isNone = true := by simpa using hopen
            have hadds := hkeeps hnone w hw (hobj ▸ hdel)
            have hnil : w.2.arms w.1 = [] := by
              cases throws with
              | true => exact hadds rfl
              | false => exact Write.arms_eq_nil hadds w.1
            rw [hnil] at htimer
            cases htimer
      | transaction => cases hmem
      | begins t => cases hmem
      | settles t outcome => cases hmem
  | fails i now =>
    simp only [Namespaces.arms] at hmem
    split at hmem
    · next handler hhandler =>
        split at hmem
        · next hlt =>
            obtain rfl := List.mem_singleton.mp hmem
            have hlast := hkeeps handler hhandler hdel
            omega
        · cases hmem
    · cases hmem
  | access | dispose | fires | triggerAlarm | succeeds | cancelAlarm | deleteInstance => cases hmem

/-- **One step.** A deleted instance stays deleted, and nothing of it comes back. -/
theorem without_step {a : AlarmAction} (h : d.spaces.Without o) (hdel : d.deleted o = true)
    (hkeeps : d.keeps (.alarm a)) (hafter : d.deletedAfter a o = true)
    (hstep : alarmStep d.spaces a = some s) : s.Without o where
  conn := conn_without_step h hdel hkeeps hafter hstep
  timers := h.timers.of_grows (Namespaces.grows_of_step hstep) fun _ hmem =>
    obj_ne_of_mem_arms h hdel hkeeps hmem

/-- Nothing of a deleted instance is there, and no rollback brings anything back. -/
def Complete (d : Deleting) : Prop := ∀ o, d.deleted o = true → d.spaces.Without o

theorem complete_start (db : Db) : (start db).Complete := nofun

/-- An instance is deleted after a step if it was before, or if the step deletes it. -/
theorem of_deletedAfter {a : AlarmAction} (hafter : d.deletedAfter a o = true) :
    d.deleted o = true ∨ a = .deleteInstance o ∧ d.spaces.conn.opened = none := by
  cases a with
  | deleteInstance o' =>
    rcases Bool.or_eq_true_iff.mp hafter with hnow | hbefore
    · obtain ⟨heq, hopen⟩ := Bool.and_eq_true_iff.mp hnow
      obtain rfl : o = o' := of_decide_eq_true heq
      exact .inr ⟨rfl, Option.isNone_iff_eq_none.mp hopen⟩
    · exact .inl hbefore
  | access o' creation => exact .inl (Bool.and_eq_true_iff.mp hafter).2
  | triggerAlarm o' creation => exact .inl (Bool.and_eq_true_iff.mp hafter).2
  | _ => exact .inl hafter

theorem Complete.step {a : ProcessAction} (h : d.Complete) (hkeeps : d.keeps a)
    (hstep : deletionStep d a = some d') : d'.Complete := by
  cases a with
  | alarm a =>
    obtain ⟨s, hs, rfl⟩ := Option.map_eq_some_iff.mp hstep
    intro o hafter
    rcases of_deletedAfter hafter with hdel | ⟨rfl, hopen⟩
    · exact without_step (h o hdel) hdel hkeeps hafter hs
    · obtain rfl := Option.some.inj hs
      refine Namespaces.without_deleteInstance hopen ?_
      intro u timer hu hobj
      exact hkeeps (Option.isNone_iff_eq_none.mpr hopen) (u, timer) (Table.mem_rows_iff.mpr hu)
        hobj
  | restart =>
    obtain rfl := Option.some.inj hstep
    intro o hdel
    exact ⟨⟨(h o hdel).conn.getD, nofun⟩, nofun⟩

/-! ### The results -/

/-- **Deletion is complete.** Whatever requests, timers, handlers, transactions, reloads and
restarts do meanwhile: if no deletion leaves a timer behind, no handler with retries left fails
and no code adds a row after the instance of it was deleted, then nothing of a deleted instance
is there or comes back before it is accessed again. -/
theorem gone_throughout (db : Db) (as : List ProcessAction)
    (h : Along deletionStep keeps (start db) as) :
    Throughout deletionStep (fun d => ∀ o, d.deleted o = true → d.spaces.Gone o) (start db) as :=
  h.throughout (complete_start db) (fun _ hc o hdel => (hc o hdel).gone)
    fun _ _ _ hc hkeeps hstep => hc.step hkeeps hstep

/-- The instance of the runs below. -/
def victim : Obj := ⟨"Counter", "a"⟩

/-- The alarm of the instance has fired, and its handler runs while the instance is deleted. -/
def deletedInAlarm : List ProcessAction :=
  [.alarm (.setClass "Counter"), .alarm (.access victim Namespaces.quiet),
    .alarm (.storage true (.write .outside victim (.put "k" (some "1")))),
    .alarm (.storage true (.write .outside victim (.setAlarm (some 1000)))),
    .alarm (.fires 0 Namespaces.quiet), .alarm (.deleteInstance victim)]

/-- The handler removes a key and resolves, the class is reloaded and the process restarted. -/
def resolvedAfter : List ProcessAction :=
  deletedInAlarm ++ [.alarm (.storage true (.write .outside victim (.delete "k"))),
    .alarm (.succeeds 0), .alarm (.setClass "Counter"), .restart]

/-- Nothing of the instance comes back. -/
theorem gone_throughout_resolvedAfter :
    (play deletionStep (start .empty) resolvedAfter).isSome = true ∧
      Throughout deletionStep (fun d => ∀ o, d.deleted o = true → d.spaces.Gone o)
        (start .empty) resolvedAfter :=
  ⟨by decide +kernel, gone_throughout .empty resolvedAfter (by decide +kernel)⟩

/-- The handler fails after the deletion: the row of its retry is written and its timer armed. -/
theorem not_gone : ¬ ∀ d, Reaches deletionStep unguarded (start .empty) d →
    ∀ o, d.deleted o = true → d.spaces.Gone o := by
  intro hall
  have hrun : (play (restrict deletionStep unguarded) (start .empty)
      (deletedInAlarm ++ [.alarm (.fails 0 1001)])).any (fun d => d.deleted victim = true ∧
        d.spaces.timers.armed.get? 1 = some ⟨victim, 2001, 1⟩ ∧
        d.spaces.row victim = some 2001) = true := by
    decide +kernel
  obtain ⟨d, hreach, hd⟩ := exists_reaches_of_play hrun
  obtain ⟨hdel, harmed, -⟩ := of_decide_eq_true hd
  exact (hall d hreach victim hdel).timers 1 _ harmed rfl

end Deleting

end Lopata.DurableObject
