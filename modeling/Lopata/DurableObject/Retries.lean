import Lopata.DurableObject.Arming

/-!
# Retries of Alarms

How often the handler of an alarm was invoked travels in the closure of the timer of its next
retry. The row of the retry does not say it: when a class is set, the row is restored as that of a
new alarm.

The calls of `setAlarm` and of `triggerAlarm` are numbered, and timers, running handlers and rows
go back to one of them each; the rows that are there at the start go back to call 0. A timer and a
running handler hold the *token* of their call: the object, the call and how often it was invoked.
A firing hands the token from the timer to the handler, a failure hands it on to the timer of the
retry.

## Main results

* `Retrying.Budgeted.step`: no two hold the token of one call, and it tells how often the handler
  was invoked.
* `Retrying.retries_bounded_throughout`: a handler is invoked at most seven times for each call, and then
  the alarm is gone, in the runs in which no reload restores the row of an alarm that was invoked
  before, or that has a timer besides, and no rollback brings back that of an alarm that is used up.
* `Retrying.not_retries_bounded`: a handler that fails before each of seven reloads is invoked eight times.
-/

namespace Lopata.DurableObject

/-- The namespaces, with the calls that alarms go back to. -/
structure Retrying where
  spaces : Namespaces
  /-- The number of the next call. -/
  calls : ℕ
  /-- The call of the row of an object. -/
  rowOf : Obj → ℕ
  /-- The calls of the rows that a rollback restores. -/
  savedOf : Obj → ℕ
  /-- The call of a timer. -/
  timerOf : ℕ → ℕ
  /-- The call of an invocation. -/
  handlerOf : ℕ → ℕ
  /-- How often the handler of an object was invoked for a call. -/
  invoked : Obj → ℕ → ℕ

/-- A write that sets an alarm is a new call, and the row is its row. -/
def noteWrite (o : Obj) (w : Write) (n : ℕ × (Obj → ℕ)) : ℕ × (Obj → ℕ) :=
  match w.onAlarmSet with
  | some (some _) => (n.1 + 1, fun o' => if o' = o then n.1 else n.2 o')
  | some none | none => n

/-- The writes of a step, in order. -/
def noteWrites (ws : List (Obj × Write)) (n : ℕ × (Obj → ℕ)) : ℕ × (Obj → ℕ) :=
  ws.foldl (fun n w => noteWrite w.1 w.2 n) n

namespace Retrying

/-- The namespaces before their classes are set. -/
def start (db : Db) : Retrying :=
  ⟨.init db, 1, fun _ => 0, fun _ => 0, fun _ => 0, fun _ => 0, fun _ _ => 0⟩

/-- The writes of the constructor, if one runs. -/
def created (r : Retrying) (o : Obj) (creation : Creation) : ℕ × (Obj → ℕ) :=
  noteWrites (if r.spaces.creates o then creation.writes.map (Prod.mk o) else [])
    (r.calls, r.rowOf)

/-- The next call after the writes of a step, and the calls of what it has told the timers. -/
def noted (r : Retrying) : AlarmAction → ℕ × (Obj → ℕ)
  | .access o creation | .triggerAlarm o creation => r.created o creation
  | .fires u creation =>
      match r.spaces.timers.armed.get? u with
      | some timer => r.created timer.obj creation
      | none => (r.calls, r.rowOf)
  | .storage _ (.write _ o w) => noteWrite o w (r.calls, r.rowOf)
  | .storage _ (.transactionSync ws _) =>
      noteWrites (if r.spaces.conn.opened.isSome then [] else ws) (r.calls, r.rowOf)
  | .fails h _ =>
      match r.spaces.handlers[h]? with
      | some handler => (r.calls, fun o =>
          if o = handler.obj ∧ handler.retryCount < maxAlarmRetries then r.handlerOf h
          else r.rowOf o)
      | none => (r.calls, r.rowOf)
  | .storage _ .transaction | .storage _ (.begins _) | .storage _ (.settles _ _) | .setClass _
  | .dispose _ | .succeeds _ | .cancelAlarm _ | .deleteInstance _ => (r.calls, r.rowOf)

/-- The call and the object of the handler that a step invokes. -/
def invokes (r : Retrying) : AlarmAction → Option (Obj × ℕ)
  | .fires u _ => (r.spaces.timers.armed.get? u).map fun timer => (timer.obj, r.timerOf u)
  | .triggerAlarm o creation => some (o, (r.created o creation).1)
  | .setClass _ | .access _ _ | .dispose _ | .storage _ _ | .succeeds _ | .fails _ _
  | .cancelAlarm _ | .deleteInstance _ => none

/-- The calls of the rows after a step. -/
def rowsAfter (r : Retrying) : AlarmAction → Obj → ℕ
  | .storage _ (.settles _ outcome) =>
      if outcome = .resolved ∨ r.spaces.conn.opened.isNone = true then r.rowOf else r.savedOf
  | .storage _ (.transactionSync _ true) => r.rowOf
  | a => (r.noted a).2

/-- The calls of the rows that a rollback restores after a step. -/
def savedAfter (r : Retrying) : AlarmAction → Obj → ℕ
  | .storage _ (.begins _) => if r.spaces.conn.opened.isSome then r.savedOf else r.rowOf
  | _ => r.savedOf

/-- The bookkeeping of a step of the namespaces. -/
def after (r : Retrying) (a : AlarmAction) (s : Namespaces) : Retrying where
  spaces := s
  calls := match a with
    | .triggerAlarm _ _ => (r.noted a).1 + 1
    | _ => (r.noted a).1
  rowOf := r.rowsAfter a
  savedOf := r.savedAfter a
  timerOf := fun u =>
    if u < r.spaces.timers.next then r.timerOf u
    else ((s.timers.armed.get? u).map fun timer => (r.noted a).2 timer.obj).getD 0
  handlerOf := fun h =>
    if h < r.spaces.handlers.length then r.handlerOf h
    else ((r.invokes a).map Prod.snd).getD 0
  invoked := fun o k =>
    if r.spaces.handlers.length < s.handlers.length ∧ r.invokes a = some (o, k) then
      r.invoked o k + 1
    else r.invoked o k

end Retrying

/-- The step of the namespaces, with the calls that alarms go back to. -/
def retryStep (r : Retrying) : ProcessAction → Option Retrying
  | .alarm a => (alarmStep r.spaces a).map fun s => r.after a s
  | .restart => some { r with
      spaces := r.spaces.restart
      rowOf := if r.spaces.conn.opened.isSome then r.savedOf else r.rowOf }

namespace Retrying

/-- The handler was invoked at most seven times for each call, and after the seventh time the
alarm is gone: no timer and no row goes back to the call. -/
def Bounded (r : Retrying) : Prop :=
  ∀ o k, r.invoked o k ≤ 1 + maxAlarmRetries ∧ (r.invoked o k = 1 + maxAlarmRetries →
    (∀ u timer, r.spaces.timers.armed.get? u = some timer → timer.obj = o → r.timerOf u ≠ k) ∧
      (r.spaces.row o ≠ none → r.rowOf o ≠ k))

/-- A rollback brings back no row of an alarm that is used up. -/
def restores (r : Retrying) : Prop :=
  ∀ db ∈ r.spaces.conn.opened, ∀ row ∈ db.alarms.rows,
    r.invoked row.1 (r.savedOf row.1) ≤ maxAlarmRetries

/-- A row is restored as that of a new alarm only if it is one: its handler was not invoked yet,
and it has no timer but the one in the map, which restoring clears. -/
def spared (r : Retrying) : ProcessAction → Prop
  | .alarm (.setClass ns) => ∀ row ∈ r.spaces.conn.db.alarms.rows, row.1.doNamespace = ns →
      r.invoked row.1 (r.rowOf row.1) = 0 ∧
        ∀ timer ∈ r.spaces.timers.armed.rows, timer.2.obj = row.1 →
          r.timerOf timer.1 = r.rowOf row.1 →
            r.spaces.timers.alarmTimers row.1 = some timer.1
  | .alarm (.storage _ (.settles _ outcome)) => outcome ≠ .resolved → r.restores
  | .restart => r.restores
  | .alarm (.storage _ (.write _ _ _)) | .alarm (.storage _ .transaction)
  | .alarm (.storage _ (.begins _)) | .alarm (.storage _ (.transactionSync _ _))
  | .alarm (.access _ _) | .alarm (.dispose _) | .alarm (.fires _ _) | .alarm (.triggerAlarm _ _)
  | .alarm (.succeeds _) | .alarm (.fails _ _) | .alarm (.cancelAlarm _)
  | .alarm (.deleteInstance _) => True

instance (r : Retrying) : Decidable r.restores :=
  inferInstanceAs (Decidable (∀ db ∈ r.spaces.conn.opened, ∀ row ∈ db.alarms.rows,
    r.invoked row.1 (r.savedOf row.1) ≤ maxAlarmRetries))

instance (r : Retrying) : (a : ProcessAction) → Decidable (r.spared a)
  | .alarm (.setClass ns) => inferInstanceAs (Decidable
      (∀ row ∈ r.spaces.conn.db.alarms.rows, row.1.doNamespace = ns →
        r.invoked row.1 (r.rowOf row.1) = 0 ∧
          ∀ timer ∈ r.spaces.timers.armed.rows, timer.2.obj = row.1 →
            r.timerOf timer.1 = r.rowOf row.1 →
              r.spaces.timers.alarmTimers row.1 = some timer.1))
  | .alarm (.storage _ (.settles _ outcome)) =>
      inferInstanceAs (Decidable (outcome ≠ .resolved → r.restores))
  | .restart => inferInstanceAs (Decidable r.restores)
  | .alarm (.storage _ (.write _ _ _)) | .alarm (.storage _ .transaction)
  | .alarm (.storage _ (.begins _)) | .alarm (.storage _ (.transactionSync _ _))
  | .alarm (.access _ _) | .alarm (.dispose _) | .alarm (.fires _ _) | .alarm (.triggerAlarm _ _)
  | .alarm (.succeeds _) | .alarm (.fails _ _) | .alarm (.cancelAlarm _)
  | .alarm (.deleteInstance _) => inferInstanceAs (Decidable True)

end Retrying

/-! ### Rows and their calls -/

theorem le_noteWrite (o : Obj) (w : Write) (n : ℕ × (Obj → ℕ)) : n.1 ≤ (noteWrite o w n).1 := by
  simp only [noteWrite]
  split
  · exact Nat.le_succ _
  · exact Nat.le_refl _
  · exact Nat.le_refl _

theorem le_noteWrites (ws : List (Obj × Write)) (n : ℕ × (Obj → ℕ)) :
    n.1 ≤ (noteWrites ws n).1 := by
  induction ws generalizing n with
  | nil => exact Nat.le_refl _
  | cons w ws ih => exact Nat.le_trans (le_noteWrite w.1 w.2 n) (ih _)

/-- The calls of rows were numbered. -/
theorem lt_noteWrite {n : ℕ × (Obj → ℕ)} (h : ∀ o, n.2 o < n.1) (o : Obj) (w : Write) (o' : Obj) :
    (noteWrite o w n).2 o' < (noteWrite o w n).1 := by
  simp only [noteWrite]
  split
  · show (if o' = o then n.1 else n.2 o') < n.1 + 1
    split
    · exact Nat.lt_succ_self _
    · exact Nat.lt_succ_of_lt (h o')
  · exact h o'
  · exact h o'

theorem lt_noteWrites {n : ℕ × (Obj → ℕ)} (h : ∀ o, n.2 o < n.1) (ws : List (Obj × Write))
    (o : Obj) : (noteWrites ws n).2 o < (noteWrites ws n).1 := by
  induction ws generalizing n with
  | nil => exact h o
  | cons w ws ih => exact ih fun o' => lt_noteWrite h w.1 w.2 o'

/-- The call of an object stays, or it is new. -/
theorem noteWrites_cases (ws : List (Obj × Write)) (n : ℕ × (Obj → ℕ)) (o : Obj) :
    (noteWrites ws n).2 o = n.2 o ∨ n.1 ≤ (noteWrites ws n).2 o := by
  induction ws generalizing n with
  | nil => exact .inl rfl
  | cons w ws ih =>
    rcases ih (noteWrite w.1 w.2 n) with hsame | hnew
    · have hfirst : (noteWrite w.1 w.2 n).2 o = n.2 o ∨ n.1 ≤ (noteWrite w.1 w.2 n).2 o := by
        simp only [noteWrite]
        split
        · show (if o = w.1 then n.1 else n.2 o) = n.2 o ∨ n.1 ≤ if o = w.1 then n.1 else n.2 o
          split
          · exact .inr (Nat.le_refl _)
          · exact .inl rfl
        · exact .inl rfl
        · exact .inl rfl
      have hrest : (noteWrites (w :: ws) n).2 o = (noteWrite w.1 w.2 n).2 o := hsame
      rw [hrest]
      exact hfirst
    · exact .inr (Nat.le_trans (le_noteWrite w.1 w.2 n) hnew)

/-- An object whose alarm is set has a new call. -/
theorem le_of_mem_arms {ws : List (Obj × Write)} {n : ℕ × (Obj → ℕ)} {w : Obj × Write}
    (hw : w ∈ ws) {timer : Timer} (htimer : timer ∈ w.2.arms w.1) :
    n.1 ≤ (noteWrites ws n).2 timer.obj := by
  induction ws generalizing n with
  | nil => cases hw
  | cons w' ws ih =>
    rcases List.mem_cons.mp hw with rfl | hmem
    · have hobj := (w.2.of_mem_arms htimer).1
      have hfirst : (noteWrite w.1 w.2 n).2 timer.obj = n.1 := by
        simp only [Write.arms] at htimer
        split at htimer
        · next hset =>
            simp only [noteWrite, hset]
            exact if_pos hobj
        · cases htimer
        · cases htimer
      rcases noteWrites_cases ws (noteWrite w.1 w.2 n) timer.obj with hsame | hnew
      · exact Nat.le_of_eq (hfirst.symm.trans hsame.symm)
      · exact Nat.le_trans (le_noteWrite w.1 w.2 n) hnew
    · exact Nat.le_trans (le_noteWrite w'.1 w'.2 n) (ih hmem)

/-- The handler of each row has invocations left. -/
def Left (invoked : Obj → ℕ → ℕ) (rowOf : Obj → ℕ) (db : Db) : Prop :=
  ∀ o t, db.contents.alarm o = some t → invoked o (rowOf o) ≤ maxAlarmRetries

namespace Left

variable {invoked : Obj → ℕ → ℕ} {n : ℕ × (Obj → ℕ)} {db : Db}

/-- A write sets the alarm of a new call, or none. -/
theorem run (h : Left invoked n.2 db) (hfresh : ∀ o k, n.1 ≤ k → invoked o k = 0) (o : Obj)
    (w : Write) : Left invoked (noteWrite o w n).2 (w.run o db).1 := by
  intro o' t ht
  rw [Write.alarm_run] at ht
  simp only [Write.alarm, noteWrite] at ht ⊢
  cases hset : w.onAlarmSet with
  | none =>
    rw [hset] at ht
    exact h o' t ht
  | some time =>
    rw [hset] at ht
    have hcases : (if o' = o then time else db.contents.alarm o') = some t := ht
    cases time with
    | none =>
      split at hcases
      · cases hcases
      · exact h o' t hcases
    | some t' =>
      show invoked o' (if o' = o then n.1 else n.2 o') ≤ _
      split
      · rw [hfresh o' n.1 (Nat.le_refl _)]
        exact Nat.zero_le _
      · next hne =>
          rw [if_neg hne] at hcases
          exact h o' t hcases

theorem foldl_run (h : Left invoked n.2 db) (hfresh : ∀ o k, n.1 ≤ k → invoked o k = 0)
    (ws : List (Obj × Write)) : Left invoked (noteWrites ws n).2
      (ws.foldl (fun db w => (w.2.run w.1 db).1) db) := by
  induction ws generalizing n db with
  | nil => exact h
  | cons w ws ih =>
    refine ih (h.run hfresh w.1 w.2) ?_
    intro o k hk
    exact hfresh o k (Nat.le_trans (le_noteWrite w.1 w.2 n) hk)

/-- The row of an object is deleted, and its handler is invoked. -/
theorem deleteAlarm {rowOf : Obj → ℕ} (h : Left invoked rowOf db) {invoked' : Obj → ℕ → ℕ}
    {o : Obj} (hother : ∀ o', o' ≠ o → invoked' o' = invoked o') :
    Left invoked' rowOf (Write.deleteAlarm.run o db).1 := by
  intro o' t ht
  rw [Write.alarm_run] at ht
  have hcases : (if o' = o then none else db.contents.alarm o') = some t := ht
  split at hcases
  · cases hcases
  · next hne =>
      rw [hother o' hne]
      exact h o' t hcases

end Left

/-! ### The step of a handler -/

/-- A step that invokes a handler. -/
def AlarmAction.isFiring : AlarmAction → Bool
  | .fires _ _ | .triggerAlarm _ _ => true
  | .setClass _ | .access _ _ | .dispose _ | .storage _ _ | .succeeds _ | .fails _ _
  | .cancelAlarm _ | .deleteInstance _ => false

namespace Namespaces

variable {s s' : Namespaces}

/-- What a constructor leaves. -/
theorem db_construct (s : Namespaces) (o : Obj) (ws : List Write) : (s.construct o ws).conn.db =
    (ws.map (Prod.mk o)).foldl (fun db w => (w.2.run w.1 db).1) s.conn.db := by
  induction ws generalizing s with
  | nil => rfl
  | cons w ws ih =>
    have hrest := ih { s with conn := s.conn.write true o w }
    rw [show ({ s with conn := s.conn.write true o w } : Namespaces).conn.db =
      (w.run o s.conn.db).1 from s.conn.db_write true o w] at hrest
    exact hrest

/-- The writes of `_getOrCreateExecutor` are those of the constructor, if one runs. -/
theorem db_getOrCreateExecutor (s : Namespaces) (o : Obj) (creation : Creation) :
    (s.getOrCreateExecutor o creation).1.conn.db =
      (if s.creates o then creation.writes.map (Prod.mk o) else []).foldl
        (fun db w => (w.2.run w.1 db).1) s.conn.db := by
  rcases s.getOrCreateExecutor_cases o creation with
    ⟨hexec, hget⟩ | ⟨-, hwired, hget⟩ | ⟨hcreates, -, hget⟩ | ⟨hcreates, -, hget⟩
  all_goals rw [hget]
  · simp [creates, hexec]
  · simp [creates, hwired]
  · rw [if_pos hcreates]
    exact s.db_construct o creation.writes
  · rw [if_pos hcreates]
    exact s.db_construct o creation.writes

theorem handlers_getOrCreateExecutor (s : Namespaces) (o : Obj) (creation : Creation) :
    (s.getOrCreateExecutor o creation).1.handlers = s.handlers := by
  rcases s.getOrCreateExecutor_cases o creation with
    ⟨-, hget⟩ | ⟨-, -, hget⟩ | ⟨-, -, hget⟩ | ⟨-, -, hget⟩ <;> rw [hget] <;> rfl

/-- `_fireAlarm` invokes the handler and deletes the row, or does neither. -/
theorem fireAlarm_cases (s : Namespaces) (o : Obj) (retryCount : ℕ) (creation : Creation) :
    ((s.fireAlarm o retryCount creation).handlers = s.handlers ∧
      (s.fireAlarm o retryCount creation).conn.db =
        (s.getOrCreateExecutor o creation).1.conn.db) ∨
    ((s.fireAlarm o retryCount creation).handlers = s.handlers ++ [⟨o, retryCount, true⟩] ∧
      (s.fireAlarm o retryCount creation).conn.db =
        (Write.deleteAlarm.run o (s.getOrCreateExecutor o creation).1.conn.db).1) := by
  have hhandlers := s.handlers_getOrCreateExecutor o creation
  simp only [fireAlarm]
  split
  · refine .inr ⟨?_, ?_⟩
    · show (s.getOrCreateExecutor o creation).1.handlers ++ _ = _
      rw [hhandlers]
    · exact Connection.db_write ..
  · exact .inl ⟨hhandlers, rfl⟩

theorem handlers_retry (s : Namespaces) (o : Obj) (retryCount : ℕ) (now : ℤ) :
    (s.retry o retryCount now).handlers = s.handlers := by
  simp only [retry]
  split <;> rfl

/-- The handlers of a step that is no firing: none is added, and none starts to run again. -/
theorem handlers_of_step {a : AlarmAction} (hstep : alarmStep s a = some s')
    (hfiring : a.isFiring = false) :
    s'.handlers.length = s.handlers.length ∧
      ∀ (h : ℕ) (handler : Handler), s'.handlers[h]? = some handler → handler.running = true →
        s.handlers[h]? = some handler := by
  have hsame : ∀ {t : Namespaces}, t.handlers = s.handlers →
      t.handlers.length = s.handlers.length ∧
        ∀ (h : ℕ) (handler : Handler), t.handlers[h]? = some handler → handler.running = true →
          s.handlers[h]? = some handler := by
    intro t heq
    rw [heq]
    exact ⟨rfl, fun _ _ hget _ => hget⟩
  have hends : ∀ (i : ℕ) (handler : Handler),
      (s.ends i handler).handlers.length = s.handlers.length ∧
        ∀ (h : ℕ) (handler' : Handler), (s.ends i handler).handlers[h]? = some handler' →
          handler'.running = true → s.handlers[h]? = some handler' := by
    intro i handler
    refine ⟨List.length_set, ?_⟩
    intro h handler' hget hrunning
    by_cases heq : i = h
    · subst heq
      simp only [ends, List.getElem?_set_self'] at hget
      obtain ⟨_, _, rfl⟩ := Option.map_eq_some_iff.mp hget
      cases hrunning
    · simp only [ends, List.getElem?_set_ne heq] at hget
      exact hget
  cases a with
  | setClass ns =>
    obtain rfl := Option.some.inj hstep
    exact hsame rfl
  | access o creation =>
    obtain rfl := Option.some.inj hstep
    exact hsame (s.handlers_getOrCreateExecutor o creation)
  | dispose o =>
    obtain rfl := Option.some.inj hstep
    exact hsame rfl
  | storage hasCallback a =>
    obtain ⟨-, conn, -, rfl⟩ := of_storage hstep
    exact hsame rfl
  | fires u creation => cases hfiring
  | triggerAlarm o creation => cases hfiring
  | succeeds i =>
    obtain ⟨handler, -, rfl⟩ := of_settled hstep
    exact hends i handler
  | fails i now =>
    obtain ⟨handler, -, rfl⟩ := of_settled hstep
    rw [handlers_retry]
    exact hends i handler
  | cancelAlarm o =>
    obtain rfl := Option.some.inj hstep
    exact hsame rfl
  | deleteInstance o =>
    obtain rfl := Option.some.inj hstep
    simp only [deleteInstance]
    split
    · exact hsame rfl
    · exact hsame rfl

/-- The row of a retry. -/
theorem alarm_retry (s : Namespaces) (o : Obj) (retryCount : ℕ) (now : ℤ) (o' : Obj) :
    (s.retry o retryCount now).conn.db.contents.alarm o' =
      if o' = o ∧ retryCount < maxAlarmRetries then some (now + 2 ^ retryCount * 1000)
      else s.conn.db.contents.alarm o' := by
  simp only [retry]
  split
  · next hlt =>
      show (s.conn.write true o (.setAlarm (some (now + 2 ^ retryCount * 1000)))).db.contents.alarm
        o' = _
      rw [Connection.alarm_write]
      simp only [hlt, and_true]
      rfl
  · next hno =>
      rw [if_neg fun hyes => hno hyes.2]

/-- A handler that is settled does not run. -/
theorem getElem?_ends {i : ℕ} {handler : Handler} (hi : s.handlers[i]? = some handler) :
    (s.ends i handler).handlers[i]? = some { handler with running := false } := by
  obtain ⟨hlt, -⟩ := List.getElem?_eq_some_iff.mp hi
  exact List.getElem?_set_self hlt

/-- A handler that fails was running. -/
theorem of_fails {i : ℕ} {now : ℤ}
    (hstep : alarmStep s (.fails i now) = some s') :
    ∃ handler, s.handlers[i]? = some handler ∧ handler.running = true ∧
      (s.ends i handler).retry handler.obj handler.retryCount now = s' := by
  simp only [alarmStep] at hstep
  split at hstep
  · next handler hhandler =>
      obtain ⟨hrunning, heq⟩ := Option.ite_none_right_eq_some.mp hstep
      exact ⟨handler, hhandler, hrunning, Option.some.inj heq⟩
  · cases hstep

end Namespaces

/-! ### Tokens -/

/-- What a timer or a running handler knows: the object, the call, and how often the handler was
invoked for it. -/
structure Token where
  obj : Obj
  call : ℕ
  spent : ℕ

namespace Retrying

variable {r : Retrying} {s : Namespaces}

/-- The token of a timer, or of a handler that runs. -/
def token (r : Retrying) : ℕ ⊕ ℕ → Option Token
  | .inl u => (r.spaces.timers.armed.get? u).map fun timer =>
      ⟨timer.obj, r.timerOf u, timer.retryCount⟩
  | .inr h => (r.spaces.handlers[h]?).bind fun handler =>
      if handler.running then some ⟨handler.obj, r.handlerOf h, handler.retryCount + 1⟩ else none

/-- The tokens are true, and there is one for each call at most. -/
structure Tokens (r : Retrying) : Prop where
  spent : ∀ x token, r.token x = some token → token.spent = r.invoked token.obj token.call
  call_lt : ∀ x token, r.token x = some token → token.call < r.calls
  unique : ∀ x y token token', r.token x = some token → r.token y = some token' →
    token.obj = token'.obj → token.call = token'.call → x = y

/-- **Tokens move.** Some holders are new; each of them has a true token, and no other holder has
one for the same call. The others keep their tokens, or lose them. -/
theorem Tokens.of_moves (h : r.Tokens) {r' : Retrying} (New : ℕ ⊕ ℕ → Token → Prop)
    (hmoves : ∀ x token, r'.token x = some token → r.token x = some token ∨ New x token)
    (hcalls : r.calls ≤ r'.calls)
    (hkept : ∀ x token, r'.token x = some token → r.token x = some token →
      r'.invoked token.obj token.call = r.invoked token.obj token.call)
    (hnew : ∀ x token, New x token →
      token.spent = r'.invoked token.obj token.call ∧ token.call < r'.calls)
    (hone : ∀ x y token token', New x token → New y token' → token.obj = token'.obj →
      token.call = token'.call → x = y)
    (hother : ∀ x y token token', New x token → r'.token y = some token' →
      r.token y = some token' → token.obj = token'.obj → token.call ≠ token'.call) :
    r'.Tokens where
  spent x token hx := by
    rcases hmoves x token hx with hold | hmoved
    · rw [hkept x token hx hold]
      exact h.spent x token hold
    · exact (hnew x token hmoved).1
  call_lt x token hx := by
    rcases hmoves x token hx with hold | hmoved
    · exact Nat.lt_of_lt_of_le (h.call_lt x token hold) hcalls
    · exact (hnew x token hmoved).2
  unique x y token token' hx hy hobj hcall := by
    rcases hmoves x token hx with hold | hmoved
    · rcases hmoves y token' hy with hold' | hmoved'
      · exact h.unique x y token token' hold hold' hobj hcall
      · exact absurd hcall.symm (hother y x token' token hmoved' hx hold hobj.symm)
    · rcases hmoves y token' hy with hold' | hmoved'
      · exact absurd hcall (hother x y token token' hmoved hy hold' hobj)
      · exact hone x y token token' hmoved hmoved' hobj hcall

/-- The timers of a step: those of before, and those it arms. -/
theorem of_token_timer {a : AlarmAction} (hstep : alarmStep r.spaces a = some s) {u : ℕ}
    {token : Token} (hu : (r.after a s).token (.inl u) = some token) :
    r.token (.inl u) = some token ∨ r.spaces.timers.next ≤ u ∧ ∃ timer ∈ r.spaces.arms a,
      s.timers.armed.get? u = some timer ∧
        (⟨timer.obj, (r.noted a).2 timer.obj, timer.retryCount⟩ : Token) = token := by
  obtain ⟨timer, hget, rfl⟩ := Option.map_eq_some_iff.mp hu
  have hget' : s.timers.armed.get? u = some timer := hget
  rcases (Namespaces.grows_of_step hstep).armed u timer hget' with hold | ⟨hnew, hmem⟩
  · refine .inl ?_
    have hlt := r.spaces.timers.lt_next hold
    simp only [Retrying.token, hold, Option.map_some, after, if_pos hlt]
  · refine .inr ⟨hnew, timer, hmem, hget', ?_⟩
    simp only [after, if_neg (Nat.not_lt.mpr hnew), hget', Option.map_some, Option.getD_some]

/-- The handlers of a step that is no firing. -/
theorem of_token_handler {a : AlarmAction} (hstep : alarmStep r.spaces a = some s)
    (hfiring : a.isFiring = false) {h : ℕ} {token : Token}
    (hh : (r.after a s).token (.inr h) = some token) : r.token (.inr h) = some token := by
  obtain ⟨-, hkept⟩ := Namespaces.handlers_of_step hstep hfiring
  obtain ⟨handler, hget, hrunning⟩ := Option.bind_eq_some_iff.mp hh
  have hget' : s.handlers[h]? = some handler := hget
  obtain ⟨hyes, heq⟩ := Option.ite_none_right_eq_some.mp hrunning
  obtain rfl := Option.some.inj heq
  have hold := hkept h handler hget' hyes
  obtain ⟨hlt, -⟩ := List.getElem?_eq_some_iff.mp hold
  simp only [Retrying.token, hold, Option.bind_some, if_pos hyes, after, if_pos hlt]

/-! ### The bookkeeping of a step -/

theorem le_created (r : Retrying) (o : Obj) (creation : Creation) :
    r.calls ≤ (r.created o creation).1 := le_noteWrites _ (r.calls, r.rowOf)

/-- Calls are numbered upwards. -/
theorem le_noted (r : Retrying) (a : AlarmAction) : r.calls ≤ (r.noted a).1 := by
  cases a with
  | access o creation => exact r.le_created o creation
  | triggerAlarm o creation => exact r.le_created o creation
  | fires u creation =>
    simp only [noted]
    split
    · exact r.le_created _ creation
    · exact Nat.le_refl _
  | storage hasCallback a =>
    cases a with
    | write origin o w => exact le_noteWrite o w (r.calls, r.rowOf)
    | transactionSync ws throws => exact le_noteWrites _ (r.calls, r.rowOf)
    | transaction => exact Nat.le_refl _
    | begins t => exact Nat.le_refl _
    | settles t outcome => exact Nat.le_refl _
  | fails i now =>
    simp only [noted]
    split
    · exact Nat.le_refl _
    · exact Nat.le_refl _
  | setClass | dispose | succeeds | cancelAlarm | deleteInstance => exact Nat.le_refl _

theorem le_calls_after (r : Retrying) (a : AlarmAction) (s : Namespaces) :
    (r.noted a).1 ≤ (r.after a s).calls := by
  cases a with
  | triggerAlarm o creation => exact Nat.le_succ _
  | _ => exact Nat.le_refl _

/-- Only firings are invocations. -/
theorem invoked_after_of_none {a : AlarmAction} (hinvokes : r.invokes a = none) :
    (r.after a s).invoked = r.invoked := by
  funext o k
  simp only [after, hinvokes]
  rw [if_neg]
  rintro ⟨-, hsome⟩
  cases hsome

/-! ### Tokens in a step -/

/-- **Timers are armed.** A step that is no firing gives tokens to the timers it arms only. -/
theorem Tokens.arm (h : r.Tokens) {a : AlarmAction} (hstep : alarmStep r.spaces a = some s)
    (hfiring : a.isFiring = false)
    (hnew : ∀ timer ∈ r.spaces.arms a,
      timer.retryCount = r.invoked timer.obj ((r.noted a).2 timer.obj) ∧
        (r.noted a).2 timer.obj < (r.noted a).1 ∧
        ∀ y token, (r.after a s).token y = some token → r.token y = some token →
          timer.obj = token.obj → (r.noted a).2 timer.obj ≠ token.call) :
    (r.after a s).Tokens := by
  have hinvokes : r.invokes a = none := by
    cases a with
    | fires u creation => cases hfiring
    | triggerAlarm o creation => cases hfiring
    | _ => rfl
  have hinvoked : (r.after a s).invoked = r.invoked := invoked_after_of_none hinvokes
  have hmapped := Namespaces.mapped_of_step hstep
  refine h.of_moves (fun x token => ∃ u, x = .inl u ∧ r.spaces.timers.next ≤ u ∧
    ∃ timer ∈ r.spaces.arms a, s.timers.armed.get? u = some timer ∧
      (⟨timer.obj, (r.noted a).2 timer.obj, timer.retryCount⟩ : Token) = token) ?_ ?_ ?_ ?_ ?_ ?_
  · intro x token hx
    cases x with
    | inl u =>
      rcases of_token_timer hstep hx with hold | ⟨hle, timer, hmem, hget, htoken⟩
      · exact .inl hold
      · exact .inr ⟨u, rfl, hle, timer, hmem, hget, htoken⟩
    | inr i => exact .inl (of_token_handler hstep hfiring hx)
  · exact Nat.le_trans (r.le_noted a) (r.le_calls_after a s)
  · intro x token _ _
    rw [hinvoked]
  · rintro x token ⟨u, rfl, hle, timer, hmem, hget, rfl⟩
    obtain ⟨hspent, hlt, -⟩ := hnew timer hmem
    rw [hinvoked]
    exact ⟨hspent, Nat.lt_of_lt_of_le hlt (r.le_calls_after a s)⟩
  · rintro x y token token' ⟨u, rfl, hle, timer, hmem, hget, rfl⟩
      ⟨v, rfl, hle', timer', hmem', hget', rfl⟩ hobj hcall
    -- the map holds each of them
    have hu := hmapped u timer hle hget
    have hv := hmapped v timer' hle' hget'
    have hsame : timer.obj = timer'.obj := hobj
    rw [hsame, hv] at hu
    obtain rfl := Option.some.inj hu
    rfl
  · rintro x y token token' ⟨u, rfl, hle, timer, hmem, hget, rfl⟩ hy hold hobj
    exact (hnew timer hmem).2.2 y token' hy hold hobj

/-- **A handler is invoked.** It takes over a token, counted up, from a timer that is gone, or a
new one. -/
theorem Tokens.invoke (h : r.Tokens) {a : AlarmAction} (hstep : alarmStep r.spaces a = some s)
    {o : Obj} {k n : ℕ} (harms : r.spaces.arms a = []) (hinvokes : r.invokes a = some (o, k))
    (hhandlers : s.handlers = r.spaces.handlers ∨
      s.handlers = r.spaces.handlers ++ [⟨o, n, true⟩])
    (hspent : n = r.invoked o k) (hlt : k < (r.after a s).calls)
    (hother : ∀ y token, (r.after a s).token y = some token → r.token y = some token →
      o = token.obj → k ≠ token.call) : (r.after a s).Tokens := by
  have hle : r.calls ≤ (r.after a s).calls := Nat.le_trans (r.le_noted a) (r.le_calls_after a s)
  have htimer : ∀ u token, (r.after a s).token (.inl u) = some token →
      r.token (.inl u) = some token := by
    intro u token hu
    rcases of_token_timer hstep hu with hold | ⟨-, timer, hmem, -⟩
    · exact hold
    · rw [harms] at hmem
      cases hmem
  have hhandler : ∀ (i : ℕ) (token : Token), i < r.spaces.handlers.length →
      s.handlers[i]? = r.spaces.handlers[i]? → (r.after a s).token (.inr i) = some token →
        r.token (.inr i) = some token := by
    intro i token hi heq htoken
    have hsame : (r.after a s).handlerOf i = r.handlerOf i := if_pos hi
    have hget : (r.after a s).spaces.handlers[i]? = r.spaces.handlers[i]? := heq
    simp only [Retrying.token, hget, hsame] at htoken
    exact htoken
  have hkept : ∀ x token, (r.after a s).token x = some token → r.token x = some token →
      (r.after a s).invoked token.obj token.call = r.invoked token.obj token.call := by
    intro x token hx hold
    simp only [after, hinvokes]
    rw [if_neg]
    rintro ⟨-, hsome⟩
    have hpair := Option.some.inj hsome
    exact hother x token hx hold (congrArg Prod.fst hpair) (congrArg Prod.snd hpair)
  rcases hhandlers with hsame | hadded
  · refine h.of_moves (fun _ _ => False) ?_ hle hkept (fun _ _ hf => hf.elim)
      (fun _ _ _ _ hf => hf.elim) (fun _ _ _ _ hf => hf.elim)
    intro x token hx
    cases x with
    | inl u => exact .inl (htimer u token hx)
    | inr i =>
      refine .inl (hhandler i token ?_ (by rw [hsame]) hx)
      obtain ⟨handler, hget, -⟩ := Option.bind_eq_some_iff.mp hx
      have hget' : s.handlers[i]? = some handler := hget
      rw [hsame] at hget'
      exact (List.getElem?_eq_some_iff.mp hget').1
  · refine h.of_moves (fun x token => x = .inr r.spaces.handlers.length ∧
      token = ⟨o, k, n + 1⟩) ?_ hle hkept ?_ ?_ ?_
    · intro x token hx
      cases x with
      | inl u => exact .inl (htimer u token hx)
      | inr i =>
        obtain ⟨handler, hget, hrunning⟩ := Option.bind_eq_some_iff.mp hx
        have hget' : s.handlers[i]? = some handler := hget
        rw [hadded, List.getElem?_append] at hget'
        split at hget'
        · next hi =>
            refine .inl (hhandler i token hi ?_ hx)
            rw [hadded, List.getElem?_append_left hi]
        · next hi =>
            obtain ⟨hi', heq⟩ := List.getElem?_eq_some_iff.mp hget'
            have hzero : i = r.spaces.handlers.length := by
              simp only [List.length_singleton] at hi'
              omega
            subst hzero
            simp only [Nat.sub_self, List.getElem_cons_zero] at heq
            subst heq
            refine .inr ⟨rfl, ?_⟩
            have htoken := Option.some.inj hrunning
            rw [← htoken]
            simp only [after, Nat.lt_irrefl, if_false, hinvokes, Option.map_some,
              Option.getD_some]
    · rintro x token ⟨rfl, rfl⟩
      refine ⟨?_, hlt⟩
      have hlonger : r.spaces.handlers.length < s.handlers.length := by
        rw [hadded, List.length_append]
        exact Nat.lt_succ_self _
      simp only [after, hinvokes, hlonger, and_self, if_true, hspent]
    · rintro x y token token' ⟨rfl, -⟩ ⟨rfl, -⟩ _ _
      rfl
    · rintro x y token token' ⟨rfl, rfl⟩ hy hold hobj
      exact hother y token' hy hold hobj

/-! ### The budget -/

/-- Tokens are true and single, no timer has a token that is used up, and nor has a row. -/
structure Budgeted (r : Retrying) : Prop where
  tokens : r.Tokens
  pending : ∀ u timer, r.spaces.timers.armed.get? u = some timer →
    timer.retryCount ≤ maxAlarmRetries
  bounded : ∀ o k, r.invoked o k ≤ 1 + maxAlarmRetries
  left : Left r.invoked r.rowOf r.spaces.conn.db
  row_lt : ∀ o, r.rowOf o < r.calls
  saved_lt : ∀ o, r.savedOf o < r.calls
  fresh : ∀ o k, r.calls ≤ k → r.invoked o k = 0

/-- Nobody has a token in a new process. -/
theorem tokens_of_empty (htimers : ∀ u, r.spaces.timers.armed.get? u = none)
    (hhandlers : r.spaces.handlers = []) : r.Tokens := by
  have hnone : ∀ x, r.token x = none := by
    intro x
    cases x with
    | inl u => simp only [token, htimers u, Option.map_none]
    | inr i => simp only [token, hhandlers, List.getElem?_nil, Option.bind_none]
  constructor
  · intro x token hx
    cases (hnone x).symm.trans hx
  · intro x token hx
    cases (hnone x).symm.trans hx
  · intro x y token token' hx
    cases (hnone x).symm.trans hx

theorem budgeted_start (db : Db) : (start db).Budgeted where
  tokens := tokens_of_empty (fun _ => rfl) rfl
  pending := nofun
  bounded _ _ := Nat.zero_le _
  left _ _ _ := Nat.zero_le _
  row_lt _ := Nat.zero_lt_one
  saved_lt _ := Nat.zero_lt_one
  fresh _ _ _ := rfl

theorem Budgeted.bounded_of (h : r.Budgeted) : r.Bounded := by
  intro o k
  refine ⟨h.bounded o k, ?_⟩
  intro hspent
  constructor
  · rintro u timer hu rfl rfl
    have htoken : r.token (.inl u) = some ⟨timer.obj, r.timerOf u, timer.retryCount⟩ := by
      simp only [token, hu, Option.map_some]
    have htrue : timer.retryCount = r.invoked timer.obj (r.timerOf u) :=
      h.tokens.spent _ _ htoken
    have hpending := h.pending u timer hu
    omega
  · rintro hrow rfl
    obtain ⟨t, ht⟩ := Option.ne_none_iff_exists'.mp hrow
    have hleft := h.left o t ht
    omega

/-- A new call is nobody's. -/
theorem Budgeted.new_call (h : r.Budgeted) {k : ℕ} (hk : r.calls ≤ k) {y : ℕ ⊕ ℕ} {token : Token}
    (hy : r.token y = some token) : k ≠ token.call := by
  rintro rfl
  have hlt := h.tokens.call_lt y token hy
  omega

/-- What the code of an object arms goes back to new calls. -/
theorem Budgeted.arm_new (h : r.Budgeted) {ws : List (Obj × Write)} {w : Obj × Write} (hw : w ∈ ws)
    {timer : Timer} (htimer : timer ∈ w.2.arms w.1) :
    timer.retryCount =
        r.invoked timer.obj ((noteWrites ws (r.calls, r.rowOf)).2 timer.obj) ∧
      (noteWrites ws (r.calls, r.rowOf)).2 timer.obj < (noteWrites ws (r.calls, r.rowOf)).1 ∧
      ∀ y token, r.token y = some token →
        (noteWrites ws (r.calls, r.rowOf)).2 timer.obj ≠ token.call := by
  have hle : r.calls ≤ (noteWrites ws (r.calls, r.rowOf)).2 timer.obj :=
    le_of_mem_arms (n := (r.calls, r.rowOf)) hw htimer
  refine ⟨?_, lt_noteWrites h.row_lt ws timer.obj, fun y token hy => h.new_call hle hy⟩
  rw [h.fresh timer.obj _ hle]
  exact (w.2.of_mem_arms htimer).2

/-- The token of a timer. -/
theorem token_inl {u : ℕ} {timer : Timer} (hu : r.spaces.timers.armed.get? u = some timer) :
    r.token (.inl u) = some ⟨timer.obj, r.timerOf u, timer.retryCount⟩ := by
  simp only [token, hu, Option.map_some]

/-- The token of a running handler. -/
theorem token_inr {i : ℕ} {handler : Handler} (hi : r.spaces.handlers[i]? = some handler)
    (hrunning : handler.running = true) :
    r.token (.inr i) = some ⟨handler.obj, r.handlerOf i, handler.retryCount + 1⟩ := by
  simp only [token, hi, Option.bind_some, if_pos hrunning]

/-- A running handler was invoked. -/
theorem spent_pos {i : ℕ} {token : Token} (hi : r.token (.inr i) = some token) :
    0 < token.spent := by
  obtain ⟨handler, -, hrunning⟩ := Option.bind_eq_some_iff.mp hi
  obtain ⟨-, heq⟩ := Option.ite_none_right_eq_some.mp hrunning
  obtain rfl := Option.some.inj heq
  exact Nat.succ_pos _

/-- **Tokens stay single.** Over one step, the timers that the step arms or fires and the handlers
that it invokes or ends included. -/
theorem Budgeted.tokens_step (h : r.Budgeted) {a : AlarmAction} (hspared : r.spared (.alarm a))
    (hstep : alarmStep r.spaces a = some s) : (r.after a s).Tokens := by
  have hquiet : r.spaces.arms a = [] → a.isFiring = false → (r.after a s).Tokens := by
    intro hnil hfiring
    refine h.tokens.arm hstep hfiring ?_
    rw [hnil]
    exact fun timer hmem => absurd hmem List.not_mem_nil
  cases a with
  | setClass ns =>
    refine h.tokens.arm hstep rfl ?_
    intro timer hmem
    obtain ⟨row, hrow, rfl⟩ := List.mem_map.mp hmem
    obtain ⟨hin, hns⟩ := List.mem_filter.mp hrow
    obtain ⟨hnone, hmap⟩ := hspared row hin (of_decide_eq_true hns)
    refine ⟨hnone.symm, h.row_lt row.1, ?_⟩
    intro y token hy hold hobj hcall
    cases y with
    | inl v =>
      obtain ⟨timer, hv, rfl⟩ := Option.map_eq_some_iff.mp hold
      have hmapped := hmap (v, timer) (Table.mem_rows_iff.mpr hv) hobj.symm hcall.symm
      have hcleared : s.timers.armed.get? v = none := by
        obtain rfl := Option.some.inj hstep
        exact Timers.get?_restoreAlarms (List.mem_map_of_mem hrow) hmapped
          (r.spaces.timers.lt_next hv)
      obtain ⟨_, hkept, -⟩ := Option.map_eq_some_iff.mp hy
      cases hcleared.symm.trans hkept
    | inr i =>
      have hpos := spent_pos hold
      have htrue := h.tokens.spent _ _ hold
      rw [← hobj, ← hcall] at htrue
      have hzero : token.spent = 0 := htrue.trans hnone
      omega
  | storage hasCallback a =>
    cases hasCallback with
    | false => exact hquiet rfl rfl
    | true =>
      cases a with
      | write origin o w =>
        refine h.tokens.arm hstep rfl ?_
        intro timer hmem
        obtain ⟨hspent, hlt, hother⟩ :=
          h.arm_new (List.mem_singleton_self (o, w)) hmem
        exact ⟨hspent, hlt, fun y token _ hold _ => hother y token hold⟩
      | transactionSync ws throws =>
        refine h.tokens.arm hstep rfl ?_
        intro timer hmem
        simp only [Namespaces.arms] at hmem
        simp only [noted]
        split at hmem
        · cases hmem
        · next hopen =>
            rw [if_neg hopen]
            obtain ⟨w, hw, htimer⟩ := List.mem_flatMap.mp hmem
            obtain ⟨hspent, hlt, hother⟩ := h.arm_new hw htimer
            exact ⟨hspent, hlt, fun y token _ hold _ => hother y token hold⟩
      | transaction => exact hquiet rfl rfl
      | begins t => exact hquiet rfl rfl
      | settles t outcome => exact hquiet rfl rfl
  | fires u creation =>
    obtain ⟨timer, hu, rfl⟩ := Option.map_eq_some_iff.mp hstep
    have htoken := token_inl hu
    refine h.tokens.invoke hstep (n := timer.retryCount) rfl ?_ ?_ (h.tokens.spent _ _ htoken)
      ?_ ?_
    · simp only [invokes, hu, Option.map_some]
    · exact (Namespaces.fireAlarm_cases _ _ _ _).imp And.left And.left
    · refine Nat.lt_of_lt_of_le (h.tokens.call_lt _ _ htoken) ?_
      exact Nat.le_trans (r.le_noted _) (r.le_calls_after _ _)
    · intro y token hy hold hobj hcall
      -- the timer has fired
      obtain rfl := h.tokens.unique _ _ _ _ htoken hold hobj hcall
      obtain ⟨_, hkept, -⟩ := Option.map_eq_some_iff.mp hy
      have hgone := (r.spaces.timers.armed.get?_erase u u).trans (if_pos rfl)
      have hkept' := hkept
      simp only [after, Namespaces.timers_fireAlarm] at hkept'
      cases hgone.symm.trans hkept'
  | triggerAlarm o creation =>
    have hle := r.le_created o creation
    obtain rfl := Option.some.inj hstep
    refine h.tokens.invoke hstep (n := 0) rfl rfl ?_ (h.fresh o _ hle).symm ?_ ?_
    · exact (Namespaces.fireAlarm_cases _ _ _ _).imp And.left And.left
    · exact Nat.lt_succ_self _
    · intro y token _ hold _
      exact h.new_call hle hold
  | fails i now =>
    obtain ⟨handler, hi, hrunning, heq⟩ := Namespaces.of_fails hstep
    have htoken := token_inr hi hrunning
    refine h.tokens.arm hstep rfl ?_
    intro timer hmem
    simp only [Namespaces.arms, hi] at hmem
    split at hmem
    · next hlt =>
        obtain rfl := List.mem_singleton.mp hmem
        have hcall : (r.noted (.fails i now)).2 handler.obj = r.handlerOf i := by
          simp only [noted, hi, hlt, and_self, if_true]
        have hcalls : (r.noted (.fails i now)).1 = r.calls := by
          simp only [noted, hi]
        show handler.retryCount + 1 = r.invoked handler.obj _ ∧ _ ∧ ∀ y token, _ → _ → _ → _
        simp only [Namespaces.retryTimer, hcall, hcalls]
        refine ⟨h.tokens.spent _ _ htoken, h.tokens.call_lt _ _ htoken, ?_⟩
        intro y token hy hold hobj hsame
        -- the handler has ended
        obtain rfl := h.tokens.unique _ _ _ _ htoken hold hobj hsame
        obtain ⟨handler', hget, hstill⟩ := Option.bind_eq_some_iff.mp hy
        have hended : s.handlers[i]? = some { handler with running := false } := by
          rw [← heq, Namespaces.handlers_retry]
          exact Namespaces.getElem?_ends hi
        obtain rfl := Option.some.inj (hended.symm.trans hget)
        cases hstill
    · cases hmem
  | access | dispose | succeeds | cancelAlarm | deleteInstance => exact hquiet rfl rfl

/-- The rows that a rollback brings back. -/
theorem left_of_restores (h : r.restores) {db : Db} (hopen : r.spaces.conn.opened = some db) :
    Left r.invoked r.savedOf db := by
  intro o t ht
  exact h db hopen (o, t) (Table.mem_rows_iff.mpr ht)

/-- A handler that is invoked has the token of a call that was numbered and is not used up. -/
theorem Budgeted.of_invokes (h : r.Budgeted) {a : AlarmAction}
    (hstep : alarmStep r.spaces a = some s) {o : Obj} {k : ℕ}
    (hinvokes : r.invokes a = some (o, k)) :
    r.invoked o k ≤ maxAlarmRetries ∧ k < (r.after a s).calls := by
  cases a with
  | fires u creation =>
    obtain ⟨timer, hu, -⟩ := Option.map_eq_some_iff.mp hstep
    simp only [invokes, hu, Option.map_some, Option.some.injEq, Prod.mk.injEq] at hinvokes
    obtain ⟨rfl, rfl⟩ := hinvokes
    have htoken := token_inl hu
    constructor
    · have htrue : timer.retryCount = r.invoked timer.obj (r.timerOf u) :=
        h.tokens.spent _ _ htoken
      rw [← htrue]
      exact h.pending u timer hu
    · refine Nat.lt_of_lt_of_le (h.tokens.call_lt _ _ htoken) ?_
      exact Nat.le_trans (r.le_noted _) (r.le_calls_after _ _)
  | triggerAlarm o' creation =>
    simp only [invokes, Option.some.injEq, Prod.mk.injEq] at hinvokes
    obtain ⟨rfl, rfl⟩ := hinvokes
    rw [h.fresh _ _ (r.le_created o' creation)]
    exact ⟨Nat.zero_le _, Nat.lt_succ_self _⟩
  | setClass | access | dispose | storage | succeeds | fails | cancelAlarm | deleteInstance =>
    cases hinvokes

/-- One invocation at most is added, for the call that the step invokes a handler for. -/
theorem invoked_after_cases (r : Retrying) (a : AlarmAction) (s : Namespaces) (o : Obj) (k : ℕ) :
    (r.after a s).invoked o k = r.invoked o k ∨
      r.invokes a = some (o, k) ∧ (r.after a s).invoked o k = r.invoked o k + 1 := by
  simp only [after]
  split
  · next hinvokes => exact .inr ⟨hinvokes.2, rfl⟩
  · exact .inl rfl

/-- What a firing leaves in the rows: those its constructor has written, and none of its object if
its handler is invoked. -/
theorem Budgeted.left_fireAlarm (h : r.Budgeted) {a : AlarmAction} {o : Obj} {k : ℕ}
    (ts : Timers) (retryCount : ℕ) (creation : Creation) (hinvokes : r.invokes a = some (o, k))
    (hrows : r.rowsAfter a = (r.created o creation).2) :
    let t : Namespaces := { r.spaces with timers := ts }
    Left (r.after a (t.fireAlarm o retryCount creation)).invoked (r.rowsAfter a)
      (t.fireAlarm o retryCount creation).conn.db := by
  intro t
  have hwrites : Left r.invoked (r.created o creation).2
      (t.getOrCreateExecutor o creation).1.conn.db := by
    rw [t.db_getOrCreateExecutor]
    exact Left.foldl_run (n := (r.calls, r.rowOf)) h.left h.fresh _
  rw [hrows]
  rcases t.fireAlarm_cases o retryCount creation with ⟨hsame, hdb'⟩ | ⟨-, hdb'⟩
  · have hinvoked : (r.after a (t.fireAlarm o retryCount creation)).invoked = r.invoked := by
      funext o' k'
      simp only [after, hsame]
      rw [if_neg]
      rintro ⟨hlonger, -⟩
      exact Nat.lt_irrefl _ hlonger
    rw [hinvoked, hdb']
    exact hwrites
  · rw [hdb']
    refine hwrites.deleteAlarm ?_
    intro o' hne
    funext k'
    rcases r.invoked_after_cases a (t.fireAlarm o retryCount creation) o' k' with hsame | ⟨hat, -⟩
    · exact hsame
    · rw [hinvokes] at hat
      exact absurd (congrArg Prod.fst (Option.some.inj hat)).symm hne

/-- What a storage action leaves in the rows. -/
theorem Budgeted.left_storage (h : r.Budgeted) {hasCallback : Bool} {a : StorageAction}
    {conn : Connection} (hspared : r.spared (.alarm (.storage hasCallback a)))
    (hconn : storageStep r.spaces.conn a = some conn) :
    Left r.invoked (r.rowsAfter (.storage hasCallback a)) conn.db := by
  cases a with
  | write origin o w =>
    have hrun : Left r.invoked (noteWrite o w (r.calls, r.rowOf)).2
        (w.run o r.spaces.conn.db).1 :=
      Left.run (n := (r.calls, r.rowOf)) h.left h.fresh o w
    cases origin with
    | outside =>
      obtain rfl := Option.some.inj hconn
      rw [Connection.db_write]
      exact hrun
    | inside t =>
      obtain ⟨-, rfl⟩ := Option.ite_some_none_eq_some.mp hconn
      rw [Connection.db_write]
      exact hrun
  | transaction =>
    obtain rfl := Option.some.inj hconn
    exact h.left
  | begins t =>
    obtain ⟨-, rfl⟩ := Option.ite_some_none_eq_some.mp hconn
    simp only [Connection.begins]
    split
    · exact h.left
    · exact h.left
  | settles t outcome =>
    obtain ⟨-, rfl⟩ := Option.ite_some_none_eq_some.mp hconn
    simp only [rowsAfter]
    by_cases hyes : outcome = .resolved
    · rw [if_pos hyes, if_pos (.inl hyes)]
      exact h.left
    · rw [if_neg hyes]
      show Left r.invoked _ (r.spaces.conn.opened.getD r.spaces.conn.db)
      cases hopen : r.spaces.conn.opened with
      | none =>
        rw [if_pos (.inr rfl)]
        exact h.left
      | some db =>
        rw [if_neg]
        · exact left_of_restores (hspared hyes) hopen
        · rintro (hresolved | hnone)
          · exact hyes hresolved
          · cases hnone
  | transactionSync ws throws =>
    obtain rfl := Option.some.inj hconn
    simp only [Connection.transactionSync]
    cases hopen : r.spaces.conn.opened with
    | some db =>
      cases throws with
      | true => exact h.left
      | false =>
        simp only [rowsAfter, noted, hopen, Option.isSome_some, if_true]
        exact h.left
    | none =>
      cases throws with
      | true => exact h.left
      | false =>
        simp only [rowsAfter, noted, hopen, Option.isSome_none, Bool.false_eq_true, if_false]
        exact Left.foldl_run (n := (r.calls, r.rowOf)) h.left h.fresh ws

/-- **Rows have invocations left.** Over one step. -/
theorem Budgeted.left_step (h : r.Budgeted) {a : AlarmAction} (hspared : r.spared (.alarm a))
    (hstep : alarmStep r.spaces a = some s) :
    Left (r.after a s).invoked (r.rowsAfter a) s.conn.db := by
  cases a with
  | fires u creation =>
    obtain ⟨timer, hu, rfl⟩ := Option.map_eq_some_iff.mp hstep
    refine h.left_fireAlarm (k := r.timerOf u) _ timer.retryCount creation ?_ ?_
    · simp only [invokes, hu, Option.map_some]
    · simp only [rowsAfter, noted, hu]
  | triggerAlarm o creation =>
    obtain rfl := Option.some.inj hstep
    exact h.left_fireAlarm _ 0 creation rfl rfl
  | setClass ns =>
    obtain rfl := Option.some.inj hstep
    rw [invoked_after_of_none rfl]
    exact h.left
  | access o creation =>
    obtain rfl := Option.some.inj hstep
    rw [invoked_after_of_none rfl, r.spaces.db_getOrCreateExecutor]
    exact Left.foldl_run (n := (r.calls, r.rowOf)) h.left h.fresh _
  | dispose o =>
    obtain rfl := Option.some.inj hstep
    rw [invoked_after_of_none rfl]
    exact h.left
  | storage hasCallback a =>
    obtain ⟨-, conn, hconn, rfl⟩ := Namespaces.of_storage hstep
    rw [invoked_after_of_none rfl]
    exact h.left_storage hspared hconn
  | succeeds i =>
    obtain ⟨handler, -, rfl⟩ := Namespaces.of_settled hstep
    rw [invoked_after_of_none rfl]
    exact h.left
  | fails i now =>
    obtain ⟨handler, hi, hrunning, rfl⟩ := Namespaces.of_fails hstep
    have htoken := token_inr hi hrunning
    have htrue : handler.retryCount + 1 = r.invoked handler.obj (r.handlerOf i) :=
      h.tokens.spent _ _ htoken
    rw [invoked_after_of_none rfl]
    have hrows : r.rowsAfter (.fails i now) = fun o =>
        if o = handler.obj ∧ handler.retryCount < maxAlarmRetries then r.handlerOf i
        else r.rowOf o := by
      simp only [rowsAfter, noted, hi]
    rw [hrows]
    intro o t ht
    rw [Namespaces.alarm_retry] at ht
    show r.invoked o (if o = handler.obj ∧ handler.retryCount < maxAlarmRetries then
      r.handlerOf i else r.rowOf o) ≤ maxAlarmRetries
    split at ht
    · next hretry =>
        obtain ⟨rfl, hlt⟩ := hretry
        rw [if_pos ⟨rfl, hlt⟩, ← htrue]
        exact hlt
    · next hno =>
        rw [if_neg hno]
        exact h.left o t ht
  | cancelAlarm o =>
    obtain rfl := Option.some.inj hstep
    rw [invoked_after_of_none rfl]
    show Left r.invoked r.rowOf (r.spaces.conn.write true o .deleteAlarm).db
    rw [Connection.db_write]
    exact h.left.deleteAlarm fun _ _ => rfl
  | deleteInstance o =>
    obtain rfl := Option.some.inj hstep
    rw [invoked_after_of_none rfl]
    have hcancelled : Left r.invoked r.rowOf (r.spaces.conn.write true o .deleteAlarm).db := by
      rw [Connection.db_write]
      exact h.left.deleteAlarm fun _ _ => rfl
    simp only [Namespaces.deleteInstance]
    split
    · exact hcancelled
    · show Left r.invoked r.rowOf (Connection.write (Connection.write _ true o .deleteAll) true o
        .deleteAlarm).db
      rw [Connection.db_write, Connection.db_write]
      refine Left.deleteAlarm ?_ fun _ _ => rfl
      exact Left.run (n := (r.calls, r.rowOf)) hcancelled h.fresh o .deleteAll

/-- The call of a row after a step: what was noted, unless the writes are rolled back. -/
theorem rowsAfter_cases (r : Retrying) (a : AlarmAction) (o : Obj) :
    r.rowsAfter a o = (r.noted a).2 o ∨ r.rowsAfter a o = r.rowOf o ∨
      r.rowsAfter a o = r.savedOf o := by
  simp only [rowsAfter]
  split
  · split
    · exact .inr (.inl rfl)
    · exact .inr (.inr rfl)
  · exact .inr (.inl rfl)
  · exact .inl rfl

/-- The calls that are noted were numbered. -/
theorem Budgeted.noted_lt (h : r.Budgeted) {a : AlarmAction}
    (hstep : alarmStep r.spaces a = some s) (o : Obj) : (r.noted a).2 o < (r.noted a).1 := by
  cases a with
  | access o' creation => exact lt_noteWrites h.row_lt _ o
  | triggerAlarm o' creation => exact lt_noteWrites h.row_lt _ o
  | fires u creation =>
    simp only [noted]
    split
    · exact lt_noteWrites h.row_lt _ o
    · exact h.row_lt o
  | storage hasCallback a =>
    cases a with
    | write origin o' w => exact lt_noteWrite h.row_lt o' w o
    | transactionSync ws throws => exact lt_noteWrites h.row_lt _ o
    | transaction => exact h.row_lt o
    | begins t => exact h.row_lt o
    | settles t outcome => exact h.row_lt o
  | fails i now =>
    obtain ⟨handler, hi, hrunning, -⟩ := Namespaces.of_fails hstep
    simp only [noted, hi]
    split
    · exact h.tokens.call_lt _ _ (token_inr hi hrunning)
    · exact h.row_lt o
  | setClass | dispose | succeeds | cancelAlarm | deleteInstance => exact h.row_lt o

/-- **One step.** The budget is kept. -/
theorem Budgeted.after (h : r.Budgeted) {a : AlarmAction} (hspared : r.spared (.alarm a))
    (hstep : alarmStep r.spaces a = some s) : (r.after a s).Budgeted := by
  have hle : (r.noted a).1 ≤ (r.after a s).calls := r.le_calls_after a s
  have hcalls := Nat.le_trans (r.le_noted a) hle
  refine ⟨h.tokens_step hspared hstep, ?_, ?_, h.left_step hspared hstep, ?_, ?_, ?_⟩
  · intro u timer hu
    rcases (Namespaces.grows_of_step hstep).armed u timer hu with hold | ⟨-, hmem⟩
    · exact h.pending u timer hold
    · exact Namespaces.retryCount_le_of_mem_arms hmem
  · intro o k
    rcases r.invoked_after_cases a s o k with hsame | ⟨hinvokes, hmore⟩
    · rw [hsame]
      exact h.bounded o k
    · have := (h.of_invokes hstep hinvokes).1
      omega
  · intro o
    rcases r.rowsAfter_cases a o with hnoted | hrow | hsaved
    · rw [show (r.after a s).rowOf o = (r.noted a).2 o from hnoted]
      exact Nat.lt_of_lt_of_le (h.noted_lt hstep o) hle
    · rw [show (r.after a s).rowOf o = r.rowOf o from hrow]
      exact Nat.lt_of_lt_of_le (h.row_lt o) hcalls
    · rw [show (r.after a s).rowOf o = r.savedOf o from hsaved]
      exact Nat.lt_of_lt_of_le (h.saved_lt o) hcalls
  · intro o
    refine Nat.lt_of_lt_of_le ?_ hcalls
    show r.savedAfter a o < r.calls
    simp only [savedAfter]
    split
    · split
      · exact h.saved_lt o
      · exact h.row_lt o
    · exact h.saved_lt o
  · intro o k hk
    have hbefore := h.fresh o k (Nat.le_trans hcalls hk)
    rcases r.invoked_after_cases a s o k with hsame | ⟨hinvokes, -⟩
    · rw [hsame]
      exact hbefore
    · have := (h.of_invokes hstep hinvokes).2
      omega

theorem Budgeted.step (h : r.Budgeted) {a : ProcessAction} {r' : Retrying} (hspared : r.spared a)
    (hstep : retryStep r a = some r') : r'.Budgeted := by
  cases a with
  | alarm a =>
    obtain ⟨s, hs, rfl⟩ := Option.map_eq_some_iff.mp hstep
    exact h.after hspared hs
  | restart =>
    obtain rfl := Option.some.inj hstep
    refine ⟨tokens_of_empty (fun _ => rfl) rfl, nofun, h.bounded, ?_, ?_, h.saved_lt, h.fresh⟩
    · show Left r.invoked _ (r.spaces.conn.opened.getD r.spaces.conn.db)
      cases hopen : r.spaces.conn.opened with
      | none => exact h.left
      | some db => exact left_of_restores hspared hopen
    · intro o
      show (if _ then r.savedOf else r.rowOf) o < r.calls
      split
      · exact h.saved_lt o
      · exact h.row_lt o

/-! ### The results -/

/-- **Retries are bounded.** Whatever handlers do, and whatever reloads, evictions and restarts
come between: if no reload restores a row as that of a new alarm that was invoked before or has a
timer besides, and no rollback brings back the row of an alarm that is used up, then the handler
is invoked at most seven times for each call, and then the alarm is gone. -/
theorem retries_bounded_throughout (db : Db) (as : List ProcessAction)
    (h : Along retryStep spared (start db) as) : Throughout retryStep Bounded (start db) as :=
  h.throughout (budgeted_start db) (fun _ hr => hr.bounded_of)
    fun _ _ _ hr hspared hstep => hr.step hspared hstep

/-- The object of the runs below. -/
def flaky : Obj := ⟨"Counter", "a"⟩

/-- The object sets an alarm, as the first call. -/
def alarmSet : List ProcessAction :=
  [.alarm (.setClass "Counter"), .alarm (.access flaky Namespaces.quiet),
    .alarm (.storage true (.write .outside flaky (.setAlarm (some 1000))))]

/-- The process restarts before the alarm. Then the handler fails each time. -/
def failingRun : List ProcessAction :=
  alarmSet ++ [.restart, .alarm (.setClass "Counter")] ++
    (List.range 7).flatMap fun i =>
      [.alarm (.fires i Namespaces.quiet), .alarm (.fails i (1000 * i))]

/-- The handler is invoked seven times, and no more. -/
theorem retries_bounded_throughout_failingRun :
    (play retryStep (start .empty) failingRun).any (fun r => r.invoked flaky 1 = 7) = true ∧
      Throughout retryStep Bounded (start .empty) failingRun :=
  ⟨by decide +kernel, retries_bounded_throughout .empty failingRun (by decide +kernel)⟩

/-- The handler fails, and the class is reloaded before its retry, seven times. -/
def reloadedRun : List ProcessAction :=
  alarmSet ++ (List.range 7).flatMap (fun i =>
    [.alarm (.fires (2 * i) Namespaces.quiet), .alarm (.fails i 1000),
      .alarm (.setClass "Counter")]) ++ [.alarm (.fires 14 Namespaces.quiet)]

/-- Each reload makes the retry a new alarm: the handler is invoked eight times for one call. -/
theorem not_retries_bounded : ¬ ∀ r, Reaches retryStep unguarded (start .empty) r → r.Bounded := by
  intro hall
  have hrun : (play (restrict retryStep unguarded) (start .empty) reloadedRun).any
      (fun r => r.invoked flaky 1 = 8 ∧ r.calls = 2) = true := by
    decide +kernel
  obtain ⟨r, hreach, hr⟩ := exists_reaches_of_play hrun
  obtain ⟨hspent, -⟩ := of_decide_eq_true hr
  have hbound := (hall r hreach flaky 1).1
  rw [hspent] at hbound
  exact absurd hbound (by decide)

end Retrying

end Lopata.DurableObject
