import Lopata.DurableObject.Alarm
import Mathlib.Algebra.Order.Ring.Int

/-!
# What a Step Arms

Three pieces of code arm the timer of an alarm: the callback of `setAlarm`, the restoring of rows
when a class is set, and the `catch` of a failed handler. This module says once which timers a
step may add; whatever is said about armed timers follows from that.

## Main results

* `Namespaces.grows_of_step`: a timer that is armed after a step was armed before, or it has a new
  handle and is one of those the step arms.
* `Timers.Of.of_grows`: what is said of the objects of armed timers needs to be said of the new ones
  only.
* `Namespaces.time_le_of_mem_arms_fails`: a retry is armed for at most thirty-two seconds.
-/

namespace Lopata.DurableObject

namespace Timers

/-- What is armed was armed before, or has a new handle and satisfies `P`. -/
structure Grows (P : Timer → Prop) (ts ts' : Timers) : Prop where
  next_le : ts.next ≤ ts'.next
  armed : ∀ u timer, ts'.armed.get? u = some timer →
    ts.armed.get? u = some timer ∨ ts.next ≤ u ∧ P timer

variable {P Q : Timer → Prop} {ts ts' ts'' : Timers}

theorem Grows.refl (P : Timer → Prop) (ts : Timers) : ts.Grows P ts :=
  ⟨Nat.le_refl _, fun _ _ => .inl⟩

theorem Grows.trans (h : ts.Grows P ts') (h' : ts'.Grows P ts'') : ts.Grows P ts'' where
  next_le := Nat.le_trans h.next_le h'.next_le
  armed u timer hu := by
    rcases h'.armed u timer hu with hold | ⟨hnew, hP⟩
    · exact h.armed u timer hold
    · exact .inr ⟨Nat.le_trans h.next_le hnew, hP⟩

/-- A handle that was given out and is free is not armed again. -/
theorem Grows.get?_eq_none (h : ts.Grows P ts') {u : ℕ} (hfree : ts.armed.get? u = none)
    (hlt : u < ts.next) : ts'.armed.get? u = none := by
  cases hu : ts'.armed.get? u with
  | none => rfl
  | some timer =>
    rcases h.armed u timer hu with hold | ⟨hnew, -⟩
    · cases hfree.symm.trans hold
    · omega

/-- What holds of the objects of all armed timers still does if it holds of the new ones. -/
theorem Of.of_grows {q : Obj → Prop} (h : ts.Of q) (hgrows : ts.Grows P ts')
    (hP : ∀ timer, P timer → q timer.obj) : ts'.Of q := by
  intro u timer hu
  rcases hgrows.armed u timer hu with hold | ⟨-, hnew⟩
  · exact h u timer hold
  · exact hP timer hnew

theorem grows_cancel (P : Timer → Prop) (ts : Timers) (o : Obj) : ts.Grows P (ts.cancel o) where
  next_le := Nat.le_of_eq (ts.next_clearTimeout o).symm
  armed u timer hu := by
    have hget := ts.get?_clearTimeout o u
    split at hget
    · cases hu.symm.trans hget
    · exact .inl (hget.symm.trans hu)

theorem grows_expire (P : Timer → Prop) (ts : Timers) (u : ℕ) (o : Obj) :
    ts.Grows P (ts.expire u o) where
  next_le := Nat.le_refl _
  armed v timer hv := by
    have hget : (ts.expire u o).armed.get? v = _ := ts.armed.get?_erase u v
    split at hget
    · cases hv.symm.trans hget
    · exact .inl (hget.symm.trans hv)

theorem grows_setTimeout (ts : Timers) {timer : Timer} (hP : P timer) :
    ts.Grows P (ts.setTimeout timer) where
  next_le := Nat.le_succ _
  armed u timer' hu := by
    rw [get?_setTimeout] at hu
    split at hu
    · next hnew =>
        obtain rfl := Option.some.inj hu
        exact .inr ⟨Nat.le_of_eq hnew.symm, hP⟩
    · exact .inl hu

theorem grows_scheduleAlarmTimer (ts : Timers) {o : Obj} {t : ℤ} (hP : P ⟨o, t, 0⟩) :
    ts.Grows P (ts.scheduleAlarmTimer o t) := by
  rw [scheduleAlarmTimer_eq]
  exact (ts.grows_cancel P o).trans (grows_setTimeout _ hP)

theorem grows_restoreAlarms (ts : Timers) {rows : List (Obj × ℤ)}
    (hP : ∀ row ∈ rows, P ⟨row.1, row.2, 0⟩) : ts.Grows P (ts.restoreAlarms rows) := by
  induction rows generalizing ts with
  | nil => exact .refl P ts
  | cons row rows ih =>
    obtain ⟨hrow, hrows⟩ := List.forall_mem_cons.mp hP
    exact (ts.grows_scheduleAlarmTimer hrow).trans (ih _ hrows)

end Timers

/-- The timers the callback of a write arms. -/
def Write.arms (w : Write) (o : Obj) : List Timer :=
  match w.onAlarmSet with
  | some (some time) => [⟨o, time, 0⟩]
  | some none | none => []

theorem Write.of_mem_arms (w : Write) {o : Obj} {timer : Timer} (h : timer ∈ w.arms o) :
    timer.obj = o ∧ timer.retryCount = 0 := by
  simp only [arms] at h
  split at h
  · obtain rfl := List.mem_singleton.mp h
    exact ⟨rfl, rfl⟩
  · cases h
  · cases h

namespace Timers

variable {P : Timer → Prop} {ts : Timers}

theorem grows_notify (ts : Timers) {o : Obj} {w : Write} (hP : ∀ timer ∈ w.arms o, P timer) :
    ts.Grows P (ts.notify o w) := by
  simp only [notify, Write.arms] at hP ⊢
  cases hset : w.onAlarmSet with
  | none => exact .refl P ts
  | some time =>
    cases time with
    | none => exact ts.grows_cancel P o
    | some t =>
      rw [hset] at hP
      exact ts.grows_scheduleAlarmTimer (hP _ (List.mem_singleton_self _))

theorem grows_foldl_notify (ts : Timers) {ws : List (Obj × Write)}
    (hP : ∀ w ∈ ws, ∀ timer ∈ w.2.arms w.1, P timer) :
    ts.Grows P (ws.foldl (fun ts w => ts.notify w.1 w.2) ts) := by
  induction ws generalizing ts with
  | nil => exact .refl P ts
  | cons w ws ih =>
    obtain ⟨hw, hws⟩ := List.forall_mem_cons.mp hP
    exact (ts.grows_notify hw).trans (ih _ hws)

/-! ### New timers and the map -/

/-- The timers with handles from `n` on are in the map. -/
def Mapped (ts : Timers) (n : ℕ) : Prop :=
  ∀ u timer, n ≤ u → ts.armed.get? u = some timer → ts.alarmTimers timer.obj = some u

theorem mapped_next (ts : Timers) : ts.Mapped ts.next := by
  intro u timer hle hu
  cases (ts.fresh u hle).symm.trans hu

theorem Mapped.cancel {n : ℕ} (h : ts.Mapped n) (o : Obj) : (ts.cancel o).Mapped n := by
  intro u timer hle hu
  have hget := ts.get?_clearTimeout o u
  have hmap : (ts.cancel o).alarmTimers timer.obj =
      if timer.obj = o then none else ts.alarmTimers timer.obj := by
    simp [Timers.cancel, forget]
  split at hget
  · cases hu.symm.trans hget
  · next hother =>
      have hold := h u timer hle (hget.symm.trans hu)
      rw [hmap, if_neg]
      · exact hold
      · rintro rfl
        exact hother hold

theorem Mapped.scheduleAlarmTimer {n : ℕ} (h : ts.Mapped n) (o : Obj) (t : ℤ) :
    (ts.scheduleAlarmTimer o t).Mapped n := by
  rw [scheduleAlarmTimer_eq]
  have hcancel := h.cancel o
  intro u timer hle hu
  rw [get?_setTimeout] at hu
  show (if timer.obj = o then some (ts.cancel o).next else (ts.cancel o).alarmTimers timer.obj) = _
  split at hu
  · next hnew =>
      obtain rfl := Option.some.inj hu
      rw [if_pos rfl, hnew]
  · have hold := hcancel u timer hle hu
    rw [if_neg]
    · exact hold
    · rintro rfl
      simp [Timers.cancel, forget] at hold

theorem Mapped.notify {n : ℕ} (h : ts.Mapped n) (o : Obj) (w : Write) :
    (ts.notify o w).Mapped n := by
  simp only [Timers.notify]
  split
  · exact h
  · next time _ =>
      cases time with
      | none => exact h.cancel o
      | some t => exact h.scheduleAlarmTimer o t

theorem Mapped.foldl_notify {n : ℕ} (h : ts.Mapped n) (ws : List (Obj × Write)) :
    (ws.foldl (fun ts w => ts.notify w.1 w.2) ts).Mapped n := by
  induction ws generalizing ts with
  | nil => exact h
  | cons w ws ih => exact ih (h.notify w.1 w.2)

theorem Mapped.restoreAlarms {n : ℕ} (h : ts.Mapped n) (rows : List (Obj × ℤ)) :
    (ts.restoreAlarms rows).Mapped n := by
  induction rows generalizing ts with
  | nil => exact h
  | cons row rows ih => exact ih (h.scheduleAlarmTimer row.1 row.2)

/-- Restoring a row clears the timer the map holds for its object. -/
theorem get?_restoreAlarms {rows : List (Obj × ℤ)} {o : Obj} (ho : o ∈ rows.map Prod.fst) {u : ℕ}
    (hmap : ts.alarmTimers o = some u) (hlt : u < ts.next) :
    (ts.restoreAlarms rows).armed.get? u = none := by
  induction rows generalizing ts with
  | nil => cases ho
  | cons row rows ih =>
    have hschedule := ts.grows_scheduleAlarmTimer (P := fun _ => True) (o := row.1) (t := row.2)
      trivial
    have hlt' := Nat.lt_of_lt_of_le hlt hschedule.next_le
    by_cases heq : o = row.1
    · subst heq
      have hcleared : (ts.cancel row.1).armed.get? u = none :=
        (ts.get?_clearTimeout row.1 u).trans (if_pos hmap)
      have hfree : (ts.scheduleAlarmTimer row.1 row.2).armed.get? u = none := by
        rw [scheduleAlarmTimer_eq, get?_setTimeout, if_neg, hcleared]
        have hnext : (ts.cancel row.1).next = ts.next := ts.next_clearTimeout row.1
        omega
      have hrest : (ts.scheduleAlarmTimer row.1 row.2).Grows (fun _ => True)
          ((ts.scheduleAlarmTimer row.1 row.2).restoreAlarms rows) :=
        grows_restoreAlarms _ fun _ _ => trivial
      exact hrest.get?_eq_none hfree hlt'
    · rcases List.mem_cons.mp ho with hfirst | hrest
      · exact absurd hfirst heq
      · refine ih hrest ?_ hlt'
        show (ts.scheduleAlarmTimer row.1 row.2).alarmTimers o = some u
        rw [scheduleAlarmTimer_eq]
        simp [setTimeout, Timers.cancel, forget, heq, hmap]

end Timers

namespace Namespaces

variable {s s' : Namespaces}

/-- The timer of the retry of a failed handler. -/
def retryTimer (handler : Handler) (now : ℤ) : Timer :=
  ⟨handler.obj, now + 2 ^ handler.retryCount * 1000, handler.retryCount + 1⟩

/-- The timers a step arms. Some of them it may clear again. -/
def arms (s : Namespaces) : AlarmAction → List Timer
  | .setClass ns =>
      (s.conn.db.alarms.rows.filter fun row => row.1.doNamespace = ns).map fun row =>
        ⟨row.1, row.2, 0⟩
  | .storage true (.write _ o w) => w.arms o
  | .storage true (.transactionSync ws _) =>
      if s.conn.opened.isSome then [] else ws.flatMap fun w => w.2.arms w.1
  | .fails h now =>
      match s.handlers[h]? with
      | some handler =>
          if handler.retryCount < maxAlarmRetries then [retryTimer handler now] else []
      | none => []
  | .storage true .transaction | .storage true (.begins _) | .storage true (.settles _ _)
  | .storage false _ | .access _ _ | .dispose _ | .fires _ _ | .triggerAlarm _ _ | .succeeds _
  | .cancelAlarm _ | .deleteInstance _ => []

theorem timers_getOrCreateExecutor (s : Namespaces) (o : Obj) (creation : Creation) :
    (s.getOrCreateExecutor o creation).1.timers = s.timers := by
  rcases s.getOrCreateExecutor_cases o creation with
    ⟨-, hget⟩ | ⟨-, -, hget⟩ | ⟨-, -, hget⟩ | ⟨-, -, hget⟩ <;> rw [hget] <;> rfl

/-- `_fireAlarm` leaves the timers until its handler fails. -/
theorem timers_fireAlarm (s : Namespaces) (o : Obj) (retryCount : ℕ) (creation : Creation) :
    (s.fireAlarm o retryCount creation).timers = s.timers := by
  rw [← s.timers_getOrCreateExecutor o creation]
  simp only [fireAlarm]
  split <;> rfl

/-- The callbacks of a storage action. -/
theorem grows_callbacks (s : Namespaces) (a : StorageAction) :
    s.timers.Grows (· ∈ s.arms (.storage true a)) (s.timers.callbacks s.conn a) := by
  cases a with
  | write origin o w => exact s.timers.grows_notify fun _ hmem => hmem
  | transactionSync ws throws =>
    simp only [Timers.callbacks, arms]
    cases s.conn.opened with
    | some db => exact .refl _ _
    | none =>
      refine s.timers.grows_foldl_notify ?_
      intro w hw timer htimer
      exact List.mem_flatMap.mpr ⟨w, hw, htimer⟩
  | transaction => exact .refl _ _
  | begins t => exact .refl _ _
  | settles t outcome => exact .refl _ _

/-- **What a step arms.** A timer that is armed after the step was armed before, or it is one of
those the step arms, with a new handle. -/
theorem grows_of_step {a : AlarmAction} (hstep : alarmStep s a = some s') :
    s.timers.Grows (· ∈ s.arms a) s'.timers := by
  cases a with
  | setClass ns =>
    obtain rfl := Option.some.inj hstep
    refine s.timers.grows_restoreAlarms ?_
    intro row hrow
    exact List.mem_map_of_mem (f := fun row : Obj × ℤ => (⟨row.1, row.2, 0⟩ : Timer)) hrow
  | access o creation =>
    obtain rfl := Option.some.inj hstep
    rw [timers_getOrCreateExecutor]
    exact .refl _ _
  | dispose o =>
    obtain rfl := Option.some.inj hstep
    exact .refl _ _
  | storage hasCallback a =>
    obtain ⟨-, conn, -, rfl⟩ := of_storage hstep
    cases hasCallback with
    | true => exact s.grows_callbacks a
    | false => exact .refl _ _
  | fires u creation =>
    obtain ⟨timer, -, rfl⟩ := Option.map_eq_some_iff.mp hstep
    rw [timers_fireAlarm]
    exact s.timers.grows_expire _ u timer.obj
  | triggerAlarm o creation =>
    obtain rfl := Option.some.inj hstep
    rw [timers_fireAlarm]
    exact s.timers.grows_cancel _ o
  | succeeds i =>
    obtain ⟨handler, -, rfl⟩ := of_settled hstep
    exact .refl _ _
  | fails i now =>
    obtain ⟨handler, hhandler, rfl⟩ := of_settled hstep
    simp only [retry]
    split
    · next hlt =>
        refine s.timers.grows_setTimeout ?_
        simp only [arms, hhandler, if_pos hlt]
        exact List.mem_singleton_self _
    · exact .refl _ _
  | cancelAlarm o =>
    obtain rfl := Option.some.inj hstep
    exact s.timers.grows_cancel _ o
  | deleteInstance o =>
    obtain rfl := Option.some.inj hstep
    simp only [Namespaces.deleteInstance]
    split
    · exact s.timers.grows_cancel _ o
    · exact s.timers.grows_cancel _ o

/-- The new timers of a step are in the map. -/
theorem mapped_of_step {a : AlarmAction} (hstep : alarmStep s a = some s') :
    s'.timers.Mapped s.timers.next := by
  have hnone : s.arms a = [] → s'.timers.Mapped s.timers.next := by
    intro hnil u timer hle hu
    rcases (grows_of_step hstep).armed u timer hu with hold | ⟨-, hmem⟩
    · cases (s.timers.fresh u hle).symm.trans hold
    · rw [hnil] at hmem
      cases hmem
  cases a with
  | setClass ns =>
    obtain rfl := Option.some.inj hstep
    exact s.timers.mapped_next.restoreAlarms _
  | storage hasCallback a =>
    cases hasCallback with
    | false => exact hnone rfl
    | true =>
      obtain ⟨-, conn, -, rfl⟩ := of_storage hstep
      cases a with
      | write origin o w => exact s.timers.mapped_next.notify o w
      | transactionSync ws throws =>
        simp only [Timers.callbacks, if_true]
        split
        · exact s.timers.mapped_next
        · exact s.timers.mapped_next.foldl_notify ws
      | transaction => exact s.timers.mapped_next
      | begins t => exact s.timers.mapped_next
      | settles t outcome => exact s.timers.mapped_next
  | fails i now =>
    obtain ⟨handler, -, rfl⟩ := of_settled hstep
    simp only [retry]
    split
    · intro u timer hle hu
      have hu' : (s.timers.setTimeout _).armed.get? u = some timer := hu
      rw [Timers.get?_setTimeout] at hu'
      split at hu'
      · next hnew =>
          obtain rfl := Option.some.inj hu'
          exact (if_pos rfl).trans (congrArg some hnew.symm)
      · cases (s.timers.fresh u hle).symm.trans hu'
    · exact s.timers.mapped_next
  | access | dispose | fires | triggerAlarm | succeeds | cancelAlarm | deleteInstance =>
    exact hnone rfl

/-- What the code of an object arms is no retry. -/
theorem retryCount_of_mem_arms_storage {hasCallback : Bool} {a : StorageAction} {timer : Timer}
    (h : timer ∈ s.arms (.storage hasCallback a)) : timer.retryCount = 0 := by
  cases hasCallback with
  | false => cases h
  | true =>
    cases a with
    | write origin o w => exact (w.of_mem_arms h).2
    | transactionSync ws throws =>
      simp only [arms] at h
      split at h
      · cases h
      · obtain ⟨w, -, htimer⟩ := List.mem_flatMap.mp h
        exact (w.2.of_mem_arms htimer).2
    | transaction => cases h
    | begins t => cases h
    | settles t outcome => cases h

/-- No timer is armed for more than the last retry. -/
theorem retryCount_le_of_mem_arms {a : AlarmAction} {timer : Timer} (h : timer ∈ s.arms a) :
    timer.retryCount ≤ maxAlarmRetries := by
  cases a with
  | setClass ns =>
    obtain ⟨row, -, rfl⟩ := List.mem_map.mp h
    exact Nat.zero_le _
  | storage hasCallback a =>
    rw [retryCount_of_mem_arms_storage h]
    exact Nat.zero_le _
  | fails i now =>
    simp only [arms] at h
    split at h
    · split at h
      · next hlt =>
          obtain rfl := List.mem_singleton.mp h
          exact hlt
      · cases h
    · cases h
  | access | dispose | fires | triggerAlarm | succeeds | cancelAlarm | deleteInstance => cases h

/-- **Retries are near.** The timer of a retry is armed for at most thirty-two seconds. -/
theorem time_le_of_mem_arms_fails {i : ℕ} {now : ℤ} {timer : Timer}
    (h : timer ∈ s.arms (.fails i now)) : timer.time ≤ now + 32000 := by
  simp only [arms] at h
  split at h
  · next handler hhandler =>
      split at h
      · next hlt =>
          obtain rfl := List.mem_singleton.mp h
          have hpow : (2 : ℤ) ^ handler.retryCount ≤ 2 ^ 5 :=
            pow_le_pow_right₀ (by decide) (Nat.le_of_lt_succ hlt)
          simp only [retryTimer]
          omega
      · cases h
  · cases h

/-- The process stops and is started again: a transaction that was open is rolled back, and
nothing is left of what was in memory. -/
def restart (s : Namespaces) : Namespaces := .init (s.conn.opened.getD s.conn.db)

end Namespaces

/-- What happens to the namespaces or to their process. -/
inductive ProcessAction
  | alarm (a : AlarmAction)
  | restart
  deriving DecidableEq, Repr

end Lopata.DurableObject
