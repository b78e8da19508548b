import Lopata.Workflow.References

/-!
# Superseded Executions

`restart` aborts the registered execution and starts a new one under the same instance id.
The old execution still runs until its callbacks settle and its `run()` rejects, and then
writes where the new one reads: a callback that returns is cached, one that throws is
recorded as an attempt, a delivered event is recorded, and the end stores an error and drops
the registrations of the instance.

An execution is *busy* while it has not ended, or while it is aborted and still has a
callback running or an event to record. If no instance is restarted while an execution of it
is busy, superseded executions are inert.

## Main results

* `not_sameView`: a superseded callback that returns is cached for the new execution.
* `sameView_of_superseded`: in the runs that never restart a busy instance, no step of a
  superseded execution changes anything of the instance, and a complete row has no error.
-/

namespace Lopata.Workflow

variable {cfg : Config} {w w' : World} {a : Action} {o : Op} {g : Seg}

/-! ### What a superseded execution may not change -/

/-- The execution is aborted and a newer one of its instance has been started. -/
def Executions.superseded (e : Executions) (c : ℕ) (id : String) : Prop :=
  e.aborted c = true ∧ (∃ r, e.runs.get? c = some r ∧ r.instanceId = id) ∧
    ∃ c' r', c < c' ∧ e.runs.get? c' = some r' ∧ r'.instanceId = id

/-- The execution whose code a segment is. -/
def Op.run? (w : World) : Op → Option ℕ
  | .call c _ | .runSettles c _ | .runEnds c => some c
  | o => o.call?.bind fun k => (w.mem.calls.get? k).map Call.run

/-- Two states agree on all that belongs to an instance. -/
structure SameView (id : String) (w w' : World) : Prop where
  row : w'.db.instances.get? id = w.db.instances.get? id
  steps : ∀ name, w'.db.steps.get? (id, name) = w.db.steps.get? (id, name)
  attempts : ∀ name, w'.db.attempts.get? (id, name) = w.db.attempts.get? (id, name)
  controller : w'.mem.abortControllers id = w.mem.abortControllers id
  waiter : ∀ ty, w'.mem.waiter id ty = w.mem.waiter id ty
  sleeper : w'.mem.sleepResolvers id = w.mem.sleepResolvers id

/-! ### Busy executions -/

/-- The call will write to the database of its instance when it continues. -/
def Suspension.acting : Suspension → Bool
  | .callback .. | .delivered .. => true
  | _ => false

/-- The execution has not ended, or it is aborted and has a call that will still write. -/
def World.busy (w : World) (c : ℕ) (id : String) : Prop :=
  (∃ r, w.mem.runs.get? c = some r ∧ r.instanceId = id ∧ r.phase.unended = true) ∨
    (w.mem.aborted c = true ∧ ∃ k x, w.mem.calls.get? k = some x ∧ x.run = c ∧
      x.instanceId = id ∧ x.susp.acting = true)

/-- Some execution of the instance is busy. -/
def World.hasBusy (w : World) (id : String) : Bool :=
  (w.mem.runs.rows.any fun p => p.2.instanceId = id && p.2.phase.unended) ||
    w.mem.calls.rows.any fun p =>
      p.2.instanceId = id && w.mem.aborted p.2.run && p.2.susp.acting

/-- The step to restart from, if one is named, is recorded. -/
def restartFinds (db : Db) (id : String) (fromStep : Option String) : Bool :=
  (fromStep.filter (· ≠ "")).all fun step => (db.steps.get? (id, step)).isSome

/-- The step restarts an instance one of whose executions is busy. -/
def restartsBusy (w : World) : Action → Bool
  | .op (.restart id fromStep) =>
      (w.db.instances.get? id).isSome && restartFinds w.db id fromStep && w.hasBusy id
  | _ => false

theorem World.hasBusy_iff {id : String} : w.hasBusy id = true ↔ ∃ c, w.busy c id := by
  simp only [hasBusy, busy, Bool.or_eq_true, List.any_eq_true, Prod.exists, Table.mem_rows_iff,
    Bool.and_eq_true, decide_eq_true_eq]
  constructor
  · rintro (⟨c, r, hr, hid, hun⟩ | ⟨k, x, hx, ⟨hid, hab⟩, hact⟩)
    · exact ⟨c, Or.inl ⟨r, hr, hid, hun⟩⟩
    · exact ⟨x.run, Or.inr ⟨hab, k, x, hx, rfl, hid, hact⟩⟩
  · rintro ⟨c, ⟨r, hr, hid, hun⟩ | ⟨hab, k, x, hx, rfl, hid, hact⟩⟩
    · exact Or.inl ⟨c, r, hr, hid, hun⟩
    · exact Or.inr ⟨k, x, hx, ⟨hid, hab⟩, hact⟩

theorem restartFinds_of_found {db : Db} {id : String} {fromStep : Option String}
    (h : ∀ step, fromStep = some step → step ≠ "" → db.steps.get? (id, step) ≠ none) :
    restartFinds db id fromStep = true := by
  simp only [restartFinds]
  cases hf : fromStep.filter (fun s => decide (s ≠ "")) with
  | none => rfl
  | some step =>
    obtain ⟨rfl, hne⟩ := Option.filter_eq_some_iff.mp hf
    exact Option.isSome_iff_ne_none.mpr (h step rfl (of_decide_eq_true hne))

/-! ### Where the error column of a row comes from -/

/-- A status under which a row has no error. -/
def Status.quiet : Status → Bool
  | .queued | .complete => true
  | _ => false

/-- Where a row and its error come from. -/
inductive RowFrom (w : World) (o : Op) (g : Seg) (id : String) (row' : InstanceRow) : Prop
  /-- The error was there. The status became neither `queued` nor `complete`, and if an
  execution of the instance was started the row was queued. -/
  | kept {row : InstanceRow} (hrow : w.db.instances.get? id = some row)
      (herr : row'.error = row.error)
      (hquiet : row'.status.quiet = true → row.status = row'.status)
      (hnew : ∀ r, g.mem.runs.get? w.mem.nextController = some r → r.instanceId = id →
        row.status = .queued)
  /-- The row is new or restarted. -/
  | cleared (herr : row'.error = none)
  /-- An execution of the instance ended. -/
  | ended {c : ℕ} {r : Run} {outcome : Outcome} {row : InstanceRow} (ho : o = .runEnds c)
      (hr : w.mem.runs.get? c = some r) (hphase : r.phase = .settled outcome)
      (hid : r.instanceId = id) (hrow : w.db.instances.get? id = some row)
      (herr : row'.error = row.error ∨ row'.status.quiet = false ∨ row'.status = row.status)

theorem get?_execAll_of_pointwise {db : Db} {ss : List Stmt} {id : String}
    (h : ∀ s ∈ ss, ∀ db, (exec db s).instances.get? id = db.instances.get? id) :
    (execAll db ss).instances.get? id = db.instances.get? id := by
  induction ss generalizing db with
  | nil => rfl
  | cons s ss ih =>
    rw [execAll_cons, ih fun s' hs' => h s' (List.mem_cons_of_mem s hs')]
    exact h s List.mem_cons_self db

/-- The end of an execution touches no other row. -/
theorem get?_endStmts_of_ne {db : Db} {aborted : Bool} {id id' : String} {now : Millis}
    {outcome : Outcome} (hne : id' ≠ id) :
    (execAll db (endStmts aborted id now outcome)).instances.get? id' =
      db.instances.get? id' := by
  refine get?_execAll_of_pointwise ?_
  intro s hs db
  rcases outcome with (_ | _) | _ <;> cases aborted <;>
    simp only [endStmts, Bool.false_eq_true, if_true, if_false, List.mem_cons, List.not_mem_nil,
      or_false] at hs
  all_goals first
    | rcases hs with rfl | rfl
      · exact Table.get?_modify_of_ne _ _ hne
      · rfl
    | subst hs
      exact Table.get?_modify_of_ne _ _ hne

/-- The row of the instance after the end of its execution. -/
theorem get?_endStmts_self {db : Db} {aborted : Bool} {id : String} {now : Millis}
    {outcome : Outcome} {row' : InstanceRow}
    (h : (execAll db (endStmts aborted id now outcome)).instances.get? id = some row') :
    ∃ row, db.instances.get? id = some row ∧
      (row'.error = row.error ∨ row'.status.quiet = false ∨ row'.status = row.status) := by
  rcases outcome with (_ | _) | _ <;> cases aborted <;>
    simp only [endStmts, Bool.false_eq_true, if_true, if_false, execAll_cons, execAll_nil, exec,
      Table.get?_modify_self] at h
  case returned.error.false | threw.false =>
    obtain ⟨row, hrow, rfl⟩ := Option.map_eq_some_iff.mp h
    exact ⟨row, hrow, Or.inr (Or.inl rfl)⟩
  case returned.ok.false =>
    obtain ⟨row, hrow, rfl⟩ := Option.map_eq_some_iff.mp h
    exact ⟨row, hrow, Or.inl rfl⟩
  case threw.true =>
    obtain ⟨row, hrow, rfl⟩ := Option.map_eq_some_iff.mp h
    exact ⟨row, hrow, Or.inr (Or.inr rfl)⟩
  all_goals exact ⟨row', h, Or.inl rfl⟩

/-- A row under an update that keeps errors and sets no quiet status. -/
theorem row_of_modify {db : Db} {id id' : String} {f : InstanceRow → InstanceRow}
    {row' : InstanceRow} (h : (db.instances.modify id' f).get? id = some row')
    (hf : ∀ r, (f r).error = r.error ∧ ((f r).status.quiet = true → r.status = (f r).status)) :
    ∃ row, db.instances.get? id = some row ∧ row'.error = row.error ∧
      (row'.status.quiet = true → row.status = row'.status) := by
  rw [Table.get?_modify] at h
  split at h
  · obtain ⟨row, hrow, rfl⟩ := Option.map_eq_some_iff.mp h
    exact ⟨row, hrow, hf row⟩
  · exact ⟨row', h, rfl, fun _ => rfl⟩

theorem row_of_cleanup {db : Db} {now : Millis} {id : String} {row' : InstanceRow}
    (h : (execAll db (cleanupRetentionExpired cfg db now)).instances.get? id = some row') :
    db.instances.get? id = some row' := by
  rcases get?_cleanup cfg db now id with heq | ⟨r, -, -, hnone⟩
  · exact heq ▸ h
  · rw [hnone] at h
    cases h

/-- The statuses the handle writes are not quiet. -/
theorem row_of_setStatusFrom {db : Db} {id id' : String} {s : Status} {guard : Status → Bool}
    {now : Millis} {row' : InstanceRow} (hs : s.quiet = false)
    (h : (exec db (.setStatusFrom id' s guard now)).instances.get? id = some row') :
    ∃ row, db.instances.get? id = some row ∧ row'.error = row.error ∧
      (row'.status.quiet = true → row.status = row'.status) := by
  refine row_of_modify h fun r => ?_
  cases hguard : guard r.status with
  | true =>
    refine ⟨rfl, fun hq => ?_⟩
    simp only [if_true] at hq
    cases hs.symm.trans hq
  | false => exact ⟨rfl, fun _ => rfl⟩

/-- **Inversion of the rows.** -/
theorem rowFrom_of_segment (hf : w.mem.toExecutions.Fresh) (hg : segment cfg w o = some g)
    {id : String} {row' : InstanceRow}
    (hrow' : (execAll w.db g.stmts).instances.get? id = some row') : RowFrom w o g id row' := by
  -- Where the executions are the same, none was started.
  have hnone : ∀ {row : InstanceRow}, g.mem.runs = w.mem.runs →
      ∀ r, g.mem.runs.get? w.mem.nextController = some r → r.instanceId = id →
        row.status = .queued := by
    intro row hruns r hr
    rw [hruns, hf.run_next] at hr
    cases hr
  by_cases hstep : o.isStepOp = true
  · obtain ⟨hexecs, hstmts⟩ := segment_stepOp hstep hg
    have hruns : g.mem.runs = w.mem.runs := congrArg Executions.runs hexecs
    have hwoken : ∃ id', WokenAt id' w.db (execAll w.db g.stmts) := by
      cases hw : wakes cfg w o with
      | none =>
        rw [hw] at hstmts
        refine ⟨id, fun id' => Or.inl ?_⟩
        rw [execAll_instances hstmts]
      | some id' =>
        rw [hw] at hstmts
        exact ⟨id', WokenAt.execAll hstmts⟩
    obtain ⟨id', hwoken⟩ := hwoken
    rcases hwoken id with hkeep | ⟨-, r, r', hr, hr', s, now, hact, rfl⟩
    · exact .kept (hkeep ▸ hrow') rfl (fun _ => rfl) (hnone hruns)
    · obtain rfl := Option.some.inj (hr'.symm.trans hrow')
      refine .kept hr rfl (fun hq => ?_) (hnone hruns)
      have hq : s.quiet = true := hq
      cases s <;> simp_all [Status.quiet, Status.active]
  · cases o with
    | create id? params =>
      obtain rfl := Option.some.inj hg
      rcases create_cases cfg w id? params with
        ⟨-, hstmts, hexecs⟩ | ⟨id', row, -, -, herr, -, -, hstmts, hcase⟩
      · rw [hstmts] at hrow'
        exact .kept (row_of_cleanup hrow') rfl (fun _ => rfl)
          (hnone (congrArg Executions.runs hexecs))
      · rw [hstmts, execAll_append, execAll_cons, execAll_nil] at hrow'
        simp only [exec, Table.get?_insert] at hrow'
        split at hrow'
        · obtain rfl := Option.some.inj hrow'
          exact .cleared herr
        · next hne =>
            refine .kept (row_of_cleanup hrow') rfl (fun _ => rfl) ?_
            intro r hr hid
            rcases hcase with ⟨-, -, hexecs⟩ | ⟨-, -, hexecs⟩
            · rw [hexecs] at hr
              cases hr.symm.trans hf.run_next
            · rw [hexecs, Executions.launch, Table.get?_insert_self, Option.some.injEq] at hr
              subst hr
              exact absurd hid.symm hne
    | pause id' =>
      obtain rfl := Option.some.inj hg
      obtain ⟨row, hrow, herr, hquiet⟩ := row_of_setStatusFrom (by rfl) hrow'
      exact .kept hrow herr hquiet (hnone rfl)
    | resume id' =>
      obtain rfl := Option.some.inj hg
      have hs : (resumedStatus w.mem id').quiet = false := by
        have hact := resumedStatus_active w.mem id'
        cases hs : resumedStatus w.mem id' <;> simp_all [Status.quiet, Status.active]
      have hrow' : (exec w.db (.setStatusFrom id' (resumedStatus w.mem id')
        (fun s => s = .paused) w.clock)).instances.get? id = some row' := hrow'
      obtain ⟨row, hrow, herr, hquiet⟩ := row_of_setStatusFrom hs hrow'
      exact .kept hrow herr hquiet (hnone rfl)
    | terminate id' =>
      obtain rfl := Option.some.inj hg
      obtain ⟨row, hrow, herr, hquiet⟩ := row_of_setStatusFrom (by rfl) hrow'
      refine .kept hrow herr hquiet (hnone ?_)
      exact (congrArg Executions.runs (Memory.abortRegistered_toExecutions w.mem id')).trans
        Executions.runs_abortRegistered
    | restart id' fromStep =>
      obtain rfl := Option.some.inj hg
      have habort : (w.mem.abortRegistered id').runs = w.mem.runs :=
        (congrArg Executions.runs (Memory.abortRegistered_toExecutions w.mem id')).trans
          Executions.runs_abortRegistered
      rcases restart_cases w id' fromStep with ⟨-, hseg⟩ | ⟨row, -, hcase⟩
      · rw [hseg] at hrow' ⊢
        exact .kept hrow' rfl (fun _ => rfl) fun r hr => by
          cases hr.symm.trans hf.run_next
      · rcases hcase with ⟨step, -, -, -, hstmts, hmem⟩ | ⟨s, hs, -, hstmts, hmem⟩
        · rw [hstmts] at hrow'
          refine .kept hrow' rfl (fun _ => rfl) (hnone ?_)
          rw [hmem]
          exact habort
        · have hkeep : s.keepsInstances = true := by
            rcases hs with rfl | ⟨t, rfl⟩ <;> rfl
          have hrows : (exec (exec w.db s) (.deleteAttempts id')).instances =
              w.db.instances := by
            rw [exec_instances rfl, exec_instances hkeep]
          rw [hstmts] at hrow'
          change ((exec (exec w.db s) (.deleteAttempts id')).instances.modify id' _).get? id =
            some row' at hrow'
          rw [hrows, Table.get?_modify] at hrow'
          split at hrow'
          · obtain ⟨row₀, -, rfl⟩ := Option.map_eq_some_iff.mp hrow'
            exact .cleared rfl
          · next hne =>
              refine .kept hrow' rfl (fun _ => rfl) ?_
              intro r hr hid
              rw [hmem] at hr
              simp only [Memory.launch, Executions.launch, habort, Table.get?_insert] at hr
              split at hr
              · obtain rfl := Option.some.inj hr
                exact absurd hid.symm hne
              · cases hr.symm.trans hf.run_next
    | runSettles c outcome =>
      obtain ⟨r, hr, hg⟩ := Option.bind_eq_some_iff.mp hg
      split at hg
      · obtain rfl := Option.some.inj hg
        refine .kept hrow' rfl (fun _ => rfl) ?_
        intro r' hr'
        simp only [Executions.setPhase, Table.get?_modify, hf.run_next] at hr'
        split at hr' <;> cases hr'
      · cases hg
    | runEnds c =>
      obtain ⟨r, hr, hg⟩ := Option.bind_eq_some_iff.mp hg
      split at hg
      · next outcome hphase =>
          obtain rfl := Option.some.inj hg
          have hfin : (w.mem.finish c r.instanceId).runs.get? w.mem.nextController = none := by
            simp only [Memory.finish, Executions.unregister, Executions.setPhase,
              Table.get?_modify, hf.run_next]
            split <;> rfl
          rcases executeEnd_cases w c r outcome with
            ⟨-, hstmts, hmem⟩ | ⟨q, row, hq, hqueued, -, hstmts, hmem⟩
          · rw [hstmts] at hrow'
            by_cases hid : r.instanceId = id
            · subst hid
              obtain ⟨row, hrow, herr⟩ := get?_endStmts_self hrow'
              exact .ended rfl hr hphase rfl hrow herr
            · rw [get?_endStmts_of_ne (Ne.symm hid)] at hrow'
              refine .kept hrow' rfl (fun _ => rfl) ?_
              intro r' hr'
              rw [hmem, hfin] at hr'
              cases hr'
          · rw [hstmts, execAll_append, execAll_cons, execAll_nil] at hrow'
            obtain ⟨row₀, hrow₀, herr, hquiet⟩ := row_of_modify hrow' fun r =>
              ⟨rfl, fun hq => by cases hq⟩
            by_cases hid : r.instanceId = id
            · subst hid
              obtain ⟨row₁, hrow₁, herr₁⟩ := get?_endStmts_self hrow₀
              refine .ended rfl hr hphase rfl hrow₁ ?_
              cases hq' : row'.status.quiet with
              | false => exact Or.inr (Or.inl rfl)
              | true =>
                rw [herr, ← hquiet hq']
                rcases herr₁ with h | h | h
                · exact Or.inl h
                · rw [hquiet hq', hq'] at h
                  cases h
                · exact Or.inr (Or.inr h)
            · rw [get?_endStmts_of_ne (Ne.symm hid)] at hrow₀
              refine .kept hrow₀ herr hquiet ?_
              intro r' hr' hid'
              rw [hmem] at hr'
              simp only [Memory.launch, Executions.launch, Table.get?_insert] at hr'
              split at hr'
              · obtain rfl := Option.some.inj hr'
                rw [show q = id from hid', get?_endStmts_of_ne (Ne.symm hid), hrow₀] at hq
                rw [Option.some.inj hq]
                exact hqueued
              · rw [hfin] at hr'
                cases hr'
      · cases hg
    | _ => exact absurd rfl hstep

/-! ### Where the executions of a state come from -/

/-- The statuses of an instance with a busy execution. -/
def Status.opened : Status → Bool
  | .running | .waiting | .paused | .terminated => true
  | _ => false

/-- The operation starts an execution of the instance: it is a successful `restart` of it, or
its row was not open. -/
def Op.launches (w : World) (o : Op) (id : String) : Prop :=
  (∃ fromStep, o = .restart id fromStep ∧ w.db.status id ≠ none ∧
      restartFinds w.db id fromStep = true) ∨
    ∀ s, w.db.status id = some s → s.opened = false

theorem runs_of_launch {e : Executions} {id : String} {p : Json} {t : Millis} {c : ℕ} {r : Run}
    (h : (e.launch id p t).runs.get? c = some r) :
    (c = e.nextController ∧ r.instanceId = id) ∨ e.runs.get? c = some r := by
  simp only [Executions.launch, Table.get?_insert] at h
  split at h
  · next hc =>
      obtain rfl := Option.some.inj h
      exact Or.inl ⟨hc, rfl⟩
  · exact Or.inr h

theorem runs_of_setPhase {e : Executions} {c c' : ℕ} {p : Phase} {r : Run}
    (h : (e.setPhase c p).runs.get? c' = some r) :
    ∃ r₀, e.runs.get? c' = some r₀ ∧ r₀.instanceId = r.instanceId ∧
      ((c' ≠ c ∧ r₀ = r) ∨ (c' = c ∧ r.phase = p)) := by
  simp only [Executions.setPhase, Table.get?_modify] at h
  split at h
  · next hc =>
      obtain ⟨r₀, hr₀, rfl⟩ := Option.map_eq_some_iff.mp h
      exact ⟨r₀, hr₀, rfl, Or.inr ⟨hc, rfl⟩⟩
  · next hc => exact ⟨r, h, rfl, Or.inl ⟨hc, rfl⟩⟩

/-- A dequeued instance was queued. -/
theorem not_opened_of_queued {c : ℕ} {id q : String} {outcome : Outcome}
    (h : statusAfterEnd w c id outcome q = some .queued) (s : Status)
    (hs : w.db.status q = some s) : s.opened = false := by
  simp only [statusAfterEnd] at h
  rw [hs] at h
  split at h
  · rcases outcome with (_ | _) | _ <;> cases hab : w.mem.aborted c <;>
      simp [endStatus, hab] at h <;> subst h <;> rfl
  · obtain rfl := Option.some.inj h
    rfl

/-- **Inversion of the executions.** An execution after an operation was there before, in no
later phase, or it is the one the operation starts. -/
theorem Moved.run_cases (hm : Moved cfg w (.op o) w') {c : ℕ} {r' : Run}
    (hr' : w'.mem.runs.get? c = some r') :
    (∃ r, w.mem.runs.get? c = some r ∧ r.instanceId = r'.instanceId ∧
        (r'.phase.unended = true → r.phase.unended = true ∧ o ≠ .runEnds c)) ∨
      (c = w.mem.nextController ∧ o.launches w r'.instanceId ∧
        w'.db.status r'.instanceId = some .running) := by
  have hsame : ∀ {e : Executions}, w'.mem.toExecutions = e → e.runs = w.mem.runs →
      (∀ c, o ≠ .runEnds c) →
      ∃ r, w.mem.runs.get? c = some r ∧ r.instanceId = r'.instanceId ∧
        (r'.phase.unended = true → r.phase.unended = true ∧ o ≠ .runEnds c) := by
    intro e hexecs hruns hne
    rw [hexecs, hruns] at hr'
    exact ⟨r', hr', rfl, fun hun => ⟨hun, hne c⟩⟩
  have hafter : ∀ {c₀ : ℕ} {id : String},
      (w.mem.toExecutions.afterEnd c₀ id).runs.get? c = some r' →
      ∃ r, w.mem.runs.get? c = some r ∧ r.instanceId = r'.instanceId ∧
        (r'.phase.unended = true → r.phase.unended = true ∧ Op.runEnds c₀ ≠ .runEnds c) := by
    intro c₀ id h
    obtain ⟨r₀, hr₀, hid, ⟨hne, rfl⟩ | ⟨-, hphase⟩⟩ := runs_of_setPhase h
    · exact ⟨r₀, hr₀, hid, fun hun => ⟨hun, fun heq => hne (Op.runEnds.inj heq).symm⟩⟩
    · refine ⟨r₀, hr₀, hid, fun hun => ?_⟩
      rw [hphase] at hun
      cases hun
  cases hm with
  | calm hstep _ hexecs =>
    refine Or.inl (hsame hexecs rfl ?_)
    rintro c rfl
    cases hstep
  | woken hwakes _ _ hexecs =>
    refine Or.inl (hsame hexecs rfl ?_)
    rintro c rfl
    cases hwakes
  | rejected _ hexecs => exact Or.inl (hsame hexecs rfl fun _ => nofun)
  | queued _ _ _ _ hexecs => exact Or.inl (hsame hexecs rfl fun _ => nofun)
  | created _ hexp hnew _ hexecs hstatus =>
    rw [hexecs] at hr'
    rcases runs_of_launch hr' with ⟨hc, hid⟩ | hr'
    · refine Or.inr ⟨hc, Or.inr ?_, by rw [hstatus, if_pos hid]⟩
      intro s hs
      rw [hid] at hs
      cases hexpirable : s.expirable with
      | true => cases s <;> first | rfl | cases hexpirable
      | false =>
        rw [hexp.status_eq hs hexpirable] at hnew
        cases hnew
    · exact Or.inl ⟨r', hr', rfl, fun hun => ⟨hun, nofun⟩⟩
  | paused hexecs => exact Or.inl (hsame hexecs rfl fun _ => nofun)
  | resumed _ hexecs => exact Or.inl (hsame hexecs rfl fun _ => nofun)
  | terminated hexecs =>
    exact Or.inl (hsame hexecs Executions.runs_abortRegistered fun _ => nofun)
  | restartMissing _ hexecs => exact Or.inl (hsame hexecs rfl fun _ => nofun)
  | restartFailed _ _ _ hexecs =>
    exact Or.inl (hsame hexecs Executions.runs_abortRegistered fun _ => nofun)
  | @restarted id fromStep _ _ _ hrow hfound hexecs hstatus =>
    rw [hexecs] at hr'
    rcases runs_of_launch hr' with ⟨hc, hid⟩ | hr'
    · rw [Executions.nextController_abortRegistered] at hc
      refine Or.inr ⟨hc, Or.inl ⟨fromStep, by rw [hid], by rw [hid]; exact hrow, ?_⟩,
        by rw [hstatus, if_pos hid]⟩
      rw [hid]
      exact restartFinds_of_found hfound
    · rw [Executions.runs_abortRegistered] at hr'
      exact Or.inl ⟨r', hr', rfl, fun hun => ⟨hun, nofun⟩⟩
  | settled hrun hphase hexecs =>
    rw [hexecs] at hr'
    obtain ⟨r₀, hr₀, hid, ⟨-, rfl⟩ | ⟨rfl, -⟩⟩ := runs_of_setPhase hr'
    · exact Or.inl ⟨r₀, hr₀, hid, fun hun => ⟨hun, nofun⟩⟩
    · obtain rfl := Option.some.inj (hrun.symm.trans hr₀)
      exact Or.inl ⟨_, hr₀, hid, fun _ => ⟨by rw [hphase]; rfl, nofun⟩⟩
  | ended _ _ hexecs =>
    rw [hexecs] at hr'
    exact Or.inl (hafter hr')
  | dequeued _ _ hqueued hexecs hstatus =>
    rw [hexecs] at hr'
    rcases runs_of_launch hr' with ⟨hc, hid⟩ | hr'
    · refine Or.inr ⟨hc, Or.inr ?_, by rw [hstatus, if_pos hid]⟩
      intro s hs
      rw [hid] at hs
      exact not_opened_of_queued hqueued s hs
    · exact Or.inl (hafter hr')
  | crashed hcut => cases hcut

/-- **Inversion of abortion.** Only a registered execution is aborted, by `terminate` or
`restart`. -/
theorem Moved.aborted_cases (hm : Moved cfg w (.op o) w') {c : ℕ}
    (hab : w'.mem.aborted c = true) :
    w.mem.aborted c = true ∨
      ((∃ id, w.mem.abortControllers id = some c) ∧ ∀ c, o ≠ .runEnds c) := by
  have habort : ∀ {id : String}, (∀ c, o ≠ .runEnds c) →
      (w.mem.toExecutions.abortRegistered id).aborted c = true →
      w.mem.aborted c = true ∨
        ((∃ id, w.mem.abortControllers id = some c) ∧ ∀ c, o ≠ .runEnds c) := by
    intro id hne h
    simp only [Executions.abortRegistered] at h
    split at h
    · next c' hc' =>
        by_cases heq : c = c'
        · exact Or.inr ⟨⟨id, heq ▸ hc'⟩, hne⟩
        · simp only [Executions.abort, Function.update_of_ne heq] at h
          exact Or.inl h
    · exact Or.inl h
  cases hm with
  | calm _ _ hexecs | woken _ _ _ hexecs | rejected _ hexecs | paused hexecs
  | resumed _ hexecs | restartMissing _ hexecs | queued _ _ _ _ hexecs
  | created _ _ _ _ hexecs | settled _ _ hexecs | ended _ _ hexecs | dequeued _ _ _ hexecs =>
    rw [hexecs] at hab
    exact Or.inl hab
  | terminated hexecs | restartFailed _ _ _ hexecs | restarted _ _ hexecs =>
    rw [hexecs] at hab
    exact habort (fun _ h => by cases h) hab
  | crashed hcut => cases hcut

/-! ### The invariant -/

/-- A busy execution is the newest of its instance and the row of the instance is open; an
instance with an unended execution, and one that is queued or complete, has no error. -/
structure Inert (w : World) : Prop where
  coherent : w.Coherent
  newest : ∀ c id, w.busy c id → ∀ c' r', w.mem.runs.get? c' = some r' → r'.instanceId = id →
    c' ≤ c
  opened : ∀ c id, w.busy c id → ∃ s, w.db.status id = some s ∧ s.opened = true
  clear : ∀ c r row, w.mem.runs.get? c = some r → r.phase.unended = true →
    w.db.instances.get? r.instanceId = some row → row.error = none
  quiet : ∀ id row, w.db.instances.get? id = some row →
    row.status = .queued ∨ row.status = .complete → row.error = none

theorem inert_init : Inert World.init where
  coherent := coherent_init
  newest := by
    rintro c id - c' r' hr'
    cases hr'
  opened := by
    rintro c id (⟨r, hr, -⟩ | ⟨hab, -⟩)
    · cases hr
    · cases hab
  clear := by
    rintro c r row hr
    cases hr
  quiet := by
    rintro id row hrow
    cases hrow

/-- A busy execution is an execution of the instance. -/
theorem World.busy.run (hw : w.Coherent) {c : ℕ} {id : String} (h : w.busy c id) :
    ∃ r, w.mem.runs.get? c = some r ∧ r.instanceId = id := by
  rcases h with ⟨r, hr, hid, -⟩ | ⟨-, k, x, hx, rfl, hid, -⟩
  · exact ⟨r, hr, hid⟩
  · obtain ⟨r, hr, hrid⟩ := hw.linked.run k x hx
    exact ⟨r, hr, hrid.trans hid⟩

/-- An instance has at most one busy execution. -/
theorem Inert.unique (h : Inert w) {c c' : ℕ} {id : String} (hc : w.busy c id)
    (hc' : w.busy c' id) : c = c' := by
  obtain ⟨r, hr, hid⟩ := hc.run h.coherent
  obtain ⟨r', hr', hid'⟩ := hc'.run h.coherent
  exact le_antisymm (h.newest c' id hc' c r hr hid) (h.newest c id hc c' r' hr' hid')

/-- A call that will write was there before or belongs to an execution that is not
aborted. -/
theorem CallFrom.acting {k : ℕ} {x : Call} (hw : w.Coherent) (h : CallFrom w o k x)
    (hact : x.susp.acting = true) :
    w.mem.calls.get? k = some x ∨ w.mem.aborted x.run = false := by
  cases h with
  | old hk => exact Or.inl hk
  | called _ _ hab hx =>
    subst hx
    exact Or.inr hab
  | @continued x₀ s _ _ hx _ hab =>
    subst hx
    by_contra hnot
    rw [not_or, Bool.not_eq_false] at hnot
    obtain ⟨plan, n, rfl⟩ := hab hnot.2
    cases hact
  | @given x₀ ty payload map _ _ _ hk hwaits hx =>
    subst hx
    obtain ⟨_, _, _, -, hsusp⟩ := Call.waitsIn_iff.mp hwaits
    by_contra hnot
    rw [not_or, Bool.not_eq_false] at hnot
    have := hw.linked.aborted k x₀ hk hnot.2
    rw [hsusp] at this
    cases this

/-- A call belongs to an execution that was there before. -/
theorem CallFrom.run {k : ℕ} {x : Call} (hl : w.mem.Linked) (h : CallFrom w o k x) :
    ∃ r, w.mem.runs.get? x.run = some r ∧ r.instanceId = x.instanceId := by
  cases h with
  | old hk => exact hl.run k x hk
  | called _ hr _ hx =>
    subst hx
    exact ⟨_, hr, rfl⟩
  | @continued x₀ _ _ hk hx =>
    subst hx
    exact hl.run k x₀ hk
  | @given x₀ _ _ _ _ _ _ hk _ hx =>
    subst hx
    exact hl.run k x₀ hk

/-- A busy execution was busy before, or the operation starts it. -/
theorem Inert.busy_cases (h : Inert w) (hg : segment cfg w o = some g) {c : ℕ} {id : String}
    (hb : (w.after g).busy c id) :
    (w.busy c id ∧ ∀ r, o = .runEnds c → w.mem.runs.get? c = some r →
        w.mem.aborted c = true) ∨
      (c = w.mem.nextController ∧ o.launches w id ∧
        (w.after g).db.status id = some .running) := by
  have hm : Moved cfg w (.op o) (w.after g) := act_moves (by simp [act, hg])
  have hown : ∀ {id' : String} {r : Run}, w.mem.abortControllers id' = some c →
      w.mem.runs.get? c = some r → r.instanceId = id → w.busy c id := by
    intro id' r hreg hr hid
    exact Or.inl ⟨r, hr, hid, (h.coherent.wf.owner id' c r hreg hr).2⟩
  rcases hb with ⟨r', hr', rfl, hun⟩ | ⟨hab, k, x, hx, rfl, hid, hact⟩
  · rcases hm.run_cases hr' with ⟨r, hr, hid, himp⟩ | hnew
    · obtain ⟨hun₀, hne⟩ := himp hun
      exact Or.inl ⟨Or.inl ⟨r, hr, hid, hun₀⟩, fun _ heq => absurd heq hne⟩
    · exact Or.inr hnew
  · have hfrom := callFrom_of_segment h.coherent.linked hg hx
    rcases hm.aborted_cases hab with hab₀ | ⟨⟨id', hreg⟩, hne⟩
    · rcases hfrom.acting h.coherent hact with hx₀ | hnot
      · exact Or.inl ⟨Or.inr ⟨hab₀, k, x, hx₀, rfl, hid, hact⟩, fun _ _ _ => hab₀⟩
      · rw [hab₀] at hnot
        cases hnot
    · obtain ⟨r, hr, hrid⟩ := hfrom.run h.coherent.linked
      exact Or.inl ⟨hown hreg hr (hrid.trans hid), fun _ heq => absurd heq (hne _)⟩

/-- Nothing that the guard lets start an execution starts one next to a busy one. -/
theorem Inert.not_busy_of_launches (h : Inert w) (hguard : restartsBusy w (.op o) = false)
    {id : String} (hl : o.launches w id) (c : ℕ) : ¬ w.busy c id := by
  intro hb
  rcases hl with ⟨fromStep, rfl, hrow, hfinds⟩ | hclosed
  · have hsome : (w.db.instances.get? id).isSome = true := by
      cases hget : w.db.instances.get? id with
      | none => exact absurd (by simp [Db.status, hget]) hrow
      | some row => rfl
    have hbusy : w.hasBusy id = true := World.hasBusy_iff.mpr ⟨c, hb⟩
    simp [restartsBusy, hsome, hfinds, hbusy] at hguard
  · obtain ⟨s, hs, hopen⟩ := h.opened c id hb
    rw [hclosed s hs] at hopen
    cases hopen

/-- The row of a busy execution stays open, unless that execution ends unaborted. -/
theorem Inert.opened_step (h : Inert w) (hm : Moved cfg w (.op o) w') {c : ℕ} {id : String}
    (hb : w.busy c id)
    (hend : ∀ r, o = .runEnds c → w.mem.runs.get? c = some r → w.mem.aborted c = true) :
    ∃ s, w'.db.status id = some s ∧ s.opened = true := by
  obtain ⟨s, hs, hopen⟩ := h.opened c id hb
  have hactive : ∀ {s : Status}, s.active = true → s.opened = true := by
    intro s hact
    cases s <;> first | rfl | cases hact
  have hexpirable : s.expirable = false := by
    cases s <;> first | rfl | cases hopen
  -- The end of an execution of this instance is the end of `c` itself, which is aborted.
  have hafter : ∀ {c' : ℕ} {r : Run} {outcome : Outcome}, o = .runEnds c' →
      w.mem.runs.get? c' = some r → r.phase = .settled outcome →
      statusAfterEnd w c' r.instanceId outcome id = some s := by
    intro c' r outcome ho hr hphase
    simp only [statusAfterEnd]
    split
    · next heq =>
        have hb' : w.busy c' id := Or.inl ⟨r, hr, heq.symm, by rw [hphase]; rfl⟩
        obtain rfl := h.unique hb hb'
        rw [hend r ho hr, hs]
        simp [getD_endStatus_of_aborted]
    · exact hs
  cases hm with
  | calm _ _ _ hstatus | restartMissing _ _ hstatus | restartFailed _ _ _ _ hstatus
  | settled _ _ _ hstatus => exact ⟨s, (hstatus id).trans hs, hopen⟩
  | woken _ _ hact _ hstatus =>
    rw [hstatus]
    split
    · exact ⟨_, rfl, hactive hact⟩
    · exact ⟨s, hs, hopen⟩
  | rejected _ _ hexp => exact ⟨s, hexp.status_eq hs hexpirable, hopen⟩
  | queued _ hexp hnew _ _ hstatus =>
    have hkeep := hexp.status_eq hs hexpirable
    rw [hstatus]
    split
    · next heq =>
        rw [heq, hnew] at hkeep
        cases hkeep
    · exact ⟨s, hkeep, hopen⟩
  | created _ hexp _ _ _ hstatus =>
    rw [hstatus]
    split
    · exact ⟨.running, rfl, rfl⟩
    · exact ⟨s, hexp.status_eq hs hexpirable, hopen⟩
  | paused _ hstatus =>
    rw [hstatus, hs]
    split
    · refine ⟨_, rfl, ?_⟩
      dsimp only
      split
      · rfl
      · exact hopen
    · exact ⟨s, rfl, hopen⟩
  | resumed hact _ hstatus =>
    rw [hstatus, hs]
    split
    · refine ⟨_, rfl, ?_⟩
      dsimp only
      split
      · exact hactive hact
      · exact hopen
    · exact ⟨s, rfl, hopen⟩
  | terminated _ hstatus =>
    rw [hstatus, hs]
    split
    · refine ⟨_, rfl, ?_⟩
      dsimp only
      split
      · rfl
      · exact hopen
    · exact ⟨s, rfl, hopen⟩
  | restarted _ _ _ hstatus =>
    rw [hstatus]
    split
    · exact ⟨.running, rfl, rfl⟩
    · exact ⟨s, hs, hopen⟩
  | ended hr hphase _ _ hstatus => exact ⟨s, (hstatus id).trans (hafter rfl hr hphase), hopen⟩
  | dequeued hr hphase _ _ hstatus =>
    rw [hstatus]
    split
    · exact ⟨.running, rfl, rfl⟩
    · exact ⟨s, hafter rfl hr hphase, hopen⟩
  | crashed hcut => cases hcut

/-- A busy execution is the newest of its instance after the operation, too. -/
theorem Inert.newest_step (h : Inert w) (hguard : restartsBusy w (.op o) = false)
    (hg : segment cfg w o = some g) {c : ℕ} {id : String} (hb : (w.after g).busy c id)
    {c' : ℕ} {r' : Run} (hr' : (w.after g).mem.runs.get? c' = some r')
    (hid : r'.instanceId = id) : c' ≤ c := by
  have hm : Moved cfg w (.op o) (w.after g) := act_moves (by simp [act, hg])
  rcases hm.run_cases hr' with ⟨r, hr, hrid, -⟩ | ⟨rfl, hlaunch, -⟩
  · rcases h.busy_cases hg hb with ⟨hb₀, -⟩ | ⟨rfl, -, -⟩
    · exact h.newest c id hb₀ c' r hr (hrid.trans hid)
    · exact (h.coherent.wf.run c' r hr).le
  · rw [hid] at hlaunch
    rcases h.busy_cases hg hb with ⟨hb₀, -⟩ | ⟨rfl, -, -⟩
    · exact absurd hb₀ (h.not_busy_of_launches hguard hlaunch c)
    · exact le_rfl

/-- The instance of an unended execution has no error after the operation. -/
theorem Inert.clear_step (h : Inert w) (hguard : restartsBusy w (.op o) = false)
    (hg : segment cfg w o = some g) {c : ℕ} {r' : Run} {row' : InstanceRow}
    (hr' : (w.after g).mem.runs.get? c = some r') (hun : r'.phase.unended = true)
    (hrow' : (w.after g).db.instances.get? r'.instanceId = some row') : row'.error = none := by
  have hm : Moved cfg w (.op o) (w.after g) := act_moves (by simp [act, hg])
  rcases hm.run_cases hr' with ⟨r, hr, hid, himp⟩ | ⟨rfl, hlaunch, -⟩
  · obtain ⟨hun₀, hne⟩ := himp hun
    cases rowFrom_of_segment h.coherent.wf.toFresh hg hrow' with
    | kept hrow herr =>
      rw [herr]
      exact h.clear c r _ hr hun₀ (hid ▸ hrow)
    | cleared herr => exact herr
    | @ended c₀ r₀ outcome row ho hr₀ hphase hid₀ =>
      have hb : w.busy c r'.instanceId := Or.inl ⟨r, hr, hid, hun₀⟩
      have hb₀ : w.busy c₀ r'.instanceId :=
        Or.inl ⟨r₀, hr₀, hid₀, by rw [hphase]; rfl⟩
      obtain rfl := h.unique hb hb₀
      exact absurd ho hne
  · cases rowFrom_of_segment h.coherent.wf.toFresh hg hrow' with
    | kept hrow herr _ hnew =>
      rw [herr]
      exact h.quiet _ _ hrow (Or.inl (hnew r' hr' rfl))
    | cleared herr => exact herr
    | @ended c₀ r₀ outcome row ho hr₀ hphase hid₀ =>
      have hb₀ : w.busy c₀ r'.instanceId :=
        Or.inl ⟨r₀, hr₀, hid₀, by rw [hphase]; rfl⟩
      exact absurd hb₀ (h.not_busy_of_launches hguard hlaunch c₀)

/-- A queued or complete instance has no error after the operation. -/
theorem Inert.quiet_step (h : Inert w) (hg : segment cfg w o = some g) {id : String}
    {row' : InstanceRow} (hrow' : (w.after g).db.instances.get? id = some row')
    (hq : row'.status = .queued ∨ row'.status = .complete) : row'.error = none := by
  have hquiet' : row'.status.quiet = true := by
    rcases hq with hq | hq <;> rw [hq] <;> rfl
  cases rowFrom_of_segment h.coherent.wf.toFresh hg hrow' with
  | kept hrow herr hquiet =>
    rw [herr]
    refine h.quiet id _ hrow ?_
    rw [hquiet hquiet']
    exact hq
  | cleared herr => exact herr
  | @ended c r outcome row ho hr hphase hid hrow herr =>
    have hun : r.phase.unended = true := by rw [hphase]; rfl
    rcases herr with herr | herr | herr
    · rw [herr]
      exact h.clear c r row hr hun (hid ▸ hrow)
    · rw [herr] at hquiet'
      cases hquiet'
    · obtain ⟨s, hs, hopen⟩ := h.opened c id (Or.inl ⟨r, hr, hid, hun⟩)
      rw [Db.status, hrow, Option.map_some, Option.some.injEq, ← herr] at hs
      rcases hq with hq | hq <;> rw [← hs, hq] at hopen <;> cases hopen

/-- **The step lemma.** -/
theorem Inert.step (h : Inert w) (hfree : a.crashFree = true) (hguard : restartsBusy w a = false)
    (hstep : act cfg w a = some w') : Inert w' := by
  cases a with
  | tick ms =>
    obtain rfl := Option.some.inj hstep
    have hact : act cfg w (.tick ms) = some { w with clock := w.clock + ms } := rfl
    exact ⟨h.coherent.act hact, h.newest, h.opened, h.clear, h.quiet⟩
  | crash again | crashIn o n again => cases hfree
  | op o =>
    obtain ⟨g, hg, rfl⟩ := Option.map_eq_some_iff.mp hstep
    refine ⟨h.coherent.act hstep, ?_, ?_, ?_, ?_⟩
    · exact fun c id hb c' r' hr' hid => h.newest_step hguard hg hb hr' hid
    · intro c id hb
      rcases h.busy_cases hg hb with ⟨hb₀, hend⟩ | ⟨-, -, hst⟩
      · exact h.opened_step (act_moves hstep) hb₀ hend
      · exact ⟨.running, hst, rfl⟩
    · exact fun c r row hr hun hrow => h.clear_step hguard hg hr hun hrow
    · exact fun id row hrow hq => h.quiet_step hg hrow hq

/-! ### Superseded executions are inert -/

/-- A segment that runs no statement and settles at most a call changes no view. -/
theorem sameView_settle {k : ℕ} {reply : Reply} (id : String) :
    SameView id w (w.after ⟨[], w.mem.settle k, reply⟩) :=
  ⟨rfl, fun _ => rfl, fun _ => rfl, rfl, fun _ => rfl, rfl⟩

theorem sameView_done {reply : Reply} (id : String) :
    SameView id w (w.after ⟨[], w.mem, reply⟩) :=
  ⟨rfl, fun _ => rfl, fun _ => rfl, rfl, fun _ => rfl, rfl⟩

/-- A superseded execution is not busy. -/
theorem Inert.not_busy_of_superseded (h : Inert w) {c : ℕ} {id : String}
    (hsup : w.mem.superseded c id) : ¬ w.busy c id := by
  intro hb
  obtain ⟨-, -, c', r', hlt, hr', hid'⟩ := hsup
  exact absurd (h.newest c id hb c' r' hr' hid') (not_le.mpr hlt)

/-- The calls a superseded execution still has can only reject. -/
theorem Inert.susp_of_superseded (h : Inert w) {c : ℕ} {id : String}
    (hsup : w.mem.superseded c id) {k : ℕ} {x : Call} (hx : w.mem.calls.get? k = some x)
    (hc : x.run = c) : x.susp.abortable = false ∧ x.susp.acting = false := by
  subst hc
  have hab := hsup.1
  refine ⟨h.coherent.linked.aborted k x hx hab, ?_⟩
  by_contra hact
  have hnot := h.not_busy_of_superseded hsup
  obtain ⟨-, ⟨r, hr, hid⟩, -⟩ := hsup
  obtain ⟨r', hr', hid'⟩ := h.coherent.linked.run k x hx
  obtain rfl := Option.some.inj (hr.symm.trans hr')
  exact hnot (Or.inr ⟨hab, k, x, hx, rfl, hid'.symm.trans hid, Bool.not_eq_false _ ▸ hact⟩)

/-- A step of a superseded execution changes nothing of the instance. -/
theorem Inert.sameView (h : Inert w) {c : ℕ} {id : String} (hsup : w.mem.superseded c id)
    (hrun : o.run? w = some c) (hg : segment cfg w o = some g) : SameView id w (w.after g) := by
  have hab := hsup.1
  have hended : ∀ r, w.mem.runs.get? c = some r → r.phase.unended = false := by
    intro r hr
    have hnot := h.not_busy_of_superseded hsup
    obtain ⟨-, ⟨r', hr', hid⟩, -⟩ := hsup
    obtain rfl := Option.some.inj (hr'.symm.trans hr)
    by_contra hun
    exact hnot (Or.inl ⟨r', hr', hid, Bool.not_eq_false _ ▸ hun⟩)
  -- A call of the execution that continues was entered or is between two attempts.
  have hcall : ∀ {k : ℕ}, (w.mem.calls.get? k).map Call.run = some c →
      ∃ x, w.mem.calls.get? k = some x ∧ x.run = c ∧ x.susp.abortable = false ∧
        x.susp.acting = false := by
    intro k hk
    obtain ⟨x, hx, hxc⟩ := Option.map_eq_some_iff.mp hk
    exact ⟨x, hx, hxc, h.susp_of_superseded hsup hx hxc⟩
  cases o with
  | call c' method =>
    obtain rfl := Option.some.inj hrun
    obtain ⟨r, -, rfl⟩ := Option.map_eq_some_iff.mp hg
    simp only [stepCall]
    rw [if_pos hab]
    split <;> exact sameView_done id
  | runSettles c' outcome =>
    obtain rfl := Option.some.inj hrun
    obtain ⟨r, hr, hg⟩ := Option.bind_eq_some_iff.mp hg
    split at hg
    · next hphase =>
        have hun := hended r hr
        rw [hphase] at hun
        cases hun
    · cases hg
  | runEnds c' =>
    obtain rfl := Option.some.inj hrun
    obtain ⟨r, hr, hg⟩ := Option.bind_eq_some_iff.mp hg
    split at hg
    · next outcome hphase =>
        have hun := hended r hr
        rw [hphase] at hun
        cases hun
    · cases hg
  | enter k =>
    obtain ⟨x, hx, hxc, -, -⟩ := hcall hrun
    obtain ⟨x', hx', hg⟩ := Option.bind_eq_some_iff.mp hg
    obtain rfl := Option.some.inj (hx.symm.trans hx')
    simp only [callSegment] at hg
    split at hg
    · obtain rfl := Option.some.inj hg
      simp only [enter]
      rw [hxc, if_pos hab]
      exact sameView_settle id
    · cases hg
  | retry k =>
    obtain ⟨x, hx, hxc, -, -⟩ := hcall hrun
    obtain ⟨x', hx', hg⟩ := Option.bind_eq_some_iff.mp hg
    obtain rfl := Option.some.inj (hx.symm.trans hx')
    simp only [callSegment] at hg
    split at hg
    · split at hg
      · obtain rfl := Option.some.inj hg
        simp only [retry, attemptLoop]
        rw [hxc, if_pos hab]
        split <;> exact sameView_settle id
      · cases hg
    · cases hg
  | poll k | sleepOver k =>
    obtain ⟨x, hx, -, habort, -⟩ := hcall hrun
    obtain ⟨x', hx', hg⟩ := Option.bind_eq_some_iff.mp hg
    obtain rfl := Option.some.inj (hx.symm.trans hx')
    simp only [callSegment] at hg
    split at hg
    · next hsusp =>
        rw [hsusp] at habort
        cases habort
    · cases hg
  | eventTimeout k =>
    obtain ⟨x, hx, -, habort, -⟩ := hcall hrun
    obtain ⟨x', hx', hg⟩ := Option.bind_eq_some_iff.mp hg
    obtain rfl := Option.some.inj (hx.symm.trans hx')
    simp only [callSegment] at hg
    split at hg
    · next hsusp =>
        rw [hsusp] at habort
        cases habort
    · cases hg
  | callback k outcome | eventResume k =>
    obtain ⟨x, hx, -, -, hact⟩ := hcall hrun
    obtain ⟨x', hx', hg⟩ := Option.bind_eq_some_iff.mp hg
    obtain rfl := Option.some.inj (hx.symm.trans hx')
    simp only [callSegment] at hg
    split at hg
    · next hsusp =>
        rw [hsusp] at hact
        cases hact
    · cases hg
  | _ => cases hrun

/-! ### The results -/

/-- The runs of one process that never restart an instance with a busy execution. -/
def restartsQuietly (w : World) (a : Action) : Prop :=
  a.crashFree = true ∧ restartsBusy w a = false

instance (w : World) (a : Action) : Decidable (restartsQuietly w a) :=
  inferInstanceAs (Decidable (_ ∧ _))

/-- **Superseded executions are inert.** In a run that never restarts an instance with a busy
execution, no step of a superseded execution changes anything of its instance, and an
instance that is complete has no error. -/
theorem sameView_of_superseded (hreach : Reaches (act cfg) restartsQuietly .init w) :
    (∀ c id o w', w.mem.superseded c id → o.run? w = some c → act cfg w (.op o) = some w' →
      SameView id w w') ∧
      ∀ id row, w.db.instances.get? id = some row → row.status = .complete →
        row.error = none := by
  have hinert : Inert w :=
    hreach.invariant inert_init fun _ _ _ hI hok hstep => hI.step hok.1 hok.2 hstep
  refine ⟨?_, fun id row hrow hst => hinert.quiet id row hrow (Or.inr hst)⟩
  intro c id o w' hsup hrun hstep
  obtain ⟨g, hg, rfl⟩ := Option.map_eq_some_iff.mp hstep
  exact hinert.sameView hsup hrun hg

/-- An instance that is terminated in a sleep, ends and is restarted: the old execution is
superseded, and the new one completes. -/
theorem sameView_of_restartAfterTerminate :
    ∃ w, Reaches (act .defaults) restartsQuietly .init w ∧ w.db.status "a" = some .complete ∧
      (∀ c id o w', w.mem.superseded c id → o.run? w = some c →
        act .defaults w (.op o) = some w' → SameView id w w') ∧
      ∀ id row, w.db.instances.get? id = some row → row.status = .complete →
        row.error = none := by
  have hrun : (play (restrict (act .defaults) restartsQuietly) .init
      [.op (.create (some "a") none), .op (.call 0 (.sleep "s" (.text "1 hour"))),
        .op (.enter 0), .op (.terminate "a"),
        .op (.runSettles 0 (.threw ⟨"Error", terminatedMessage⟩)), .op (.runEnds 0),
        .op (.restart "a" none), .op (.runSettles 1 (.returned (.ok none))),
        .op (.runEnds 1)]).any (fun w => w.db.status "a" = some .complete) = true := by
    decide
  obtain ⟨w, hreach, hst⟩ := exists_reaches_of_play hrun
  exact ⟨w, hreach, of_decide_eq_true hst, sameView_of_superseded hreach⟩

/-- A callback of a superseded execution returns and its value is cached for the new one. -/
theorem not_sameView :
    ¬ ∀ w, Reaches (act .defaults) unguarded .init w →
      ∀ c id o w', w.mem.superseded c id → o.run? w = some c →
        act .defaults w (.op o) = some w' → SameView id w w' := by
  intro hall
  have hrun : (play (restrict (act .defaults) unguarded) .init
      [.op (.create (some "a") none), .op (.call 0 (.doStep "s" {})), .op (.enter 0),
        .op (.restart "a" none)]).any
      (fun w => w.mem.aborted 0 && (w.mem.runs.get? 0).any (fun r => r.instanceId = "a") &&
        (w.mem.runs.get? 1).any (fun r => r.instanceId = "a") &&
        (Op.callback 0 (.returned (some "1"))).run? w = some 0 &&
        (act .defaults w (.op (.callback 0 (.returned (some "1"))))).any fun w' =>
          w'.db.steps.get? ("a", "s") ≠ w.db.steps.get? ("a", "s")) = true := by
    decide
  obtain ⟨w, hreach, hw⟩ := exists_reaches_of_play hrun
  simp only [Bool.and_eq_true, decide_eq_true_eq, Option.any_eq_true] at hw
  obtain ⟨⟨⟨⟨hab, r, hr, hid⟩, r', hr', hid'⟩, hrun⟩, w', hstep, hne⟩ := hw
  have hsup : w.mem.superseded 0 "a" :=
    ⟨hab, ⟨r, hr, hid⟩, 1, r', Nat.zero_lt_one, hr', hid'⟩
  exact hne ((hall w hreach 0 "a" _ w' hsup hrun hstep).steps "s")

end Lopata.Workflow
