import Lopata.Workflow.References

/-!
# Termination is Final

`terminate` writes its status and aborts the registered execution. Two things can rewrite
the status afterwards: an execution that was not the registered one, which is not aborted
and at its end writes `complete` or `errored`, and a wait that already has its event, whose
continuation writes `running`. (A third is a wait started by code that an ended execution
left behind.) If neither is there when `terminate` runs, nothing that follows rewrites the
status, not even a stop of the process.

## Main results

* `segment_spares`: the segments that leave a terminated row terminated, statement by
  statement.
* `Halted.step`: what holds of an instance after a clean `terminate`, and every later step
  keeps.
* `terminated_iff`: `terminated` is final exactly when `terminate` was clean.
-/

namespace Lopata.Workflow

variable {cfg : Config} {w w' w₁ : World} {a : Action} {o : Op} {g : Seg} {id : String}

/-! ### Statements that spare a terminated row -/

/-- The statement leaves the status of a terminated instance. -/
def Stmt.spares (id : String) : Stmt → Bool
  | .insertInstance id' _ | .setStatus id' _ _ | .complete id' _ _ | .fail id' _ _ _
  | .resetInstance id' _ => id' ≠ id
  | .setStatusFrom id' _ guard _ => id' ≠ id || !guard .terminated
  | _ => true

theorem status_exec_spares {db : Db} {s : Stmt} (hst : db.status id = some .terminated)
    (hs : s.spares id = true) : (exec db s).status id = some .terminated := by
  obtain ⟨r, hr, hrst⟩ := Option.map_eq_some_iff.mp hst
  cases s with
  | insertInstance id' row =>
    have hne : id ≠ id' := fun h => by simp [Stmt.spares, h] at hs
    simp only [Db.status, exec, Table.get?_insert_of_ne _ _ hne, hr, Option.map_some, hrst]
  | setStatus id' s now =>
    have hne : id ≠ id' := fun h => by simp [Stmt.spares, h] at hs
    simp only [Db.status, exec, Table.get?_modify_of_ne _ _ hne, hr, Option.map_some, hrst]
  | complete id' output now =>
    have hne : id ≠ id' := fun h => by simp [Stmt.spares, h] at hs
    simp only [Db.status, exec, Table.get?_modify_of_ne _ _ hne, hr, Option.map_some, hrst]
  | fail id' message name now =>
    have hne : id ≠ id' := fun h => by simp [Stmt.spares, h] at hs
    simp only [Db.status, exec, Table.get?_modify_of_ne _ _ hne, hr, Option.map_some, hrst]
  | resetInstance id' now =>
    have hne : id ≠ id' := fun h => by simp [Stmt.spares, h] at hs
    simp only [Db.status, exec, Table.get?_modify_of_ne _ _ hne, hr, Option.map_some, hrst]
  | setStatusFrom id' s guard now =>
    rw [status_exec_setStatusFrom, hst]
    split
    · next heq =>
        have hguard : guard .terminated = false := by simpa [Stmt.spares, heq] using hs
        simp [hguard]
    · rfl
  | storeError id' message name now =>
    simp only [Db.status, exec, Table.get?_modify, hr]
    split <;> simp [hrst]
  | deleteExpired cutoff =>
    simp [Db.status, exec, hr, Option.filter, hrst, Status.expirable]
  | _ => exact hst

theorem status_execAll_spares {db : Db} {ss : List Stmt} (hst : db.status id = some .terminated)
    (hs : ∀ s ∈ ss, s.spares id = true) : (execAll db ss).status id = some .terminated := by
  induction ss generalizing db with
  | nil => exact hst
  | cons s ss ih =>
    exact ih (status_exec_spares hst (hs s List.mem_cons_self)) fun s' hs' =>
      hs s' (List.mem_cons_of_mem s hs')

theorem spares_of_keepsInstances {s : Stmt} (h : s.keepsInstances = true) :
    s.spares id = true := by
  cases s <;> first | rfl | cases h

theorem spares_of_wakesOnly {s : Stmt} {id' : String} (hne : id' ≠ id)
    (h : s.wakesOnly id' = true) : s.spares id = true := by
  cases s with
  | setStatus id'' s now =>
    simp only [Stmt.wakesOnly, Bool.and_eq_true, decide_eq_true_eq] at h
    simpa [Stmt.spares, h.1] using hne
  | _ => exact spares_of_keepsInstances h

theorem spares_cleanup (cfg : Config) (db : Db) (now : Millis) :
    ∀ s ∈ cleanupRetentionExpired cfg db now, s.spares id = true := by
  intro s hs
  simp only [cleanupRetentionExpired] at hs
  split at hs
  · cases hs
  · rcases List.mem_append.mp hs with hs | hs
    · obtain ⟨id', -, rfl⟩ := List.mem_map.mp hs
      rfl
    · obtain rfl := List.mem_singleton.mp hs
      rfl

/-- The end of an execution of another instance, or of an aborted one. -/
theorem spares_endStmts {aborted : Bool} {id' : String} (now : Millis) (outcome : Outcome)
    (h : id' = id → aborted = true) :
    ∀ s ∈ endStmts aborted id' now outcome, s.spares id = true := by
  have hne : aborted = false → id' ≠ id := by
    rintro hab rfl
    cases hab.symm.trans (h rfl)
  rcases outcome with (_ | _) | _ <;> cases aborted <;>
    simp_all [endStmts, Stmt.spares]

/-- **What spares a terminated row.** Every statement of a segment does that wakes no wait of
the instance, does not restart it and does not end an execution of it that is not aborted. -/
theorem segment_spares (h : segment cfg w o = some g) (hst : w.db.status id = some .terminated)
    (hwakes : wakes cfg w o ≠ some id) (hrestart : ∀ fromStep, o ≠ .restart id fromStep)
    (hends : ∀ c r, o = .runEnds c → w.mem.runs.get? c = some r → r.instanceId = id →
      w.mem.aborted c = true) : ∀ s ∈ g.stmts, s.spares id = true := by
  by_cases hstep : o.isStepOp = true
  · obtain ⟨-, hstmts⟩ := segment_stepOp hstep h
    intro s hs
    have hallowed := hstmts s hs
    cases hw : wakes cfg w o with
    | none =>
      rw [hw] at hallowed
      exact spares_of_keepsInstances hallowed
    | some id' =>
      rw [hw] at hallowed
      refine spares_of_wakesOnly ?_ hallowed
      rintro rfl
      exact hwakes hw
  · cases o with
    | create id? params =>
      obtain rfl := Option.some.inj h
      rcases create_cases cfg w id? params with
        ⟨-, hstmts, -⟩ | ⟨id', row, -, -, -, -, hnone, hstmts, -⟩
      · rw [hstmts]
        exact spares_cleanup cfg w.db w.clock
      · rw [hstmts]
        intro s hs
        rcases List.mem_append.mp hs with hs | hs
        · exact spares_cleanup cfg w.db w.clock s hs
        · obtain rfl := List.mem_singleton.mp hs
          have hne : id' ≠ id := by
            rintro rfl
            have hkeep := status_execAll_spares hst
              (spares_cleanup cfg w.db w.clock)
            rw [Db.status, hnone] at hkeep
            cases hkeep
          simpa [Stmt.spares] using hne
    | pause id' | resume id' | terminate id' =>
      obtain rfl := Option.some.inj h
      intro s hs
      obtain rfl := List.mem_singleton.mp hs
      simp [Stmt.spares, Status.active, Status.terminable]
    | restart id' fromStep =>
      obtain rfl := Option.some.inj h
      have hne : id' ≠ id := by
        rintro rfl
        exact hrestart fromStep rfl
      rcases restart_cases w id' fromStep with ⟨-, hseg⟩ | ⟨row, -, hcase⟩
      · rw [hseg]
        exact fun s hs => by cases hs
      · rcases hcase with ⟨step, -, -, -, hstmts, -⟩ | ⟨s₀, hs₀, -, hstmts, -⟩
        · rw [hstmts]
          exact fun s hs => by cases hs
        · rw [hstmts]
          intro s hs
          simp only [List.mem_cons, List.not_mem_nil, or_false] at hs
          rcases hs with rfl | rfl | rfl
          · rcases hs₀ with rfl | ⟨t, rfl⟩ <;> rfl
          · rfl
          · simpa [Stmt.spares] using hne
    | runSettles c outcome =>
      obtain ⟨r, -, h⟩ := Option.bind_eq_some_iff.mp h
      split at h
      · obtain rfl := Option.some.inj h
        exact fun s hs => by cases hs
      · cases h
    | runEnds c =>
      obtain ⟨r, hr, h⟩ := Option.bind_eq_some_iff.mp h
      split at h
      · next outcome hphase =>
          obtain rfl := Option.some.inj h
          have hend := spares_endStmts w.clock outcome (hends c r rfl hr)
          rcases executeEnd_cases w c r outcome with
            ⟨-, hstmts, -⟩ | ⟨q, row, hrow, hq, -, hstmts, -⟩
          · rw [hstmts]
            exact hend
          · rw [hstmts]
            intro s hs
            rcases List.mem_append.mp hs with hs | hs
            · exact hend s hs
            · obtain rfl := List.mem_singleton.mp hs
              have hne : q ≠ id := by
                rintro rfl
                have hkeep := status_execAll_spares hst hend
                rw [Db.status, hrow, Option.map_some, hq] at hkeep
                cases hkeep
              simpa [Stmt.spares] using hne
      · cases h
    | _ => exact absurd rfl hstep

/-! ### After a clean `terminate` -/

/-- `terminate` finds every execution that drives the instance registered, and no call of the
instance that already has its event. -/
structure TerminatesCleanly (w : World) (id : String) : Prop where
  registered : ∀ c, w.mem.toExecutions.drives c id → w.mem.abortControllers id = some c
  undelivered : ∀ k x p t, w.mem.calls.get? k = some x → x.instanceId = id →
    x.susp ≠ .delivered p t

/-- The step starts a wait for code that an ended execution left behind. -/
def startsLeftover (cfg : Config) (w : World) (a : Action) : Bool :=
  match a.op? with
  | some (.enter k) =>
      (w.mem.calls.get? k).any fun x =>
        x.susp = .entered && x.startsWaiting cfg w &&
          (w.mem.runs.get? x.run).any fun r => !r.phase.unended
  | _ => false

/-- A terminated instance nothing can bring back. -/
structure Halted (id : String) (w : World) : Prop where
  coherent : w.Coherent
  status : w.db.status id = some .terminated
  undriven : ∀ c, ¬ w.mem.toExecutions.drives c id
  undelivered : ∀ k x p t, w.mem.calls.get? k = some x → x.instanceId = id →
    x.susp ≠ .delivered p t

/-- No wait of a halted instance wakes it, unless an ended execution left it behind. -/
theorem Halted.wakes_ne (h : Halted id w) (ho : a.op? = some o)
    (hleft : startsLeftover cfg w a = false) : wakes cfg w o ≠ some id := by
  intro hw
  cases o with
  | enter k =>
    obtain ⟨x, hx, hw⟩ := Option.bind_eq_some_iff.mp hw
    split at hw
    · next hsusp =>
        split at hw
        · next hstart =>
            obtain rfl := Option.some.inj hw
            obtain ⟨r, hr, hid⟩ := h.coherent.linked.run k x hx
            have hab : w.mem.aborted x.run = false := by
              simp only [Call.startsWaiting] at hstart
              split at hstart
              · simp only [Bool.and_eq_true, Bool.not_eq_true'] at hstart
                exact hstart.1.1.1
              · cases hstart
            have hun : r.phase.unended = true := by
              simpa [startsLeftover, ho, hx, hsusp, hstart, hr] using hleft
            exact h.undriven x.run ⟨r, hr, hid, hun, hab⟩
        · cases hw
    · cases hw
  | eventResume k =>
    obtain ⟨x, hx, hw⟩ := Option.bind_eq_some_iff.mp hw
    split at hw
    · next hsusp =>
        exact h.undelivered k x _ _ hx (Option.some.inj hw) hsusp
    · cases hw
  | _ => cases hw

/-- The statements of an operation on a halted instance spare it. -/
theorem Halted.spares (h : Halted id w) (ho : a.op? = some o) (hg : segment cfg w o = some g)
    (hrestart : a.restarts id = false) (hleft : startsLeftover cfg w a = false) :
    ∀ s ∈ g.stmts, s.spares id = true := by
  refine segment_spares hg h.status (h.wakes_ne ho hleft) ?_ ?_
  · rintro fromStep rfl
    simp [Action.restarts, ho] at hrestart
  · rintro c r rfl hr hid
    by_contra hab
    obtain ⟨r', hr', hg⟩ := Option.bind_eq_some_iff.mp hg
    obtain rfl := Option.some.inj (hr.symm.trans hr')
    split at hg
    · next outcome hphase =>
        exact h.undriven c ⟨r, hr, hid, by rw [hphase]; rfl, Bool.not_eq_true _ ▸ hab⟩
    · cases hg

/-- The status of a halted instance after a step, and at the point where the process stops. -/
theorem Halted.status_cut (h : Halted id w) (hrestart : a.restarts id = false)
    (hleft : startsLeftover cfg w a = false) {w₀ : World} (hcut : crashPoint cfg w a = some w₀) :
    w₀.db.status id = some .terminated := by
  cases a with
  | op | tick => cases hcut
  | crash again =>
    obtain rfl := Option.some.inj hcut
    exact h.status
  | crashIn o n again =>
    obtain ⟨g, hg, rfl⟩ := Option.map_eq_some_iff.mp hcut
    refine status_execAll_spares h.status ?_
    intro s hs
    exact h.spares rfl hg hrestart hleft s (List.mem_of_mem_take hs)

theorem Halted.status_step (h : Halted id w) (hrestart : a.restarts id = false)
    (hleft : startsLeftover cfg w a = false) (hstep : act cfg w a = some w') :
    w'.db.status id = some .terminated := by
  have hresumed : ∀ {w₀ : World}, crashPoint cfg w a = some w₀ → Resumed w₀ w' →
      w'.db.status id = some .terminated := by
    intro w₀ hcut hres
    rw [hres.status, h.status_cut hrestart hleft hcut]
    rfl
  cases a with
  | op o =>
    obtain ⟨g, hg, rfl⟩ := Option.map_eq_some_iff.mp hstep
    exact status_execAll_spares h.status (h.spares rfl hg hrestart hleft)
  | tick ms =>
    obtain rfl := Option.some.inj hstep
    exact h.status
  | crash again =>
    obtain rfl := Option.some.inj hstep
    exact hresumed rfl (resumed_resumeAfter w again)
  | crashIn o n again =>
    obtain ⟨g, hg, rfl⟩ := Option.map_eq_some_iff.mp hstep
    have hcut : crashPoint cfg w (.crashIn o n again) =
        some { w with db := execAll w.db (g.stmts.take n) } := by
      simp only [crashPoint, hg, Option.map_some]
    exact hresumed hcut (resumed_resumeAfter _ again)

/-- Nothing starts an execution of a halted instance. -/
theorem Halted.undriven_step (h : Halted id w) (hrestart : a.restarts id = false)
    (hleft : startsLeftover cfg w a = false) (hm : Moved cfg w a w') (c : ℕ) :
    ¬ w'.mem.toExecutions.drives c id := by
  intro hd
  have hwf := h.coherent.wf
  cases hm with
  | ticked hexecs | calm _ _ hexecs | woken _ _ _ hexecs | rejected _ hexecs | paused hexecs
  | resumed _ hexecs | restartMissing _ hexecs =>
    rw [hexecs] at hd
    exact h.undriven c hd
  | queued _ _ _ _ hexecs =>
    rw [hexecs] at hd
    exact h.undriven c hd
  | created _ hexp hnew _ hexecs =>
    rw [hexecs] at hd
    rcases (Executions.drives_launch hwf.toFresh _ _).mp hd with ⟨-, rfl⟩ | hd
    · rw [hexp.status_eq h.status rfl] at hnew
      cases hnew
    · exact h.undriven c hd
  | terminated hexecs =>
    rw [hexecs] at hd
    exact h.undriven c (Executions.drives_abortRegistered.mp hd).2
  | restartFailed _ _ _ hexecs =>
    rw [hexecs] at hd
    exact h.undriven c (Executions.drives_abortRegistered.mp hd).2
  | restarted _ _ hexecs =>
    rw [hexecs] at hd
    rcases (Executions.drives_launch (hwf.abortRegistered _).toFresh _ _).mp hd with
      ⟨-, rfl⟩ | hd
    · simp [Action.restarts, Action.op?] at hrestart
    · exact h.undriven c (Executions.drives_abortRegistered.mp hd).2
  | settled hrun hphase hexecs =>
    rw [hexecs] at hd
    exact h.undriven c ((Executions.drives_setPhase_settled hrun hphase).mp hd)
  | ended _ _ hexecs =>
    rw [hexecs] at hd
    exact h.undriven c (Executions.drives_setPhase_ended.mp hd).2
  | @dequeued c' r o q p t _ hrun _ hqueued hexecs =>
    rw [hexecs] at hd
    rcases (Executions.drives_launch (hwf.afterEnd hrun).toFresh _ _).mp hd with
      ⟨-, rfl⟩ | hd
    · simp only [statusAfterEnd] at hqueued
      rw [h.status] at hqueued
      split at hqueued
      · rcases o with (_ | _) | _ <;> cases hab : w.mem.aborted c' <;>
          simp [endStatus, hab] at hqueued
      · cases hqueued
    · exact h.undriven c (Executions.drives_setPhase_ended.mp hd).2
  | crashed hcut hresumed =>
    obtain ⟨-, s, hs, hact⟩ := hresumed.started.drives_iff.mp hd
    rw [h.status_cut hrestart hleft hcut, Option.some.injEq] at hs
    rw [← hs] at hact
    cases hact

/-- No event reaches a call of a halted instance. -/
theorem Halted.undelivered_step (h : Halted id w) (hstep : act cfg w a = some w') (k : ℕ)
    (x : Call) (p : Option Json) (t : Millis) (hx : w'.mem.calls.get? k = some x)
    (hid : x.instanceId = id) : x.susp ≠ .delivered p t := by
  have hresumed : ∀ {w₀ : World}, Resumed w₀ w' → False := by
    intro w₀ hres
    rw [hres.memory] at hx
    cases hx
  cases a with
  | op o =>
    obtain ⟨g, hg, rfl⟩ := Option.map_eq_some_iff.mp hstep
    intro hs
    cases callFrom_of_segment h.coherent.linked hg hx with
    | old hk => exact h.undelivered k x p t hk hid hs
    | called _ _ _ hx =>
      subst hx
      exact pauseRound_abortable.2 p t hs
    | continued _ _ hx hnot =>
      subst hx
      exact hnot p t hs
    | given _ herr _ _ _ hx =>
      subst hx
      simp only at hid
      subst hid
      simp only [sendEventError] at herr
      rw [h.status] at herr
      split at herr
      · cases herr
      · simp [Status.finished] at herr
  | tick ms =>
    obtain rfl := Option.some.inj hstep
    exact h.undelivered k x p t hx hid
  | crash again =>
    obtain rfl := Option.some.inj hstep
    exact (hresumed (resumed_resumeAfter w again)).elim
  | crashIn o n again =>
    obtain ⟨g, -, rfl⟩ := Option.map_eq_some_iff.mp hstep
    exact (hresumed (resumed_resumeAfter _ again)).elim

/-- **The step lemma.** -/
theorem Halted.step (h : Halted id w) (hrestart : a.restarts id = false)
    (hleft : startsLeftover cfg w a = false) (hstep : act cfg w a = some w') : Halted id w' where
  coherent := h.coherent.act hstep
  status := h.status_step hrestart hleft hstep
  undriven := h.undriven_step hrestart hleft (act_moves hstep)
  undelivered := h.undelivered_step hstep

/-- A clean `terminate` halts its instance. -/
theorem TerminatesCleanly.halted (h : TerminatesCleanly w id) (hw : w.Coherent)
    (hterm : act cfg w (.op (.terminate id)) = some w₁)
    (hst : w₁.db.status id = some .terminated) : Halted id w₁ where
  coherent := hw.act hterm
  status := hst
  undriven := by
    obtain rfl := Option.some.inj hterm
    intro c hd
    have hexecs : (w.after (terminate w id)).mem.toExecutions =
        w.mem.toExecutions.abortRegistered id := Memory.abortRegistered_toExecutions ..
    rw [hexecs] at hd
    obtain ⟨hne, hd⟩ := Executions.drives_abortRegistered.mp hd
    exact hne (h.registered c hd)
  undelivered := by
    obtain rfl := Option.some.inj hterm
    intro k x p t hx
    exact h.undelivered k x p t (Memory.calls_of_abortRegistered hx)

/-! ### After an unclean one -/

/-- The runs that neither restart the instance nor start a wait for an ended execution. -/
def keepsHalted (cfg : Config) (id : String) (w : World) (a : Action) : Prop :=
  a.restarts id = false ∧ startsLeftover cfg w a = false

/-- An execution that has settled and still drives the instance ends and overwrites the
status. -/
theorem exists_rewrite_of_settled (cfg : Config) (hst : w.db.status id = some .terminated)
    {c : ℕ} {r : Run} {outcome : Outcome} (hr : w.mem.runs.get? c = some r)
    (hid : r.instanceId = id) (hphase : r.phase = .settled outcome)
    (hab : w.mem.aborted c = false) :
    ∃ w₂, Reaches (act cfg) (keepsHalted cfg id) w w₂ ∧ w₂.db.status id ≠ some .terminated := by
  have hstep : act cfg w (.op (.runEnds c)) = some (w.after (executeEnd w c r outcome)) := by
    simp [act, segment, hr, hphase]
  refine ⟨_, Reaches.refl.tail ⟨rfl, rfl⟩ hstep, ?_⟩
  have hend : statusAfterEnd w c r.instanceId outcome id ≠ some .terminated := by
    simp only [statusAfterEnd]
    rw [if_pos hid.symm, hst, hab]
    rcases outcome with (_ | _) | _ <;> simp [endStatus]
  cases act_moves hstep with
  | ended hr' hphase' _ _ hstatus =>
    obtain rfl := Option.some.inj (hr.symm.trans hr')
    obtain rfl := Phase.settled.inj (hphase.symm.trans hphase')
    rw [hstatus]
    exact hend
  | dequeued hr' hphase' _ _ hstatus =>
    obtain rfl := Option.some.inj (hr.symm.trans hr')
    obtain rfl := Phase.settled.inj (hphase.symm.trans hphase')
    rw [hstatus]
    split
    · exact (fun h => by cases h)
    · exact hend
  | calm hcalm => cases hcalm
  | woken hw => cases hw
  | crashed hcut => cases hcut

/-- An execution that still drives the instance can end and overwrite the status. -/
theorem exists_rewrite_of_drives (cfg : Config) (hst : w.db.status id = some .terminated) {c : ℕ}
    (hd : w.mem.toExecutions.drives c id) :
    ∃ w₂, Reaches (act cfg) (keepsHalted cfg id) w w₂ ∧ w₂.db.status id ≠ some .terminated := by
  obtain ⟨r, hr, hid, hun, hab⟩ := hd
  cases hphase : r.phase with
  | running =>
    have hsettle : act cfg w (.op (.runSettles c (.returned (.ok none)))) = some
        { w with mem := { w.mem with
            toExecutions :=
              w.mem.toExecutions.setPhase c (.settled (.returned (.ok none))) } } := by
      simp [act, segment, hr, hphase, World.after]
    obtain ⟨w₂, hreach, hne⟩ := exists_rewrite_of_settled cfg (c := c)
      (r := { r with phase := .settled (.returned (.ok none)) })
      (w := { w with mem := { w.mem with
        toExecutions := w.mem.toExecutions.setPhase c (.settled (.returned (.ok none))) } })
      hst (by simp [Executions.setPhase, hr]) hid rfl hab
    exact ⟨w₂, (Reaches.refl.tail ⟨rfl, rfl⟩ hsettle).trans hreach, hne⟩
  | settled outcome => exact exists_rewrite_of_settled cfg hst hr hid hphase hab
  | ended =>
    rw [hphase] at hun
    cases hun

/-- A call that has its event continues and overwrites the status. -/
theorem exists_rewrite_of_delivered (cfg : Config) (hl : w.mem.Linked)
    (hst : w.db.status id = some .terminated) {k : ℕ} {x : Call} {p : Option Json} {t : Millis}
    (hx : w.mem.calls.get? k = some x) (hid : x.instanceId = id) (hs : x.susp = .delivered p t) :
    ∃ w₂, Reaches (act cfg) (keepsHalted cfg id) w w₂ ∧ w₂.db.status id ≠ some .terminated := by
  obtain ⟨name, ty, timeout, hmethod⟩ := hl.delivered k x p t hx hs
  have hstep : act cfg w (.op (.eventResume k)) =
      some (w.after (eventResume cfg w k x name ty p t)) := by
    simp [act, segment, callSegment, hx, hmethod, hs]
  refine ⟨_, Reaches.refl.tail ⟨rfl, rfl⟩ hstep, ?_⟩
  have hwakes : wakes cfg w (.eventResume k) = some id := by
    simp [wakes, hx, hmethod, hs, hid]
  cases act_moves hstep with
  | calm _ hnone =>
    rw [hnone id hwakes] at hst
    cases hst
  | woken hw _ hactive _ hstatus =>
    obtain rfl := Option.some.inj (hwakes.symm.trans hw)
    rw [hstatus, if_pos rfl]
    intro heq
    rw [Option.some.inj heq] at hactive
    cases hactive
  | crashed hcut => cases hcut

/-- The calls `terminate` leaves are those its abort does not reject. -/
theorem delivered_after_terminate {k : ℕ} {x : Call} {p : Option Json} {t : Millis}
    (hx : w.mem.calls.get? k = some x) (hs : x.susp = .delivered p t) :
    (terminate w id).mem.calls.get? k = some x := by
  show (w.mem.abortRegistered id).calls.get? k = some x
  simp only [Memory.abortRegistered]
  split
  · simp only [Memory.abort]
    split
    · exact hx
    · rw [Table.get?_filter, hx]
      simp [Option.filter, hs, Suspension.abortable]
  · exact hx

/-! ### The results -/

/-- **Termination is final.** After `terminate` in a state that can be reached, the status
stays `terminated` in all runs without a `restart` of the instance and without a wait that
an ended execution left behind, exactly if `terminate` was clean. -/
theorem terminated_iff (hreach : Reaches (act cfg) unguarded .init w)
    (hterm : act cfg w (.op (.terminate id)) = some w₁)
    (hst : w₁.db.status id = some .terminated) :
    (∀ w₂, Reaches (act cfg) (keepsHalted cfg id) w₁ w₂ → w₂.db.status id = some .terminated) ↔
      TerminatesCleanly w id := by
  have hw := coherent_of_reaches hreach
  constructor
  · intro hall
    have hw₁ : w₁ = w.after (terminate w id) := (Option.some.inj hterm).symm
    have hexecs : w₁.mem.toExecutions = w.mem.toExecutions.abortRegistered id := by
      rw [hw₁]
      exact Memory.abortRegistered_toExecutions ..
    refine ⟨?_, ?_⟩
    · intro c hd
      by_contra hne
      have hd₁ : w₁.mem.toExecutions.drives c id := by
        rw [hexecs]
        exact Executions.drives_abortRegistered.mpr ⟨hne, hd⟩
      obtain ⟨w₂, hreach₂, hbad⟩ := exists_rewrite_of_drives cfg hst hd₁
      exact hbad (hall w₂ hreach₂)
    · intro k x p t hx hid hs
      have hx₁ : w₁.mem.calls.get? k = some x := by
        rw [hw₁]
        exact delivered_after_terminate hx hs
      obtain ⟨w₂, hreach₂, hbad⟩ :=
        exists_rewrite_of_delivered cfg (hw.act hterm).linked hst hx₁ hid hs
      exact hbad (hall w₂ hreach₂)
  · intro hclean w₂ hrun
    exact (hrun.invariant (hclean.halted hw hterm hst) fun _ _ _ hI hok hstep =>
      hI.step hok.1 hok.2 hstep).status

/-- An instance that is terminated while its only execution runs. -/
theorem terminated_iff_of_running :
    ∃ w w₁, Reaches (act .defaults) unguarded .init w ∧
      act .defaults w (.op (.terminate "a")) = some w₁ ∧
      ((∀ w₂, Reaches (act .defaults) (keepsHalted .defaults "a") w₁ w₂ →
        w₂.db.status "a" = some .terminated) ↔ TerminatesCleanly w "a") := by
  have hrun : (play (restrict (act .defaults) unguarded) .init
      [.op (.create (some "a") none)]).any
      (fun w => (act .defaults w (.op (.terminate "a"))).any
        fun w₁ => w₁.db.status "a" = some .terminated) = true := by
    decide
  obtain ⟨w, hreach, hw⟩ := exists_reaches_of_play hrun
  obtain ⟨w₁, hterm, hst⟩ := Option.any_eq_true _ _ |>.mp hw
  exact ⟨w, w₁, hreach, hterm, terminated_iff hreach hterm (of_decide_eq_true hst)⟩

/-- The execution of a restarted instance, whose registration the `finally` block of the old
one has deleted, completes after `terminate`. -/
theorem not_terminated :
    ¬ ∀ w w₁ w₂ id, Reaches (act .defaults) unguarded .init w →
      act .defaults w (.op (.terminate id)) = some w₁ →
      w₁.db.status id = some .terminated →
      Reaches (act .defaults) (fun _ a => a.restarts id = false) w₁ w₂ →
      w₂.db.status id = some .terminated := by
  intro hall
  have hrun : (play (restrict (act .defaults) unguarded) .init
      [.op (.create (some "a") none), .op (.call 0 (.sleep "s" (.text "1 hour"))),
        .op (.enter 0), .op (.restart "a" none),
        .op (.runSettles 0 (.threw ⟨"Error", terminatedMessage⟩)), .op (.runEnds 0)]).any
      (fun w => (act .defaults w (.op (.terminate "a"))).any fun w₁ =>
        w₁.db.status "a" = some .terminated &&
        (play (restrict (act .defaults) fun _ a => a.restarts "a" = false) w₁
          [.op (.runSettles 1 (.returned (.ok none))), .op (.runEnds 1)]).any
          fun w₂ => w₂.db.status "a" = some .complete) = true := by
    decide
  obtain ⟨w, hreach, hw⟩ := exists_reaches_of_play hrun
  obtain ⟨w₁, hterm, hw₁⟩ := Option.any_eq_true _ _ |>.mp hw
  obtain ⟨hst, hw₂⟩ := Bool.and_eq_true _ _ |>.mp hw₁
  obtain ⟨w₂, hreach₂, hcomplete⟩ := exists_reaches_of_play hw₂
  have hkeep := hall w w₁ w₂ "a" hreach hterm (of_decide_eq_true hst) hreach₂
  rw [of_decide_eq_true hcomplete] at hkeep
  exact absurd hkeep (by decide)

end Lopata.Workflow
