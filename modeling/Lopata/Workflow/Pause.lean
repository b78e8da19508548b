import Lopata.Workflow.Attempts

/-!
# Pausing

`pause` writes a status, and every step method looks at it once, before it begins. Nothing else
does: a retry, an event that has been delivered, a method that has looked already and the end of
`run()` go on while the row says `paused`.

## Main results

* `invoked_after`: which operations start a callback.
* `paused_throughout_iff`: once `pause` has returned no callback starts and the row says `paused`
  until the instance is resumed, terminated or restarted, exactly in the runs in which nothing of
  this happens to a paused instance, and `pause` finds it running, waiting or paused.
* `not_paused`: an event that is delivered, and a retry, after `pause`.
-/

namespace Lopata.Workflow

variable (cfg : Config)

/-! ### Callbacks that start -/

/-- The callback of a `do` is running. -/
def Suspension.invoking : Suspension → Bool
  | .callback _ _ _ => true
  | _ => false

/-- The call is a `do` that passes its checks, is not cached and has an attempt left. -/
def Call.startsCallback (w : World) (x : Call) : Bool :=
  (x.startsLoop cfg w).any fun p => p.2 ≤ p.1.maxRetries

/-- The instance for which an operation starts a callback. -/
def invokes (w : World) : Op → Option String
  | .enter k =>
      (w.mem.calls.get? k).bind fun x =>
        match x.susp with
        | .entered => if x.startsCallback cfg w then some x.instanceId else none
        | _ => none
  | .retry k =>
      (w.mem.calls.get? k).bind fun x =>
        match x.susp with
        | .retryDelay plan attempt due =>
            if due.all (fun d => d ≤ w.clock) && decide (attempt + 1 ≤ plan.maxRetries) &&
                !w.mem.aborted x.run then some x.instanceId
            else none
        | _ => none
  | _ => none

/-- The instance whose callback is running in call `k`. -/
def Memory.invoking (m : Memory) (k : ℕ) : Option String :=
  (m.calls.get? k).bind fun x => if x.susp.invoking then some x.instanceId else none

/-- The instance for which an operation has started a callback. -/
def invoked (w' : World) : Op → Option String
  | .enter k | .retry k => w'.mem.invoking k
  | _ => none

variable {cfg} {w w' : World} {m : Memory} {k : ℕ} {x : Call} {g : Seg} {o : Op} {ss : List Stmt}

/-- A continuation that has nothing to do with a retry loop starts no callback. -/
theorem Seg.Plain.invoking (h : g.Plain k) : g.mem.invoking k = none := by
  unfold Memory.invoking
  cases hx : g.mem.calls.get? k with
  | none => rfl
  | some x =>
    have hloop := h.calls x hx
    rw [Option.bind_some]
    split
    · next hinvoking =>
        cases hs : x.susp with
        | callback =>
          rw [hs] at hloop
          cases hloop
        | _ =>
          rw [hs] at hinvoking
          cases hinvoking
    · rfl

/-- The head of the retry loop starts a callback if an attempt is left. -/
theorem invoking_attemptLoop (hx : m.calls.get? k = some x) {plan : RetryPlan} {attempt : ℕ} :
    (attemptLoop w m k x plan attempt none).mem.invoking k =
      if attempt ≤ plan.maxRetries ∧ w.mem.aborted x.run = false then some x.instanceId
      else none := by
  have hsettle : (m.settle k).invoking k = none := by
    unfold Memory.invoking Memory.settle
    rw [Table.get?_erase, if_pos rfl]
    rfl
  rcases attemptLoop_cases w m k x plan attempt
    with ⟨hover, heq⟩ | ⟨hleft, ⟨haborted, heq⟩ | ⟨hlive, heq⟩⟩
  · rw [heq, if_neg fun h => absurd h.1 (not_le.mpr hover)]
    exact hsettle
  · rw [heq, if_neg fun h => absurd (haborted.symm.trans h.2) Bool.noConfusion]
    exact hsettle
  · rw [heq, if_pos ⟨hleft, hlive⟩]
    unfold Memory.invoking Memory.suspend
    rw [Table.get?_modify_self, hx]
    rfl

/-- A method after `checkPaused` starts a callback if it is a `do` that comes to it. -/
theorem invoking_enter (hx : w.mem.calls.get? k = some x) :
    (enter cfg w k x).mem.invoking k =
      if x.startsCallback cfg w then some x.instanceId else none := by
  rcases enter_cases cfg w k x with
    ⟨plan, attempt, m, hloop, ⟨i, rfl⟩, heq⟩ | ⟨hloop, hplain⟩
  · have hx' : ({ w.mem with impls := i } : Memory).calls.get? k = some x := hx
    rw [heq, invoking_attemptLoop hx']
    simp [Call.startsCallback, hloop, (startsLoop_spec hloop).1]
  · rw [hplain.invoking]
    simp [Call.startsCallback, hloop]

/-- **Callbacks that start.** -/
theorem invoked_after (hg : segment cfg w o = some g) : invoked (w.after g) o = invokes cfg w o := by
  cases o with
  | enter k =>
    obtain ⟨x, hx, hg⟩ := Option.bind_eq_some_iff.mp hg
    simp only [callSegment] at hg
    split at hg
    · next hsusp =>
        obtain rfl := Option.some.inj hg
        simp only [invokes, hx, Option.bind_some, hsusp]
        exact invoking_enter hx
    · cases hg
  | retry k =>
    obtain ⟨x, hx, hg⟩ := Option.bind_eq_some_iff.mp hg
    simp only [callSegment] at hg
    split at hg
    · next plan attempt due hsusp =>
        split at hg
        · next hdue =>
            obtain rfl := Option.some.inj hg
            simp only [invokes, hx, Option.bind_some, hsusp, hdue]
            refine (invoking_attemptLoop hx).trans ?_
            simp
        · cases hg
    · cases hg
  | _ => rfl

/-! ### Statements and paused rows -/

/-- The statement leaves a paused row of the instance paused. -/
def Stmt.sparesPaused (id : String) : Stmt → Bool
  | .insertInstance id' _ | .setStatus id' _ _ | .complete id' _ _ | .fail id' _ _ _
  | .resetInstance id' _ => id' ≠ id
  | .setStatusFrom id' status guard _ => id' ≠ id || status = .paused || !guard .paused
  | _ => true

/-- The statement makes no row a paused one. -/
def Stmt.neverPauses : Stmt → Bool
  | .insertInstance _ row => row.status ≠ .paused
  | .setStatus _ status _ | .setStatusFrom _ status _ _ => status ≠ .paused
  | _ => true

theorem Stmt.sparesPaused_of_keepsInstances {s : Stmt} (h : s.keepsInstances = true)
    (id : String) : s.sparesPaused id = true := by
  cases s <;> first | rfl | cases h

/-- A statement that wakes another instance. -/
theorem Stmt.sparesPaused_of_wakesOnly {s : Stmt} {id other : String}
    (h : s.wakesOnly other = true) (hne : other ≠ id) : s.sparesPaused id = true := by
  cases s with
  | setStatus id' status now =>
    rw [Stmt.wakesOnly, Bool.and_eq_true, decide_eq_true_eq] at h
    exact decide_eq_true (h.1 ▸ hne)
  | _ => first | rfl | cases h

theorem Stmt.neverPauses_of_wakesOnly {s : Stmt} {id : String} (h : s.wakesOnly id = true) :
    s.neverPauses = true := by
  cases s with
  | setStatus id' status now =>
    have hactive : status.active = true := by
      rw [Stmt.wakesOnly, Bool.and_eq_true] at h
      exact h.2
    cases status <;> first | rfl | cases hactive
  | _ => first | rfl | cases h

/-- The status after a statement that rewrites one row. -/
theorem status_modify {db : Db} {id id' : String} {f : InstanceRow → InstanceRow} :
    ({ db with instances := db.instances.modify id f } : Db).status id' =
      if id' = id then (db.instances.get? id').map fun r => (f r).status else db.status id' := by
  simp only [Db.status, Table.get?_modify]
  split
  · next heq =>
      subst heq
      rw [Option.map_map]
      rfl
  · rfl

theorem paused_exec {db : Db} {s : Stmt} {id : String} (hs : s.sparesPaused id = true)
    (h : db.status id = some .paused) : (exec db s).status id = some .paused := by
  obtain ⟨row, hrow, hpaused⟩ := Option.map_eq_some_iff.mp h
  by_cases hkeeps : s.keepsInstances = true
  · rw [Db.status, exec_instances hkeeps]
    exact h
  · cases s with
    | insertInstance id' row' =>
      have hne : id' ≠ id := of_decide_eq_true hs
      rw [status_exec_insertInstance, if_neg (Ne.symm hne)]
      exact h
    | deleteExpired cutoff =>
      simp only [Db.status, exec, Table.get?_filter, hrow]
      rw [Option.filter_some]
      simp [hpaused, Status.expirable]
    | setStatus id' status now =>
      have hne : id' ≠ id := of_decide_eq_true hs
      rw [status_exec_setStatus, if_neg (Ne.symm hne)]
      exact h
    | setStatusFrom id' status guard now =>
      rw [status_exec_setStatusFrom, h]
      split
      · next heq =>
          simp only [Stmt.sparesPaused, heq, ne_eq, not_true_eq_false, decide_false,
            Bool.false_or, Bool.or_eq_true, decide_eq_true_eq, Bool.not_eq_true'] at hs
          rcases hs with hst | hguard
          · rw [hst, Option.map_some, ite_self]
          · rw [Option.map_some, hguard]
            rfl
      · rfl
    | complete id' output now =>
      have hne : id' ≠ id := of_decide_eq_true hs
      exact status_modify.trans ((if_neg (Ne.symm hne)).trans h)
    | fail id' message name now =>
      have hne : id' ≠ id := of_decide_eq_true hs
      exact status_modify.trans ((if_neg (Ne.symm hne)).trans h)
    | storeError id' message name now =>
      refine status_modify.trans ?_
      split
      · rw [hrow]
        exact congrArg some hpaused
      · exact h
    | resetInstance id' now =>
      have hne : id' ≠ id := of_decide_eq_true hs
      rw [status_exec_resetInstance, if_neg (Ne.symm hne)]
      exact h
    | _ => exact absurd rfl hkeeps

theorem paused_execAll {db : Db} {id : String} (hss : ∀ s ∈ ss, s.sparesPaused id = true)
    (h : db.status id = some .paused) : (execAll db ss).status id = some .paused := by
  induction ss generalizing db with
  | nil => exact h
  | cons s ss ih =>
    exact ih (fun s' hs' => hss s' (List.mem_cons_of_mem s hs'))
      (paused_exec (hss s List.mem_cons_self) h)

theorem not_paused_exec {db : Db} {s : Stmt} {id : String} (hs : s.neverPauses = true)
    (h : db.status id ≠ some .paused) : (exec db s).status id ≠ some .paused := by
  by_cases hkeeps : s.keepsInstances = true
  · rw [Db.status, exec_instances hkeeps]
    exact h
  · cases s with
    | insertInstance id' row' =>
      have hne : row'.status ≠ .paused := of_decide_eq_true hs
      rw [status_exec_insertInstance]
      split
      · exact fun heq => hne (Option.some.inj heq)
      · exact h
    | deleteExpired cutoff =>
      simp only [Db.status, exec, Table.get?_filter]
      intro heq
      obtain ⟨row, hrow, hpaused⟩ := Option.map_eq_some_iff.mp heq
      refine h ?_
      rw [Db.status, (Option.filter_eq_some_iff.mp hrow).1]
      exact congrArg some hpaused
    | setStatus id' status now =>
      have hne : status ≠ .paused := of_decide_eq_true hs
      rw [status_exec_setStatus]
      split
      · intro heq
        obtain ⟨_, -, heq⟩ := Option.map_eq_some_iff.mp heq
        exact hne heq
      · exact h
    | setStatusFrom id' status guard now =>
      have hne : status ≠ .paused := of_decide_eq_true hs
      rw [status_exec_setStatusFrom]
      split
      · intro heq
        obtain ⟨old, hold, heq⟩ := Option.map_eq_some_iff.mp heq
        split at heq
        · exact hne heq
        · exact h (hold.trans (congrArg some heq))
      · exact h
    | complete id' output now =>
      intro heq
      have heq := status_modify.symm.trans heq
      split at heq
      · obtain ⟨_, -, heq⟩ := Option.map_eq_some_iff.mp heq
        cases heq
      · exact h heq
    | fail id' message name now =>
      intro heq
      have heq := status_modify.symm.trans heq
      split at heq
      · obtain ⟨_, -, heq⟩ := Option.map_eq_some_iff.mp heq
        cases heq
      · exact h heq
    | storeError id' message name now =>
      intro heq
      have heq := status_modify.symm.trans heq
      split at heq <;> exact h heq
    | resetInstance id' now =>
      rw [status_exec_resetInstance]
      split
      · intro heq
        obtain ⟨_, -, heq⟩ := Option.map_eq_some_iff.mp heq
        cases heq
      · exact h
    | _ => exact absurd rfl hkeeps

theorem not_paused_execAll {db : Db} {id : String} (hss : ∀ s ∈ ss, s.neverPauses = true)
    (h : db.status id ≠ some .paused) : (execAll db ss).status id ≠ some .paused := by
  induction ss generalizing db with
  | nil => exact h
  | cons s ss ih =>
    exact ih (fun s' hs' => hss s' (List.mem_cons_of_mem s hs'))
      (not_paused_exec (hss s List.mem_cons_self) h)

/-! ### Statuses that are overwritten -/

variable (cfg) in
/-- The instance whose status an operation of an execution overwrites. -/
def overwrites (w : World) : Op → Option String
  | .runEnds c =>
      (w.mem.runs.get? c).bind fun r =>
        match r.phase with
        | .settled _ => if w.mem.aborted c then none else some r.instanceId
        | _ => none
  | o => wakes cfg w o

/-- The operation ends a pause of the instance. -/
def Op.releases (o : Op) (id : String) : Bool :=
  match o with
  | .resume id' | .terminate id' | .restart id' _ => id' = id
  | _ => false

theorem sparesPaused_cleanup {db : Db} {now : Millis} {id : String} :
    ∀ s ∈ cleanupRetentionExpired cfg db now, s.sparesPaused id = true := by
  intro s hs
  unfold cleanupRetentionExpired at hs
  split at hs
  · cases hs
  · rcases List.mem_append.mp hs with hs | hs
    · obtain ⟨id', -, rfl⟩ := List.mem_map.mp hs
      rfl
    · obtain rfl := List.mem_singleton.mp hs
      rfl

/-- A new row is not that of a paused instance. -/
theorem sparesPaused_create {id? : Option String} {params : Option Json} {id : String}
    (hpaused : w.db.status id = some .paused) :
    ∀ s ∈ (create cfg w id? params).stmts, s.sparesPaused id = true := by
  rcases create_cases cfg w id? params with
    ⟨-, hstmts, -⟩ | ⟨new, row, -, -, -, -, hnone, hstmts, -⟩
  · rw [hstmts]
    exact sparesPaused_cleanup
  · rw [hstmts]
    intro s hs
    rcases List.mem_append.mp hs with hs | hs
    · exact sparesPaused_cleanup s hs
    · obtain rfl := List.mem_singleton.mp hs
      refine decide_eq_true fun heq => ?_
      have hkept : (execAll w.db (cleanupRetentionExpired cfg w.db w.clock)).status id =
          some .paused := paused_execAll sparesPaused_cleanup hpaused
      rw [← heq, Db.status, hnone] at hkept
      cases hkept

theorem sparesPaused_executeEnd {c : ℕ} {r : Run} {outcome : Outcome} {id : String}
    (hpaused : w.db.status id = some .paused)
    (hno : w.mem.aborted c = true ∨ r.instanceId ≠ id) :
    ∀ s ∈ (executeEnd w c r outcome).stmts, s.sparesPaused id = true := by
  have hend : ∀ s ∈ endStmts (w.mem.aborted c) r.instanceId w.clock outcome,
      s.sparesPaused id = true := by
    rcases outcome with (err | output) | err <;> cases haborted : w.mem.aborted c <;>
      simp_all [endStmts, Stmt.sparesPaused]
  rcases executeEnd_cases w c r outcome with ⟨-, hstmts, -⟩ | ⟨q, row, hrow, hq, -, hstmts, -⟩
  · rw [hstmts]
    exact hend
  · rw [hstmts]
    intro s hs
    rcases List.mem_append.mp hs with hs | hs
    · exact hend s hs
    · obtain rfl := List.mem_singleton.mp hs
      refine decide_eq_true fun heq => ?_
      have hkept := paused_execAll hend hpaused
      rw [← heq, Db.status, hrow, Option.map_some, hq] at hkept
      cases hkept

/-- Every other operation spares a paused row, statement by statement. -/
theorem sparesPaused_segment {id : String} (hg : segment cfg w o = some g)
    (hpaused : w.db.status id = some .paused) (hno : overwrites cfg w o ≠ some id)
    (hrel : o.releases id = false) : ∀ s ∈ g.stmts, s.sparesPaused id = true := by
  have hstep : o.isStepOp = true → wakes cfg w o ≠ some id →
      ∀ s ∈ g.stmts, s.sparesPaused id = true := by
    intro ho hwakes s hs
    have hs := (segment_stepOp ho hg).stmts s hs
    cases hw : wakes cfg w o with
    | none =>
      rw [hw] at hs
      exact Stmt.sparesPaused_of_keepsInstances hs id
    | some other =>
      rw [hw] at hs hwakes
      exact Stmt.sparesPaused_of_wakesOnly hs fun heq => hwakes (congrArg some heq)
  cases o with
  | create id? params =>
    obtain rfl := Option.some.inj hg
    exact sparesPaused_create hpaused
  | pause id' =>
    obtain rfl := Option.some.inj hg
    intro s hs
    obtain rfl := List.mem_singleton.mp hs
    simp [Stmt.sparesPaused]
  | resume id' | terminate id' =>
    obtain rfl := Option.some.inj hg
    intro s hs
    obtain rfl := List.mem_singleton.mp hs
    have hne : id' ≠ id := of_decide_eq_false hrel
    simp [Stmt.sparesPaused, hne]
  | restart id' fromStep =>
    obtain rfl := Option.some.inj hg
    have hne : id' ≠ id := of_decide_eq_false hrel
    rcases restart_cases w id' fromStep with
      ⟨-, hseg⟩ | ⟨row, -, ⟨step, -, -, -, hstmts, -⟩ | ⟨s₀, hs₀, -, hstmts, -⟩⟩
    · rw [hseg]
      exact List.forall_mem_nil _
    · rw [hstmts]
      exact List.forall_mem_nil _
    · rw [hstmts]
      have hfirst : s₀.sparesPaused id = true := by
        rcases hs₀ with rfl | ⟨t, rfl⟩ <;> rfl
      intro s hs
      simp only [List.mem_cons, List.not_mem_nil, or_false] at hs
      rcases hs with rfl | rfl | rfl
      · exact hfirst
      · rfl
      · exact decide_eq_true hne
  | runSettles c outcome =>
    obtain ⟨r, -, hg⟩ := Option.bind_eq_some_iff.mp hg
    split at hg
    · obtain rfl := Option.some.inj hg
      exact List.forall_mem_nil _
    · cases hg
  | runEnds c =>
    obtain ⟨r, hr, hg⟩ := Option.bind_eq_some_iff.mp hg
    split at hg
    · next outcome hphase =>
        obtain rfl := Option.some.inj hg
        refine sparesPaused_executeEnd hpaused ?_
        by_contra hboth
        rw [not_or, not_not] at hboth
        refine hno ?_
        simp [overwrites, hr, hphase, hboth.1, hboth.2]
    · cases hg
  | _ => exact hstep rfl hno

/-- A wait that starts writes its status first. -/
theorem waitForEventBody_stmts {name ty : String} {timeout : Option Duration}
    (hty : isEventType ty = true) (hnone : w.db.steps.get? (x.instanceId, waitKey name) = none) :
    ∃ rest, (waitForEventBody cfg w m k x name ty timeout).stmts =
      .setStatus x.instanceId .waiting w.clock :: rest := by
  simp only [waitForEventBody]
  rw [hty, hnone]
  simp only [Bool.not_true, Bool.false_eq_true, if_false]
  split
  · simp only [recordEvent]
    split
    · exact ⟨_, rfl⟩
    · exact ⟨_, rfl⟩
  · split
    · exact ⟨_, rfl⟩
    · exact ⟨_, rfl⟩

/-- The first statement of an operation that wakes an instance sets its status. -/
theorem stmts_of_wakes {id : String} (hg : segment cfg w o = some g)
    (ho : wakes cfg w o = some id) :
    ∃ status rest, status.active = true ∧ g.stmts = .setStatus id status w.clock :: rest := by
  cases o with
  | enter k =>
    obtain ⟨x, hx, ho⟩ := Option.bind_eq_some_iff.mp ho
    obtain ⟨x', hx', hg⟩ := Option.bind_eq_some_iff.mp hg
    obtain rfl := Option.some.inj (hx.symm.trans hx')
    simp only [callSegment] at hg
    split at ho
    · next hsusp =>
        split at ho
        · next hstart =>
            rw [hsusp] at hg
            obtain rfl := Option.some.inj hg
            obtain rfl := Option.some.inj ho
            obtain ⟨m, name, ty, timeout, heq, hty, hnone⟩ := enter_of_startsWaiting hstart
            rw [heq]
            exact ⟨.waiting, _, rfl, (waitForEventBody_stmts hty hnone).choose_spec⟩
        · cases ho
    · cases ho
  | eventResume k =>
    obtain ⟨x, hx, ho⟩ := Option.bind_eq_some_iff.mp ho
    obtain ⟨x', hx', hg⟩ := Option.bind_eq_some_iff.mp hg
    obtain rfl := Option.some.inj (hx.symm.trans hx')
    simp only [callSegment] at hg
    split at ho
    · next hmethod hsusp =>
        rw [hmethod, hsusp] at hg
        obtain rfl := Option.some.inj hg
        obtain rfl := Option.some.inj ho
        simp only [eventResume, recordEvent]
        split
        · exact ⟨.running, _, rfl, rfl⟩
        · exact ⟨.running, _, rfl, rfl⟩
    · cases ho
  | _ => cases ho

/-- The statements of an operation that overwrites a status: the first one does, and no other
makes a row a paused one. -/
theorem stmts_of_overwrites {id : String} (hg : segment cfg w o = some g)
    (ho : overwrites cfg w o = some id) :
    ∃ s rest, g.stmts = s :: rest ∧ (exec w.db s).status id ≠ some .paused ∧
      ∀ s' ∈ rest, s'.neverPauses = true := by
  have hwaking : wakes cfg w o = some id →
      ∃ s rest, g.stmts = s :: rest ∧ (exec w.db s).status id ≠ some .paused ∧
        ∀ s' ∈ rest, s'.neverPauses = true := by
    intro hw
    obtain ⟨status, rest, hactive, hstmts⟩ := stmts_of_wakes hg hw
    refine ⟨_, rest, hstmts, fun heq => ?_, fun s' hs' => ?_⟩
    · rw [status_exec_setStatus, if_pos rfl] at heq
      obtain ⟨_, -, rfl⟩ := Option.map_eq_some_iff.mp heq
      cases hactive
    · have hallowed := (segment_stepOp (isStepOp_of_wakes hw) hg).stmts s'
        (hstmts ▸ List.mem_cons_of_mem _ hs')
      rw [hw] at hallowed
      exact Stmt.neverPauses_of_wakesOnly hallowed
  cases o with
  | runEnds c =>
    obtain ⟨r, hr, hg⟩ := Option.bind_eq_some_iff.mp hg
    obtain ⟨r', hr', ho⟩ := Option.bind_eq_some_iff.mp ho
    obtain rfl := Option.some.inj (hr.symm.trans hr')
    split at ho
    · next outcome hphase =>
        rw [hphase] at hg
        obtain rfl := Option.some.inj hg
        split at ho
        · cases ho
        · next hlive =>
            rw [Bool.not_eq_true] at hlive
            obtain rfl := Option.some.inj ho
            obtain ⟨s, rest, hend, hs, hrest⟩ : ∃ s rest,
                endStmts (w.mem.aborted c) r.instanceId w.clock outcome = s :: rest ∧
                (exec w.db s).status r.instanceId ≠ some .paused ∧
                ∀ s' ∈ rest, s'.neverPauses = true := by
              have hcomplete : ∀ output, (exec w.db
                  (.complete r.instanceId output w.clock)).status r.instanceId ≠ some .paused := by
                intro output heq
                have heq := status_modify.symm.trans heq
                rw [if_pos rfl] at heq
                obtain ⟨_, -, heq⟩ := Option.map_eq_some_iff.mp heq
                cases heq
              have hfail : ∀ message name, (exec w.db
                  (.fail r.instanceId message name w.clock)).status r.instanceId ≠
                    some .paused := by
                intro message name heq
                have heq := status_modify.symm.trans heq
                rw [if_pos rfl] at heq
                obtain ⟨_, -, heq⟩ := Option.map_eq_some_iff.mp heq
                cases heq
              rw [hlive]
              rcases outcome with (err | output) | err
              · exact ⟨_, [], rfl, hfail _ _, List.forall_mem_nil _⟩
              · exact ⟨_, [.deleteAttempts r.instanceId], rfl, hcomplete _,
                  fun s' hs' => List.mem_singleton.mp hs' ▸ rfl⟩
              · exact ⟨_, [], rfl, hfail _ _, List.forall_mem_nil _⟩
            rcases executeEnd_cases w c r outcome with
              ⟨-, hstmts, -⟩ | ⟨q, row, -, -, -, hstmts, -⟩
            · exact ⟨s, rest, hstmts.trans hend, hs, hrest⟩
            · refine ⟨s, rest ++ [.setStatus q .running w.clock], ?_, hs, fun s' hs' => ?_⟩
              · rw [hstmts, hend, List.cons_append]
              · rcases List.mem_append.mp hs' with hs' | hs'
                · exact hrest s' hs'
                · exact List.mem_singleton.mp hs' ▸ rfl
    · cases ho
  | _ => exact hwaking ho

/-- After some statements of an operation that overwrites the status of an instance, the instance
is not paused. -/
theorem not_paused_take {id : String} (hg : segment cfg w o = some g)
    (ho : overwrites cfg w o = some id) {n : ℕ} (hn : 0 < n) :
    (execAll w.db (g.stmts.take n)).status id ≠ some .paused := by
  obtain ⟨s, rest, hstmts, hs, hrest⟩ := stmts_of_overwrites hg ho
  obtain ⟨n, rfl⟩ : ∃ n', n = n' + 1 := ⟨n - 1, by omega⟩
  rw [hstmts, List.take_succ_cons, execAll_cons]
  exact not_paused_execAll (fun s' hs' => hrest s' (List.mem_of_mem_take hs')) hs

/-! ### Pauses that are watched -/

/-- The system, the instances that `pause` has returned for and that have not been resumed,
terminated or restarted since, and whether a callback of one of them has started. -/
structure Watched where
  world : World
  held : String → Bool
  started : Bool

def Watched.start : Watched := ⟨.init, fun _ => false, false⟩

/-- `pause` returns. -/
def Action.pauses (a : Action) (id : String) : Bool :=
  match a with
  | .op (.pause id') => id' = id
  | _ => false

/-- Something is called that ends a pause. -/
def Action.releases (a : Action) (id : String) : Bool := a.op?.any fun o => o.releases id

/-- The instance for which a step has started a callback. -/
def Action.invoked (w' : World) : Action → Option String
  | .op o => Workflow.invoked w' o
  | _ => none

variable (cfg) in
def watch (s : Watched) (a : Action) : Option Watched :=
  (act cfg s.world a).map fun w' =>
    { world := w'
      held := fun id => a.pauses id || s.held id && !a.releases id
      started := s.started || (a.invoked w').any s.held }

/-- The row of an instance whose pause holds says so, and none of its callbacks has started. -/
structure Obeyed (s : Watched) : Prop where
  quiet : s.started = false
  paused : ∀ id, s.held id = true → s.world.db.status id = some .paused

variable (cfg) in
/-- What breaks a pause: `pause` does not find the instance running, waiting or paused, an operation
overwrites its status, at least in part, or an operation starts a callback. -/
def breaks (s : Watched) : Action → Prop
  | .op o =>
      (∃ id, o = .pause id ∧ ∀ status, s.world.db.status id = some status →
        status.active = false ∧ status ≠ .paused) ∨
      ∃ id, s.held id = true ∧
        (overwrites cfg s.world o = some id ∨ invokes cfg s.world o = some id)
  | .crashIn o n _ => 0 < n ∧ ∃ id, s.held id = true ∧ overwrites cfg s.world o = some id
  | _ => False

theorem obeyed_start : Obeyed .start := ⟨rfl, fun _ h => by cases h⟩

variable {s s' : Watched} {a : Action}

/-- Nothing that overwrites a status ends a pause. -/
theorem releases_of_overwrites {id : String} (ho : overwrites cfg w o = some id) (id' : String) :
    o.releases id' = false := by
  cases o <;> first | rfl | cases ho

/-- A restart of the process keeps a row paused, and makes no row a paused one. -/
theorem Resumed.paused_iff {id : String} (h : Resumed w w') :
    w'.db.status id = some .paused ↔ w.db.status id = some .paused := by
  rw [h.status]
  cases w.db.status id with
  | none => exact Iff.rfl
  | some status => cases status <;> simp [Status.active]

/-- A pause that is not broken is obeyed. -/
theorem Obeyed.step (h : Obeyed s) (hno : ¬ breaks cfg s a) (hstep : watch cfg s a = some s') :
    Obeyed s' := by
  obtain ⟨w', hact, rfl⟩ := Option.map_eq_some_iff.mp hstep
  have hcrash : ∀ {w₀ : World} {again : List ℕ}, (∀ id, s.held id = true → a.releases id = false →
      w₀.db.status id = some .paused) → (∀ id, a.pauses id = false) → ∀ id,
      (a.pauses id || s.held id && !a.releases id) = true →
        (w₀.resumeAfter again).db.status id = some .paused := by
    intro w₀ again hcut hpauses id hheld
    rw [hpauses id, Bool.false_or, Bool.and_eq_true, Bool.not_eq_true'] at hheld
    exact (resumed_resumeAfter w₀ again).paused_iff.mpr (hcut id hheld.1 hheld.2)
  cases a with
  | tick ms =>
    obtain rfl := Option.some.inj hact
    refine ⟨?_, fun id hheld => h.paused id ?_⟩
    · exact Bool.or_eq_false_iff.mpr ⟨h.quiet, rfl⟩
    · simpa [Action.pauses, Action.releases, Action.op?] using hheld
  | crash again =>
    obtain rfl := Option.some.inj hact
    refine ⟨Bool.or_eq_false_iff.mpr ⟨h.quiet, rfl⟩, hcrash ?_ fun _ => rfl⟩
    exact fun id hheld _ => h.paused id hheld
  | crashIn o n again =>
    obtain ⟨g, hg, rfl⟩ := Option.map_eq_some_iff.mp hact
    refine ⟨Bool.or_eq_false_iff.mpr ⟨h.quiet, rfl⟩, hcrash ?_ fun _ => rfl⟩
    intro id hheld hrel
    show (execAll s.world.db (g.stmts.take n)).status id = some .paused
    cases n with
    | zero => exact h.paused id hheld
    | succ n =>
      have hspares := sparesPaused_segment hg (h.paused id hheld)
        (fun ho => hno ⟨Nat.succ_pos n, id, hheld, ho⟩) hrel
      exact paused_execAll (fun s' hs' => hspares s' (List.mem_of_mem_take hs'))
        (h.paused id hheld)
  | op o =>
    obtain ⟨g, hg, rfl⟩ := Option.map_eq_some_iff.mp hact
    refine ⟨?_, fun id hheld => ?_⟩
    · show (s.started || (Workflow.invoked (s.world.after g) o).any s.held) = false
      rw [h.quiet, Bool.false_or, invoked_after hg]
      cases hinvokes : invokes cfg s.world o with
      | none => rfl
      | some id =>
        rw [Option.any_some, Bool.eq_false_iff]
        exact fun hheld => hno (.inr ⟨id, hheld, .inr hinvokes⟩)
    · have hheld : ((Action.op o).pauses id || s.held id && !o.releases id) = true := hheld
      show (execAll s.world.db g.stmts).status id = some .paused
      by_cases hpause : o = .pause id
      · obtain rfl := hpause
        obtain rfl := Option.some.inj hg
        have hfound : ∃ status, s.world.db.status id = some status ∧
            (status.active = true ∨ status = .paused) := by
          by_contra hnone
          refine hno (.inl ⟨id, rfl, fun status hstatus => ⟨?_, fun heq => ?_⟩⟩)
          · rw [Bool.eq_false_iff]
            exact fun hactive => hnone ⟨status, hstatus, .inl hactive⟩
          · exact hnone ⟨status, hstatus, .inr heq⟩
        obtain ⟨status, hstatus, hwhich⟩ := hfound
        show (exec s.world.db (.setStatusFrom id .paused Status.active
          s.world.clock)).status id = some .paused
        rw [status_exec_setStatusFrom, if_pos rfl, hstatus, Option.map_some]
        rcases hwhich with hactive | rfl
        · rw [hactive]
          rfl
        · rfl
      · have hkept : s.held id = true ∧ o.releases id = false := by
          have hno : (Action.op o).pauses id = false := by
            unfold Action.pauses
            split
            · next id' heq =>
                obtain rfl := Action.op.inj heq
                exact decide_eq_false fun heq => hpause (congrArg Op.pause heq)
            · rfl
          rw [hno, Bool.false_or, Bool.and_eq_true, Bool.not_eq_true'] at hheld
          exact hheld
        exact paused_execAll (sparesPaused_segment hg (h.paused id hkept.1)
          (fun ho => hno (.inr ⟨id, hkept.1, .inl ho⟩)) hkept.2) (h.paused id hkept.1)

/-- A pause that is broken is not obeyed. -/
theorem not_obeyed_of_breaks (hbreaks : breaks cfg s a) (hstep : watch cfg s a = some s') :
    ¬ Obeyed s' := by
  obtain ⟨w', hact, rfl⟩ := Option.map_eq_some_iff.mp hstep
  intro h
  have hstill : ∀ {id : String}, s.held id = true → a.releases id = false →
      w'.db.status id = some .paused := by
    intro id hheld hrel
    refine h.paused id ?_
    show (a.pauses id || s.held id && !a.releases id) = true
    rw [hheld, hrel]
    exact Bool.or_true _
  cases a with
  | tick | crash => exact hbreaks
  | crashIn o n again =>
    obtain ⟨g, hg, rfl⟩ := Option.map_eq_some_iff.mp hact
    obtain ⟨hn, id, hheld, ho⟩ := hbreaks
    have hpaused := hstill hheld (releases_of_overwrites ho id)
    exact not_paused_take hg ho hn ((resumed_resumeAfter _ again).paused_iff.mp hpaused)
  | op o =>
    obtain ⟨g, hg, rfl⟩ := Option.map_eq_some_iff.mp hact
    rcases hbreaks with ⟨id, rfl, hunpausable⟩ | ⟨id, hheld, ho | ho⟩
    · have hpaused := h.paused id (by simp [Action.pauses])
      obtain rfl := Option.some.inj hg
      have hpaused : (exec s.world.db (.setStatusFrom id .paused Status.active
          s.world.clock)).status id = some .paused := hpaused
      rw [status_exec_setStatusFrom, if_pos rfl] at hpaused
      obtain ⟨status, hstatus, heq⟩ := Option.map_eq_some_iff.mp hpaused
      obtain ⟨hinactive, hne⟩ := hunpausable status hstatus
      rw [hinactive] at heq
      exact hne heq
    · have hpaused := hstill hheld (releases_of_overwrites ho id)
      refine not_paused_take hg ho (n := g.stmts.length) ?_ ?_
      · obtain ⟨first, rest, hstmts, -⟩ := stmts_of_overwrites hg ho
        rw [hstmts]
        exact Nat.succ_pos _
      · rw [List.take_length]
        exact hpaused
    · have hquiet : (s.started || (Workflow.invoked (s.world.after g) o).any s.held) = false :=
        h.quiet
      rw [invoked_after hg, ho, Option.any_some, hheld, Bool.or_true] at hquiet
      cases hquiet

/-! ### The results -/

/-- **Pausing.** Once `pause` has returned no callback of the instance starts and its row says
`paused`, until it is resumed, terminated or restarted, exactly in the runs in which nothing breaks
a pause. -/
theorem paused_throughout_iff (cfg : Config) (as : List Action) :
    Throughout (watch cfg) Obeyed .start as ↔
      Along (watch cfg) (fun s a => ¬ breaks cfg s a) .start as :=
  throughout_iff_along (J := fun _ => True) trivial obeyed_start (fun _ _ _ _ _ _ => trivial)
    fun _ _ _ _ h hstep =>
      ⟨fun h' hbreaks => not_obeyed_of_breaks hbreaks hstep h', fun hno => h.step hno hstep⟩

/-- An event arrives for a wait that is paused. -/
def eventWhilePaused : List Action :=
  [.op (.create (some "a") none), .op (.call 0 (.waitForEvent "w" "go" none)), .op (.enter 0),
    .op (.pause "a"), .op (.sendEvent "a" "go" none), .op (.eventResume 0)]

/-- A step that is to be retried is paused. -/
def retryWhilePaused : List Action :=
  [.op (.create (some "a") none),
    .op (.call 0 (.doStep "s" { limit := some 1, delay := some (.ms 1) })), .op (.enter 0),
    .op (.callback 0 (.threw ⟨"Error", "no"⟩)), .op (.pause "a"), .tick 1, .op (.retry 0)]

/-- The event sets the status of the paused instance to `running`; the retry starts a callback. -/
theorem not_paused :
    (∃ s, Reaches (watch .defaults) unguarded .start s ∧
      (s.held "a" = true ∧ s.world.db.status "a" = some .running) ∧ ¬ Obeyed s) ∧
    ∃ s, Reaches (watch .defaults) unguarded .start s ∧
      (s.held "a" = true ∧ s.world.mem.invoking 0 = some "a" ∧ s.started = true) ∧
        ¬ Obeyed s := by
  constructor
  · have hrun : (play (restrict (watch .defaults) unguarded) .start eventWhilePaused).any
        (fun s => decide (s.held "a" = true ∧ s.world.db.status "a" = some .running)) = true := by
      decide +kernel
    obtain ⟨s, hreach, hs⟩ := exists_reaches_of_play hrun
    have hboth := of_decide_eq_true hs
    refine ⟨s, hreach, hboth, fun h => ?_⟩
    cases (h.paused "a" hboth.1).symm.trans hboth.2
  · have hrun : (play (restrict (watch .defaults) unguarded) .start retryWhilePaused).any
        (fun s => decide (s.held "a" = true ∧ s.world.mem.invoking 0 = some "a" ∧
          s.started = true)) = true := by
      decide +kernel
    obtain ⟨s, hreach, hs⟩ := exists_reaches_of_play hrun
    have hall := of_decide_eq_true hs
    refine ⟨s, hreach, hall, fun h => ?_⟩
    cases h.quiet.symm.trans hall.2.2

end Lopata.Workflow
