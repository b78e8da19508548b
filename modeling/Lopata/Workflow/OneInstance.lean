import Lopata.Workflow.Ledger
import Lopata.Workflow.References

/-!
# The Life of One Instance

A database with the row of one instance, and the steps of this instance: nothing is ever
queued, the process has at most one execution, and nothing aborts it. Once the execution has
ended, the row stays finished unless a wait that was left behind wakes it.

## Main results

* `Solo`, `Solo.step`: the invariant and its step lemma.
* `Solo.finished_step`, `Solo.finished_of_ended`: what becomes of a finished row.
-/

namespace Lopata.Workflow

variable {cfg : Config} {id : String} {w w' : World} {a : Action}

/-- The only instance of the database, with at most one execution in the process. -/
structure Solo (id : String) (w : World) : Prop where
  coherent : w.Coherent
  rows : ∀ id' s, w.db.status id' = some s → id' = id
  run : ∀ c r, w.mem.runs.get? c = some r → r.instanceId = id
  single : ∀ c c' r r', w.mem.runs.get? c = some r → w.mem.runs.get? c' = some r' → c = c'
  row : ∀ c r, w.mem.runs.get? c = some r → (w.db.status id).isSome = true
  notAborted : ∀ c, w.mem.aborted c = false

/-- A call belongs to the instance. -/
theorem Solo.instanceId (h : Solo id w) {k : ℕ} {x : Call} (hk : w.mem.calls.get? k = some x) :
    x.instanceId = id := by
  obtain ⟨r, hr, hrid⟩ := h.coherent.linked.run k x hk
  exact hrid ▸ h.run _ _ hr

/-- All calls belong to one execution. -/
theorem Solo.same_run (h : Solo id w) {k k' : ℕ} {x x' : Call}
    (hk : w.mem.calls.get? k = some x) (hk' : w.mem.calls.get? k' = some x') : x.run = x'.run := by
  obtain ⟨r, hr, -⟩ := h.coherent.linked.run k x hk
  obtain ⟨r', hr', -⟩ := h.coherent.linked.run k' x' hk'
  exact h.single _ _ _ _ hr hr'

/-- The rows and the executions are the same up to statuses and phases. -/
theorem Solo.congr (h : Solo id w) (hw : w'.Coherent)
    (hstatus : ∀ id', (w'.db.status id').isSome = (w.db.status id').isSome)
    (hrun : ∀ c r', w'.mem.runs.get? c = some r' →
      ∃ r, w.mem.runs.get? c = some r ∧ r'.instanceId = r.instanceId)
    (haborted : w'.mem.aborted = w.mem.aborted) : Solo id w' where
  coherent := hw
  rows id' s hs := by
    have hsome : (w.db.status id').isSome = true := by rw [← hstatus, hs]; rfl
    obtain ⟨s', hs'⟩ := Option.isSome_iff_exists.mp hsome
    exact h.rows id' s' hs'
  run c r' hr' := by
    obtain ⟨r, hr, hid⟩ := hrun c r' hr'
    exact hid ▸ h.run c r hr
  single c c' r r' hr hr' := by
    obtain ⟨_, hr, -⟩ := hrun c r hr
    obtain ⟨_, hr', -⟩ := hrun c' r' hr'
    exact h.single _ _ _ _ hr hr'
  row c r' hr' := by
    obtain ⟨r, hr, -⟩ := hrun c r' hr'
    rw [hstatus]
    exact h.row c r hr
  notAborted c := by
    rw [haborted]
    exact h.notAborted c

/-- The phases of the executions do not matter. -/
theorem exists_run_of_setPhase {e : Executions} {c c' : ℕ} {p : Phase} {r' : Run}
    (h : (e.setPhase c p).runs.get? c' = some r') :
    ∃ r, e.runs.get? c' = some r ∧ r'.instanceId = r.instanceId := by
  simp only [Executions.setPhase, Table.get?_modify] at h
  split at h
  · obtain ⟨r, hr, rfl⟩ := Option.map_eq_some_iff.mp h
    exact ⟨r, hr, rfl⟩
  · exact ⟨r', h, rfl⟩

/-- The end of an execution that is not aborted writes a finished status. -/
theorem finished_endStatus (outcome : Outcome) (s : Status) :
    ((endStatus false outcome).getD s).finished = true := by
  rcases outcome with (_ | _) | _ <;> rfl

/-- An execution that ends leaves nothing queued. -/
theorem Solo.not_queued (h : Solo id w) {c : ℕ} {r : Run} (hr : w.mem.runs.get? c = some r)
    (outcome : Outcome) (q : String) :
    statusAfterEnd w c r.instanceId outcome q ≠ some .queued := by
  intro hq
  rw [statusAfterEnd, h.run c r hr, h.notAborted c] at hq
  split at hq
  · obtain ⟨s, -, hs⟩ := Option.map_eq_some_iff.mp hq
    have hfin := finished_endStatus outcome s
    rw [hs] at hfin
    cases hfin
  · next hne => exact hne (h.rows q _ hq)

/-- The row after the end of the execution. -/
theorem isSome_statusAfterEnd {c : ℕ} {id : String} {outcome : Outcome} (id' : String) :
    (statusAfterEnd w c id outcome id').isSome = (w.db.status id').isSome := by
  simp only [statusAfterEnd]
  split
  · exact Option.isSome_map
  · rfl

/-! ### Stops of the process -/

/-- The statements that neither make nor delete a row. -/
def Stmt.keepsRows : Stmt → Bool
  | .insertInstance .. | .deleteExpired .. => false
  | _ => true

theorem isSome_status_exec {db : Db} {s : Stmt} (h : s.keepsRows = true) (id' : String) :
    ((exec db s).status id').isSome = (db.status id').isSome := by
  by_cases hkeep : s.keepsInstances = true
  · simp only [Db.status, exec_instances hkeep]
  · cases s with
    | insertInstance | deleteExpired => cases h
    | setStatus | setStatusFrom | complete | fail | storeError | resetInstance =>
      simp only [Db.status, exec, Table.get?_modify, Option.isSome_map]
      split
      · exact Option.isSome_map
      · rfl
    | _ => exact absurd rfl hkeep

theorem isSome_status_execAll {db : Db} {ss : List Stmt} (h : ∀ s ∈ ss, s.keepsRows = true)
    (id' : String) : ((execAll db ss).status id').isSome = (db.status id').isSome := by
  induction ss generalizing db with
  | nil => rfl
  | cons s ss ih =>
    rw [execAll_cons, ih fun s' hs' => h s' (List.mem_cons_of_mem s hs'),
      isSome_status_exec (h s List.mem_cons_self)]

/-- A step of one instance neither makes nor deletes a row. -/
theorem segment_keepsRows {o : Op} {g : Seg} (hwithin : o.within id = true)
    (hg : segment cfg w o = some g) : ∀ s ∈ g.stmts, s.keepsRows = true := by
  by_cases hstep : o.isStepOp = true
  · obtain ⟨-, hstmts⟩ := segment_stepOp hstep hg
    intro s hs
    have hallowed := hstmts s hs
    cases hw : wakes cfg w o with
    | none =>
      rw [hw] at hallowed
      cases s <;> first | rfl | cases hallowed
    | some id' =>
      rw [hw] at hallowed
      cases s <;> first | rfl | cases hallowed
  · cases o with
    | pause | resume =>
      obtain rfl := Option.some.inj hg
      intro s hs
      obtain rfl := List.mem_singleton.mp hs
      rfl
    | runSettles c outcome =>
      obtain ⟨r, -, hg⟩ := Option.bind_eq_some_iff.mp hg
      split at hg
      · obtain rfl := Option.some.inj hg
        exact forall_mem_nil_kind
      · cases hg
    | runEnds c =>
      obtain ⟨r, -, hg⟩ := Option.bind_eq_some_iff.mp hg
      split at hg
      · next outcome _ =>
          obtain rfl := Option.some.inj hg
          have hend : ∀ s ∈ endStmts (w.mem.aborted c) r.instanceId w.clock outcome,
              s.keepsRows = true := by
            rcases outcome with (_ | _) | _ <;> cases w.mem.aborted c <;>
              simp [endStmts, Stmt.keepsRows]
          rcases executeEnd_cases w c r outcome with
            ⟨-, hstmts, -⟩ | ⟨q, row, -, -, -, hstmts, -⟩
          · rw [hstmts]
            exact hend
          · rw [hstmts]
            intro s hs
            rcases List.mem_append.mp hs with hs | hs
            · exact hend s hs
            · obtain rfl := List.mem_singleton.mp hs
              rfl
      · cases hg
    | create | terminate | restart => cases hwithin
    | _ => exact absurd rfl hstep

/-- Where the process stops, the rows are there as before. -/
theorem isSome_status_crashPoint {w₀ : World} (hwithin : a.within id = true)
    (hcut : crashPoint cfg w a = some w₀) (id' : String) :
    (w₀.db.status id').isSome = (w.db.status id').isSome := by
  cases a with
  | op | tick => cases hcut
  | crash again =>
    obtain rfl := Option.some.inj hcut
    rfl
  | crashIn o n again =>
    obtain ⟨g, hg, rfl⟩ := Option.map_eq_some_iff.mp hcut
    exact isSome_status_execAll
      (fun s hs => segment_keepsRows hwithin hg s (List.mem_of_mem_take hs)) id'

/-- A restart of the process. -/
theorem Solo.resumed (h : Solo id w) {w₀ : World} (hw : w'.Coherent)
    (hstatus : ∀ id', (w₀.db.status id').isSome = (w.db.status id').isSome)
    (hres : Resumed w₀ w') : Solo id w' := by
  have hsome : ∀ id', (w'.db.status id').isSome = (w.db.status id').isSome := by
    intro id'
    rw [hres.status, Option.isSome_map, hstatus]
  have hrows : ∀ id', (w'.db.status id').isSome = true → id' = id := by
    intro id' hs
    obtain ⟨s, hs⟩ := Option.isSome_iff_exists.mp (hsome id' ▸ hs)
    exact h.rows id' s hs
  have hrun : ∀ c r, w'.mem.runs.get? c = some r →
      w'.mem.abortControllers id = some c ∧ r.instanceId = id ∧
        (w'.db.status id).isSome = true := by
    intro c r hr
    obtain ⟨-, hreg, s, hs, -⟩ := hres.started.run c r hr
    have hrow : (w'.db.status r.instanceId).isSome = true := by
      rw [hsome, ← hstatus, hs]
      rfl
    have hid := hrows _ hrow
    rw [hid] at hreg hrow
    exact ⟨hreg, hid, hrow⟩
  exact {
    coherent := hw
    rows := fun id' s hs => hrows id' (by rw [hs]; rfl)
    run := fun c r hr => (hrun c r hr).2.1
    single := fun c c' r r' hr hr' =>
      Option.some.inj ((hrun c r hr).1.symm.trans (hrun c' r' hr').1)
    row := fun c r hr => (hrun c r hr).2.2
    notAborted := hres.started.notAborted }

/-! ### Steps -/

/-- **The step lemma.** -/
theorem Solo.step (h : Solo id w) (hwithin : a.within id = true) (hstep : act cfg w a = some w') :
    Solo id w' := by
  have hw := h.coherent.act hstep
  have hsame : w'.mem.toExecutions = w.mem.toExecutions → ∀ c r', w'.mem.runs.get? c = some r' →
      ∃ r, w.mem.runs.get? c = some r ∧ r'.instanceId = r.instanceId := by
    intro hexecs c r' hr'
    exact ⟨r', hexecs ▸ hr', rfl⟩
  cases act_moves hstep with
  | ticked hexecs hstatus | calm _ _ hexecs hstatus =>
    exact h.congr hw (fun id' => by rw [hstatus]) (hsame hexecs) (by rw [hexecs])
  | woken _ hrow _ hexecs hstatus =>
    refine h.congr hw ?_ (hsame hexecs) (by rw [hexecs])
    intro id'
    rw [hstatus]
    split
    · next hid =>
        subst hid
        exact (Option.isSome_iff_ne_none.mpr hrow).symm
    · rfl
  | paused hexecs hstatus | resumed _ hexecs hstatus =>
    refine h.congr hw ?_ (hsame hexecs) (by rw [hexecs])
    intro id'
    rw [hstatus]
    split
    · exact Option.isSome_map
    · rfl
  | settled hrun _ hexecs hstatus =>
    refine h.congr hw (fun id' => by rw [hstatus]) ?_ (by rw [hexecs]; rfl)
    intro c r' hr'
    rw [hexecs] at hr'
    exact exists_run_of_setPhase hr'
  | ended hrun _ hexecs _ hstatus =>
    refine h.congr hw (fun id' => by rw [hstatus, isSome_statusAfterEnd]) ?_ (by rw [hexecs]; rfl)
    intro c r' hr'
    rw [hexecs] at hr'
    exact exists_run_of_setPhase hr'
  | dequeued hrun _ hqueued => exact absurd hqueued (h.not_queued hrun _ _)
  | crashed hcut hresumed => exact h.resumed hw (isSome_status_crashPoint hwithin hcut) hresumed
  | rejected | queued | created | terminated | restartMissing | restartFailed | restarted =>
    cases hwithin

/-- A finished row stays finished unless a wait wakes it. -/
theorem Solo.finished_step (h : Solo id w) {o : Op} (hwithin : o.within id = true)
    (hwakes : wakes cfg w o = none) (hstep : act cfg w (.op o) = some w') {s : Status}
    (hs : w.db.status id = some s) (hfin : s.finished = true) :
    ∃ s', w'.db.status id = some s' ∧ s'.finished = true := by
  cases act_moves hstep with
  | calm _ _ _ hstatus | settled _ _ _ hstatus => exact ⟨s, (hstatus id).trans hs, hfin⟩
  | woken hw => cases hwakes.symm.trans hw
  | paused _ hstatus | resumed _ _ hstatus =>
    refine ⟨s, ?_, hfin⟩
    rw [hstatus, hs]
    split
    · cases s <;> first | rfl | cases hfin
    · rfl
  | @ended c r outcome _ hrun _ _ _ hstatus =>
    rw [hstatus, statusAfterEnd, h.run c r hrun, if_pos rfl, hs, h.notAborted]
    exact ⟨_, rfl, finished_endStatus outcome s⟩
  | dequeued hrun _ hqueued => exact absurd hqueued (h.not_queued hrun _ _)
  | crashed hcut => cases hcut
  | rejected | queued | created | terminated | restartMissing | restartFailed | restarted =>
    cases hwithin

/-- The row is finished when its execution has ended. -/
theorem Solo.finished_of_ended (h : Solo id w) {c : ℕ}
    (hstep : act cfg w (.op (.runEnds c)) = some w') :
    ∃ s, w'.db.status id = some s ∧ s.finished = true := by
  cases act_moves hstep with
  | @ended c r outcome _ hrun _ _ _ hstatus =>
    obtain ⟨s, hs⟩ := Option.isSome_iff_exists.mp (h.row c r hrun)
    rw [hstatus, statusAfterEnd, h.run c r hrun, if_pos rfl, hs, h.notAborted]
    exact ⟨_, rfl, finished_endStatus outcome s⟩
  | dequeued hrun _ hqueued => exact absurd hqueued (h.not_queued hrun _ _)
  | crashed hcut => cases hcut
  | calm hstep => cases hstep
  | woken hwakes => cases hwakes

/-- `create` on a database without rows, in a process without executions. -/
theorem solo_create (hw : w.Coherent) (hrows : ∀ id', w.db.status id' = none)
    (hruns : ∀ c, w.mem.runs.get? c = none) (hab : ∀ c, w.mem.aborted c = false)
    (params : Option Json) : Solo id (w.after (create cfg w (some id) params)) := by
  have hcoherent : (w.after (create cfg w (some id) params)).Coherent :=
    hw.act (a := .op (.create (some id) params)) (rfl : act cfg w _ = some _)
  have hclean : ∀ id', (execAll w.db (cleanupRetentionExpired cfg w.db w.clock)).status id' =
      none := by
    intro id'
    rcases expired_cleanup cfg w.db w.clock id' with heq | ⟨hnone, -⟩
    · exact heq.trans (hrows id')
    · exact hnone
  rcases create_cases cfg w (some id) params with
    ⟨-, hstmts, hexecs⟩ | ⟨id₀, row, hid, -, -, -, -, hstmts, hcase⟩
  · have hnone : ∀ c, (create cfg w (some id) params).mem.runs.get? c = none := by
      intro c
      rw [hexecs]
      exact hruns c
    refine ⟨hcoherent, ?_, ?_, ?_, ?_, ?_⟩
    · intro id' s hs
      rw [World.after, hstmts, hclean] at hs
      cases hs
    · intro c r hr
      cases (hnone c).symm.trans hr
    · intro c _ r _ hr
      cases (hnone c).symm.trans hr
    · intro c r hr
      cases (hnone c).symm.trans hr
    · intro c
      rw [World.after, hexecs]
      exact hab c
  · replace hid : id₀ = id := hid
    subst hid
    have hstatus : ∀ id', (w.after (create cfg w (some id₀) params)).db.status id' =
        if id' = id₀ then some row.status else none := by
      intro id'
      rw [World.after, hstmts, execAll_append, execAll_cons, execAll_nil,
        status_exec_insertInstance, hclean]
    have hrun : ∀ c r, (create cfg w (some id₀) params).mem.runs.get? c = some r →
        c = w.mem.nextController ∧ r.instanceId = id₀ := by
      intro c r hr
      rcases hcase with ⟨-, -, hexecs⟩ | ⟨-, -, hexecs⟩
      · rw [hexecs] at hr
        cases (hruns c).symm.trans hr
      · rw [hexecs] at hr
        simp only [Executions.launch, Table.get?_insert, hruns] at hr
        split at hr
        · next hc =>
            obtain rfl := Option.some.inj hr
            exact ⟨hc, rfl⟩
        · cases hr
    refine ⟨hcoherent, ?_, ?_, ?_, ?_, ?_⟩
    · intro id' s hs
      rw [hstatus] at hs
      split at hs
      · assumption
      · cases hs
    · intro c r hr
      exact (hrun c r hr).2
    · intro c c' r r' hr hr'
      exact (hrun c r hr).1.trans (hrun c' r' hr').1.symm
    · intro c r hr
      rw [hstatus, if_pos rfl]
      rfl
    · intro c
      rcases hcase with ⟨-, -, hexecs⟩ | ⟨-, -, hexecs⟩ <;>
      · rw [World.after, hexecs]
        exact hab c

/-- The instance right after `create`. -/
theorem solo_start (cfg : Config) (id : String) (params : Option Json) (now : ℕ) :
    Solo id (Ledger.start cfg id params now).world :=
  solo_create (w := { World.init with clock := now }) ⟨wf_init, Memory.linked_empty⟩
    (fun _ => rfl) (fun _ => rfl) (fun _ => rfl) params

end Lopata.Workflow
