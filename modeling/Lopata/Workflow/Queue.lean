import Lopata.Workflow.Moves

/-!
# The Concurrency Limit and the Queue

`create` counts the running and waiting instances and queues the new one if the limit is
reached; the end of an execution starts the oldest queued instance. Both halves of that
design can fail. No other step that makes a row active counts: `resume`, `restart`, a wait
that wakes a paused instance, and the end of an execution itself, which starts a queued
instance whether or not it freed a place. And the queue is served by nothing but the end of
an execution, while `create` queues, and a restart of the process keeps rows queued, without
looking whether there is one.

## Main results

* `withinLimit_throughout_iff`: the limit is kept throughout a run exactly when no step of it
  activates a row at the limit.
* `served_throughout_iff`: a queued instance has an execution to wait for throughout a run
  exactly when no step of it queues without one and no stop of the process leaves only
  queued rows.
-/

namespace Lopata.Workflow

variable {cfg : Config} {w w' : World} {a : Action}

/-! ### The concurrency limit -/

/-- The running and waiting instances are no more than the limit, if there is one. -/
def WithinLimit (cfg : Config) (w : World) : Prop :=
  ∀ m, cfg.limits.maxConcurrentInstances = some m → w.db.countRunning ≤ m

/-- The limit is reached by instances other than the one whose execution ends; an aborted
execution leaves the status of its instance. -/
def othersAtLimit (cfg : Config) (w : World) (c : ℕ) (id : String) : Bool :=
  cfg.limits.maxConcurrentInstances.any fun m =>
    m ≤ if w.mem.aborted c then w.db.countRunning else (w.db.activeIds.erase id).card

/-- The step makes a row active that was not, with the limit reached already. -/
def exceeds (cfg : Config) (w : World) : Action → Prop
  | .op (.create ..) => False
  | .op (.resume id) => w.db.status id = some .paused ∧ w.db.atLimit cfg = true
  | .op (.restart id fromStep) =>
      (∃ s, w.db.status id = some s ∧ s.active = false) ∧
        (∀ step, fromStep = some step → step ≠ "" → w.db.steps.get? (id, step) ≠ none) ∧
        w.db.atLimit cfg = true
  | .op (.runEnds c) =>
      ∃ r o, w.mem.runs.get? c = some r ∧ r.phase = .settled o ∧
        (∃ q, statusAfterEnd w c r.instanceId o q = some .queued) ∧
        othersAtLimit cfg w c r.instanceId = true
  | .op o =>
      ∃ id s, wakes cfg w o = some id ∧ w.db.status id = some s ∧ s.active = false ∧
        w.db.atLimit cfg = true
  | _ => False

theorem atLimit_iff : w.db.atLimit cfg = true ↔
    ∃ m, cfg.limits.maxConcurrentInstances = some m ∧ m ≤ w.db.countRunning := by
  simp only [Db.atLimit]
  cases cfg.limits.maxConcurrentInstances <;> simp

/-- No row became active. -/
theorem countRunning_le (h : ∀ id s, w'.db.status id = some s → s.active = true →
    ∃ s₀, w.db.status id = some s₀ ∧ s₀.active = true) :
    w'.db.countRunning ≤ w.db.countRunning := by
  rw [← Db.card_activeIds, ← Db.card_activeIds]
  refine Finset.card_le_card ?_
  intro id hid
  obtain ⟨s, hs, hact⟩ := Db.mem_activeIds.mp hid
  exact Db.mem_activeIds.mpr (h id s hs hact)

theorem WithinLimit.of_le (h : WithinLimit cfg w)
    (hle : w'.db.countRunning ≤ w.db.countRunning) : WithinLimit cfg w' :=
  fun m hm => hle.trans (h m hm)

/-- One row became active: the limit is kept exactly if it was not reached. -/
theorem withinLimit_iff_of_activated {n : ℕ} (hcount : w'.db.countRunning = n + 1) :
    WithinLimit cfg w' ↔ ¬ ∃ m, cfg.limits.maxConcurrentInstances = some m ∧ m ≤ n := by
  constructor
  · rintro h' ⟨m, hm, hn⟩
    have := h' m hm
    omega
  · intro hnot m hm
    have hn : ¬ m ≤ n := fun hn => hnot ⟨m, hm, hn⟩
    omega

/-- A row set to an active status: the count after it. -/
theorem countRunning_of_set {id : String} {s : Status} (hact : s.active = true)
    (hstatus : ∀ id', w'.db.status id' = if id' = id then some s else w.db.status id') :
    w'.db.countRunning = (insert id w.db.activeIds).card := by
  rw [← Db.card_activeIds]
  congr 1
  ext id'
  rw [Finset.mem_insert, Db.mem_activeIds, Db.mem_activeIds, hstatus]
  by_cases heq : id' = id
  · simp [heq, hact]
  · simp [heq]

/-- A row set to an active status keeps the limit exactly if it was active before or the
limit was not reached. -/
theorem WithinLimit.iff_of_set (h : WithinLimit cfg w) {id : String} {s s₀ : Status}
    (hrow : w.db.status id = some s₀) (hact : s.active = true)
    (hstatus : ∀ id', w'.db.status id' = if id' = id then some s else w.db.status id') :
    WithinLimit cfg w' ↔ ¬ (s₀.active = false ∧ w.db.atLimit cfg = true) := by
  have hcount := countRunning_of_set hact hstatus
  cases hact₀ : s₀.active with
  | true =>
    have hmem : id ∈ w.db.activeIds := Db.mem_activeIds.mpr ⟨s₀, hrow, hact₀⟩
    rw [Finset.insert_eq_of_mem hmem, Db.card_activeIds] at hcount
    exact iff_of_true (h.of_le hcount.le) fun hnot => nomatch hnot.1
  | false =>
    have hmem : id ∉ w.db.activeIds := by
      intro hid
      obtain ⟨s', hs', hact'⟩ := Db.mem_activeIds.mp hid
      rw [hrow, Option.some.injEq] at hs'
      rw [← hs', hact₀] at hact'
      cases hact'
    rw [Finset.card_insert_of_notMem hmem, Db.card_activeIds] at hcount
    rw [withinLimit_iff_of_activated hcount, atLimit_iff]
    simp

/-- The active instances after the end of an execution that starts a queued one. -/
theorem activeIds_dequeued {c : ℕ} {id q : String} {o : Outcome}
    (hstatus : ∀ id', w'.db.status id' =
      if id' = q then some .running else statusAfterEnd w c id o id') :
    w'.db.activeIds =
      insert q (if w.mem.aborted c then w.db.activeIds else w.db.activeIds.erase id) := by
  ext id'
  rw [Finset.mem_insert, Db.mem_activeIds, hstatus]
  by_cases heq : id' = q
  · simp [heq, Status.active]
  · rw [if_neg heq]
    simp only [statusAfterEnd]
    cases hab : w.mem.aborted c with
    | true => simp [heq, getD_endStatus_of_aborted, Db.mem_activeIds]
    | false =>
      by_cases hid : id' = id
      · subst hid
        have hnone : ¬ ∃ s, (w.db.status id').map (fun s => (endStatus false o).getD s) =
            some s ∧ s.active = true := by
          rintro ⟨s, hs, hact⟩
          obtain ⟨s₀, -, rfl⟩ := Option.map_eq_some_iff.mp hs
          rw [not_active_endStatus] at hact
          cases hact
        simp only [if_true, hnone, heq, Bool.false_eq_true, if_false, Finset.mem_erase,
          ne_eq, not_true_eq_false, false_and, or_self]
      · simp [heq, hid, Db.mem_activeIds]

/-- The started instance was not active. -/
theorem notMem_of_queued {c : ℕ} {id q : String} {o : Outcome}
    (hqueued : statusAfterEnd w c id o q = some .queued) :
    q ∉ if w.mem.aborted c then w.db.activeIds else w.db.activeIds.erase id := by
  have hstatus : ∀ s, w.db.status q = some s → s.active = true →
      w.mem.aborted c = false ∧ q = id := by
    intro s hs hact
    simp only [statusAfterEnd] at hqueued
    split at hqueued
    · next heq =>
        rw [hs, Option.map_some, Option.some.injEq] at hqueued
        cases hab : w.mem.aborted c with
        | true =>
          rw [hab, getD_endStatus_of_aborted] at hqueued
          rw [hqueued] at hact
          cases hact
        | false => exact ⟨rfl, heq⟩
    · rw [hs, Option.some.injEq] at hqueued
      rw [hqueued] at hact
      cases hact
  intro hmem
  cases hab : w.mem.aborted c with
  | true =>
    rw [hab, if_pos rfl] at hmem
    obtain ⟨s, hs, hact⟩ := Db.mem_activeIds.mp hmem
    have := (hstatus s hs hact).1
    rw [hab] at this
    cases this
  | false =>
    rw [hab, if_neg (by decide)] at hmem
    obtain ⟨hne, hmem⟩ := Finset.mem_erase.mp hmem
    obtain ⟨s, hs, hact⟩ := Db.mem_activeIds.mp hmem
    exact hne (hstatus s hs hact).2

/-- The step of an execution's end that starts a queued instance. -/
theorem withinLimit_iff_of_dequeued {c : ℕ} {id q : String}
    {o : Outcome} (hqueued : statusAfterEnd w c id o q = some .queued)
    (hstatus : ∀ id', w'.db.status id' =
      if id' = q then some .running else statusAfterEnd w c id o id') :
    WithinLimit cfg w' ↔ ¬ othersAtLimit cfg w c id = true := by
  have hcount : w'.db.countRunning =
      (if w.mem.aborted c then w.db.countRunning else (w.db.activeIds.erase id).card) + 1 := by
    rw [← Db.card_activeIds, activeIds_dequeued hstatus,
      Finset.card_insert_of_notMem (notMem_of_queued hqueued)]
    split
    · rw [Db.card_activeIds]
    · rfl
  rw [withinLimit_iff_of_activated hcount]
  simp only [othersAtLimit]
  cases cfg.limits.maxConcurrentInstances <;> simp

/-- The retention cleanup takes no active instance. -/
theorem Expired.activeIds_eq {db db' : Db} (h : Expired db db') :
    db'.activeIds = db.activeIds := by
  ext id
  rw [Db.mem_activeIds, Db.mem_activeIds]
  constructor
  · rintro ⟨s, hs, hact⟩
    exact ⟨s, h.status_of_some hs, hact⟩
  · rintro ⟨s, hs, hact⟩
    refine ⟨s, h.status_eq hs ?_, hact⟩
    cases s <;> first | rfl | cases hact

/-- `create` starts an instance only below the limit. -/
theorem withinLimit_of_created {db : Db} {id : String}
    (hexp : Expired w.db db) (hlimit : w.db.atLimit cfg = false)
    (hstatus : ∀ id', w'.db.status id' = if id' = id then some .running else db.status id') :
    WithinLimit cfg w' := by
  have hcount : w'.db.countRunning = (insert id w.db.activeIds).card := by
    rw [← hexp.activeIds_eq]
    exact countRunning_of_set (w := { w with db := db }) rfl hstatus
  have hle := Finset.card_insert_le id w.db.activeIds
  rw [← hcount, Db.card_activeIds] at hle
  intro m hm
  have hbelow : ¬ m ≤ w.db.countRunning := by
    intro hn
    have := atLimit_iff.mpr ⟨m, hm, hn⟩
    rw [hlimit] at this
    cases this
  omega

/-- Among the step operations those that wake an inactive row at the limit exceed it. -/
theorem exceeds_of_isStepOp {o : Op} (ho : o.isStepOp = true) :
    exceeds cfg w (.op o) ↔ ∃ id s, wakes cfg w o = some id ∧ w.db.status id = some s ∧
      s.active = false ∧ w.db.atLimit cfg = true := by
  cases o <;> first | exact Iff.rfl | cases ho

/-- **The step lemma.** The limit is kept exactly when the step does not activate a row at
the limit. -/
theorem WithinLimit.step_iff (h : WithinLimit cfg w) (hfree : a.crashFree = true)
    (hm : Moved cfg w a w') : WithinLimit cfg w' ↔ ¬ exceeds cfg w a := by
  cases hm with
  | ticked _ hstatus =>
    refine iff_of_true (h.of_le (countRunning_le ?_)) id
    exact fun id s hs hact => ⟨s, hstatus id ▸ hs, hact⟩
  | calm hstep hwakes _ hstatus =>
    refine iff_of_true (h.of_le (countRunning_le ?_)) ?_
    · exact fun id s hs hact => ⟨s, hstatus id ▸ hs, hact⟩
    · rw [exceeds_of_isStepOp hstep]
      rintro ⟨id, s, hw, hrow, -⟩
      rw [hwakes id hw] at hrow
      cases hrow
  | @woken o id s _ hwakes hrow hactive _ hstatus =>
    obtain ⟨s₀, hs₀⟩ := Option.ne_none_iff_exists'.mp hrow
    rw [h.iff_of_set hs₀ hactive hstatus, exceeds_of_isStepOp (isStepOp_of_wakes hwakes)]
    simp [hwakes, hs₀]
  | rejected _ _ hexp =>
    refine iff_of_true (h.of_le (countRunning_le ?_)) id
    exact fun id s hs hact => ⟨s, hexp.status_of_some hs, hact⟩
  | queued _ hexp _ _ _ hstatus =>
    refine iff_of_true (h.of_le (countRunning_le ?_)) id
    intro id s hs hact
    rw [hstatus] at hs
    split at hs
    · obtain rfl := Option.some.inj hs
      cases hact
    · exact ⟨s, hexp.status_of_some hs, hact⟩
  | created _ hexp _ hlimit _ hstatus =>
    exact iff_of_true (withinLimit_of_created hexp hlimit hstatus) id
  | paused _ hstatus =>
    refine iff_of_true (h.of_le (countRunning_le ?_)) ?_
    · intro id s hs hact
      rw [hstatus] at hs
      split at hs
      · obtain ⟨s₀, hs₀, rfl⟩ := Option.map_eq_some_iff.mp hs
        split at hact
        · cases hact
        · exact ⟨s₀, hs₀, hact⟩
      · exact ⟨s, hs, hact⟩
    · rintro ⟨id, s, hw, -⟩
      cases hw
  | @resumed id s _ hactive _ hstatus =>
    by_cases hp : w.db.status id = some .paused
    · have hst : ∀ id', w'.db.status id' = if id' = id then some s else w.db.status id' := by
        intro id'
        rw [hstatus]
        split
        · next heq =>
            rw [heq, hp]
            rfl
        · rfl
      rw [h.iff_of_set hp hactive hst]
      simp [exceeds, hp, Status.active]
    · refine iff_of_true (h.of_le (countRunning_le ?_)) fun hex => hp hex.1
      intro id' s' hs' hact'
      rw [hstatus] at hs'
      split at hs'
      · next heq =>
          obtain ⟨s₀, hs₀, rfl⟩ := Option.map_eq_some_iff.mp hs'
          have hne : s₀ ≠ .paused := by
            rintro rfl
            exact hp (heq ▸ hs₀)
          rw [if_neg hne] at hact'
          exact ⟨s₀, hs₀, hact'⟩
      · exact ⟨s', hs', hact'⟩
  | terminated _ hstatus =>
    refine iff_of_true (h.of_le (countRunning_le ?_)) ?_
    · intro id' s hs hact
      rw [hstatus] at hs
      split at hs
      · obtain ⟨s₀, -, rfl⟩ := Option.map_eq_some_iff.mp hs
        cases s₀ <;> cases hact
      · exact ⟨s, hs, hact⟩
    · rintro ⟨id, s, hw, -⟩
      cases hw
  | restartMissing hrow _ hstatus =>
    refine iff_of_true (h.of_le (countRunning_le ?_)) ?_
    · exact fun id s hs hact => ⟨s, hstatus id ▸ hs, hact⟩
    · rintro ⟨⟨s, hs, -⟩, -⟩
      rw [hrow] at hs
      cases hs
  | restartFailed _ hne hnone _ hstatus =>
    refine iff_of_true (h.of_le (countRunning_le ?_)) ?_
    · exact fun id s hs hact => ⟨s, hstatus id ▸ hs, hact⟩
    · rintro ⟨-, hfound, -⟩
      exact hfound _ rfl hne hnone
  | @restarted id fromStep _ _ _ hrow hfound _ hstatus =>
    obtain ⟨s₀, hs₀⟩ := Option.ne_none_iff_exists'.mp hrow
    rw [h.iff_of_set hs₀ rfl hstatus]
    have hok : ∀ step, fromStep = some step → step ≠ "" →
        ¬ w.db.steps.get? (id, step) = none := hfound
    simp only [exceeds, hs₀, Option.some.injEq, exists_eq_left', ne_eq]
    tauto
  | settled _ _ _ hstatus =>
    refine iff_of_true (h.of_le (countRunning_le ?_)) ?_
    · exact fun id s hs hact => ⟨s, hstatus id ▸ hs, hact⟩
    · rintro ⟨id, s, hw, -⟩
      cases hw
  | @ended c r o _ hrun hphase _ hnone hstatus =>
    refine iff_of_true (h.of_le (countRunning_le ?_)) ?_
    · intro id s hs hact
      rw [hstatus, statusAfterEnd] at hs
      split at hs
      · obtain ⟨s₀, hs₀, rfl⟩ := Option.map_eq_some_iff.mp hs
        cases hab : w.mem.aborted c with
        | true =>
          rw [hab, getD_endStatus_of_aborted] at hact
          exact ⟨s₀, hs₀, hact⟩
        | false =>
          rw [hab, not_active_endStatus] at hact
          cases hact
      · exact ⟨s, hs, hact⟩
    · rintro ⟨r', o', hr', hphase', ⟨q, hq⟩, -⟩
      obtain rfl := Option.some.inj (hrun.symm.trans hr')
      obtain rfl := Phase.settled.inj (hphase.symm.trans hphase')
      exact hnone q hq
  | @dequeued c r o q p t _ hrun hphase hqueued _ hstatus =>
    rw [withinLimit_iff_of_dequeued hqueued hstatus]
    refine not_congr ⟨fun hlim => ⟨r, o, hrun, hphase, ⟨q, hqueued⟩, hlim⟩, ?_⟩
    rintro ⟨r', o', hr', -, -, hlim⟩
    obtain rfl := Option.some.inj (hrun.symm.trans hr')
    exact hlim
  | crashed hcut =>
    cases a with
    | op | tick => cases hcut
    | _ => cases hfree

theorem withinLimit_init : WithinLimit cfg World.init :=
  fun _ _ => Nat.zero_le _

/-- **The concurrency limit.** In a run without stops of the process the limit is kept
throughout exactly when no step activates a row at the limit. -/
theorem withinLimit_throughout_iff (cfg : Config) (as : List Action) :
    Throughout (restrict (act cfg) fun _ a => a.crashFree = true) (WithinLimit cfg) .init as ↔
      Along (restrict (act cfg) fun _ a => a.crashFree = true)
        (fun w a => ¬ exceeds cfg w a) .init as := by
  refine throughout_iff_along (J := fun _ => True) trivial withinLimit_init
    (fun _ _ _ _ _ _ => trivial) ?_
  intro w a w' _ hI hstep
  simp only [restrict] at hstep
  split at hstep
  · next hfree => exact hI.step_iff hfree (act_moves hstep)
  · cases hstep

/-- The limits of a workflow that runs one instance at a time. -/
def Config.oneAtATime : Config :=
  { Config.defaults with limits := { workflowDefaults with maxConcurrentInstances := some 1 } }

/-- An instance is paused, another takes its place, the first is resumed. -/
theorem not_withinLimit :
    ¬ ∀ w, Reaches (act .oneAtATime) (fun _ a => a.crashFree = true) .init w →
      WithinLimit .oneAtATime w := by
  intro hall
  have hrun : (play (restrict (act .oneAtATime) fun _ a => a.crashFree = true) .init
      [.op (.create (some "a") none), .op (.pause "a"), .op (.create (some "b") none),
        .op (.resume "a")]).any (fun w => w.db.countRunning = 2) = true := by
    decide
  obtain ⟨w, hreach, htwo⟩ := exists_reaches_of_play hrun
  have hle := hall w hreach 1 rfl
  rw [of_decide_eq_true htwo] at hle
  exact absurd hle (by decide)

/-! ### Queued instances -/

/-- Some execution has not ended. -/
def Executions.someUnended (e : Executions) : Bool :=
  e.runs.rows.any fun p => p.2.phase.unended

/-- If an instance is queued, some execution has not ended, and its end will start one. -/
def Served (w : World) : Prop :=
  ∀ id, w.db.status id = some .queued → w.mem.someUnended = true

/-- The step leaves a queued instance with no execution to wait for: `create` queues one, the
limit being reached although every execution has ended, or the process stops when an
instance is queued and none is running or waiting. -/
def strandsQueue (cfg : Config) (w : World) : Action → Prop
  | .op (.create id? _) =>
      createAccepts cfg w id? = true ∧ w.db.atLimit cfg = true ∧ w.mem.someUnended = false
  | a => ∃ w₀, crashPoint cfg w a = some w₀ ∧ (∃ id, w₀.db.status id = some .queued) ∧
      w₀.db.countRunning = 0

theorem Executions.someUnended_iff {e : Executions} :
    e.someUnended = true ↔ ∃ c r, e.runs.get? c = some r ∧ r.phase.unended = true := by
  simp only [someUnended, List.any_eq_true, Prod.exists, Table.mem_rows_iff]

theorem Executions.someUnended_launch (e : Executions) (id : String) (p : Json) (t : Millis) :
    (e.launch id p t).someUnended = true :=
  someUnended_iff.mpr ⟨e.nextController, _, Table.get?_insert_self _ _ _, rfl⟩

/-- The same executions, in the same phases. -/
theorem someUnended_of_runs_eq {e e' : Executions} (h : e'.runs = e.runs) :
    e'.someUnended = e.someUnended := by
  rw [Executions.someUnended, h, Executions.someUnended]

/-- A move that queues no instance and ends no execution. -/
theorem Served.of_runs_eq (h : Served w)
    (hruns : w'.mem.toExecutions.runs = w.mem.toExecutions.runs)
    (hqueued : ∀ id, w'.db.status id = some .queued → w.db.status id = some .queued) :
    Served w' := by
  intro id hid
  rw [someUnended_of_runs_eq hruns]
  exact h id (hqueued id hid)

/-- A move that starts an execution. -/
theorem served_of_launch {e : Executions} {id : String} {p : Json} {t : Millis}
    (hexecs : w'.mem.toExecutions = e.launch id p t) : Served w' := by
  intro id' _
  rw [hexecs]
  exact e.someUnended_launch id p t

/-- After a restart of the process the executions are those of the active rows. -/
theorem served_iff_of_resumed {w₀ : World} (h : Resumed w₀ w') :
    Served w' ↔ ¬ ((∃ id, w₀.db.status id = some .queued) ∧ w₀.db.countRunning = 0) := by
  have hqueued : ∀ id, w'.db.status id = some .queued ↔ w₀.db.status id = some .queued := by
    intro id
    rw [h.status]
    cases w₀.db.status id with
    | none => simp
    | some s => cases s <;> simp [Status.active]
  have hunended : w'.mem.someUnended = true ↔ w₀.db.countRunning ≠ 0 := by
    rw [Executions.someUnended_iff, ← Db.card_activeIds, Finset.card_ne_zero]
    constructor
    · rintro ⟨c, r, hr, -⟩
      exact ⟨r.instanceId, Db.mem_activeIds.mpr (h.started.run c r hr).2.2⟩
    · rintro ⟨id, hid⟩
      obtain ⟨c, r, hr, -, hun, -⟩ := h.started.driven id (Db.mem_activeIds.mp hid)
      exact ⟨c, r, hr, hun⟩
  constructor
  · rintro hserved ⟨⟨id, hid⟩, hzero⟩
    exact hunended.mp (hserved id ((hqueued id).mpr hid)) hzero
  · intro hnot id hid
    exact hunended.mpr fun hzero => hnot ⟨⟨id, (hqueued id).mp hid⟩, hzero⟩

/-- An operation is no stop of the process. -/
theorem not_strandsQueue_op {o : Op} (ho : ∀ id? params, o ≠ .create id? params) :
    ¬ strandsQueue cfg w (.op o) := by
  cases o with
  | create id? params => exact absurd rfl (ho id? params)
  | _ =>
    rintro ⟨w₀, hcut, -⟩
    cases hcut

/-- **The step lemma.** Queued instances stay served exactly when the step strands none. -/
theorem Served.step_iff (h : Served w) (hm : Moved cfg w a w') :
    Served w' ↔ ¬ strandsQueue cfg w a := by
  cases hm with
  | ticked hexecs hstatus =>
    refine iff_of_true (h.of_runs_eq (congrArg Executions.runs hexecs) ?_) ?_
    · exact fun id hid => hstatus id ▸ hid
    · rintro ⟨w₀, hcut, -⟩
      cases hcut
  | calm hstep _ hexecs hstatus =>
    refine iff_of_true (h.of_runs_eq (congrArg Executions.runs hexecs) ?_)
      (not_strandsQueue_op ?_)
    · exact fun id hid => hstatus id ▸ hid
    · rintro id? params rfl
      cases hstep
  | woken hwakes _ hactive hexecs hstatus =>
    refine iff_of_true (h.of_runs_eq (congrArg Executions.runs hexecs) ?_)
      (not_strandsQueue_op ?_)
    · intro id hid
      rw [hstatus] at hid
      split at hid
      · obtain rfl := Option.some.inj hid
        cases hactive
      · exact hid
    · rintro id? params rfl
      cases hwakes
  | rejected haccepts hexecs hexp =>
    refine iff_of_true (h.of_runs_eq (congrArg Executions.runs hexecs) ?_) ?_
    · exact fun id hid => hexp.status_of_some hid
    · rintro ⟨hacc, -⟩
      rw [haccepts] at hacc
      cases hacc
  | @queued _ _ id _ _ haccepts hexp _ hlimit hexecs hstatus =>
    have hruns : w'.mem.toExecutions.runs = w.mem.toExecutions.runs := by
      rw [hexecs]
      rfl
    have hid : w'.db.status id = some .queued := by rw [hstatus, if_pos rfl]
    constructor
    · rintro h' ⟨-, -, hnot⟩
      have := h' id hid
      rw [someUnended_of_runs_eq hruns, hnot] at this
      cases this
    · intro hnot id' _
      rw [someUnended_of_runs_eq hruns]
      by_contra hun
      exact hnot ⟨haccepts, hlimit, Bool.not_eq_true _ ▸ hun⟩
  | created _ _ _ hlimit hexecs =>
    refine iff_of_true (served_of_launch hexecs) ?_
    rintro ⟨-, hlim, -⟩
    rw [hlimit] at hlim
    cases hlim
  | paused hexecs hstatus =>
    refine iff_of_true (h.of_runs_eq (congrArg Executions.runs hexecs) ?_)
      (not_strandsQueue_op fun _ _ h => by cases h)
    intro id hid
    rw [hstatus] at hid
    split at hid
    · obtain ⟨s, hs, heq⟩ := Option.map_eq_some_iff.mp hid
      cases s <;> first | exact hs | cases heq
    · exact hid
  | resumed hactive hexecs hstatus =>
    refine iff_of_true (h.of_runs_eq (congrArg Executions.runs hexecs) ?_)
      (not_strandsQueue_op fun _ _ h => by cases h)
    intro id hid
    rw [hstatus] at hid
    split at hid
    · obtain ⟨s, hs, heq⟩ := Option.map_eq_some_iff.mp hid
      split at heq
      · rw [heq] at hactive
        cases hactive
      · rw [hs, heq]
    · exact hid
  | terminated hexecs hstatus =>
    refine iff_of_true (h.of_runs_eq ?_ ?_) (not_strandsQueue_op fun _ _ h => by cases h)
    · rw [hexecs, Executions.runs_abortRegistered]
    · intro id hid
      rw [hstatus] at hid
      split at hid
      · obtain ⟨s, -, heq⟩ := Option.map_eq_some_iff.mp hid
        cases s <;> cases heq
      · exact hid
  | restartMissing _ hexecs hstatus =>
    refine iff_of_true (h.of_runs_eq (congrArg Executions.runs hexecs) ?_)
      (not_strandsQueue_op fun _ _ h => by cases h)
    exact fun id hid => hstatus id ▸ hid
  | @restartFailed id _ _ _ _ _ hexecs hstatus =>
    refine iff_of_true (h.of_runs_eq ?_ ?_) (not_strandsQueue_op fun _ _ h => by cases h)
    · rw [hexecs]
      exact Executions.runs_abortRegistered
    · exact fun id hid => hstatus id ▸ hid
  | restarted _ _ hexecs =>
    exact iff_of_true (served_of_launch hexecs) (not_strandsQueue_op fun _ _ h => by cases h)
  | @settled c r o _ hrun hphase hexecs hstatus =>
    refine iff_of_true ?_ (not_strandsQueue_op fun _ _ h => by cases h)
    intro id _
    rw [hexecs, Executions.someUnended_iff]
    exact ⟨c, _, by rw [Executions.setPhase, Table.get?_modify_self, hrun]; rfl, rfl⟩
  | ended _ _ _ hnone hstatus =>
    refine iff_of_true ?_ (not_strandsQueue_op fun _ _ h => by cases h)
    intro id hid
    rw [hstatus] at hid
    exact absurd hid (hnone id)
  | dequeued _ _ _ hexecs =>
    exact iff_of_true (served_of_launch hexecs) (not_strandsQueue_op fun _ _ h => by cases h)
  | @crashed a w₀ _ hcut hresumed =>
    rw [served_iff_of_resumed hresumed]
    cases a with
    | op | tick => cases hcut
    | _ => simp [strandsQueue, hcut]

theorem served_init : Served World.init := by
  intro id hid
  cases hid

/-- **No stranded queue.** In a run a queued instance has an execution to wait for
throughout exactly when no step strands the queue. -/
theorem served_throughout_iff (cfg : Config) (as : List Action) :
    Throughout (act cfg) Served .init as ↔
      Along (act cfg) (fun w a => ¬ strandsQueue cfg w a) .init as :=
  throughout_iff_along (J := fun _ => True) trivial served_init (fun _ _ _ _ _ _ => trivial)
    (fun _ _ _ _ hI hstep => hI.step_iff (act_moves hstep))

/-- The process stops while the only started instance is paused and another one is queued
behind it. -/
theorem not_served :
    ¬ ∀ w, Reaches (act .oneAtATime) unguarded .init w → Served w := by
  intro hall
  have hrun : (play (restrict (act .oneAtATime) unguarded) .init
      [.op (.create (some "a") none), .op (.create (some "b") none), .op (.pause "a"),
        .crash []]).any
      (fun w => w.db.status "b" = some .queued ∧ w.mem.someUnended = false) = true := by
    decide
  obtain ⟨w, hreach, hw⟩ := exists_reaches_of_play hrun
  obtain ⟨hqueued, hnot⟩ := of_decide_eq_true hw
  have := hall w hreach "b" hqueued
  rw [hnot] at this
  cases this

end Lopata.Workflow
