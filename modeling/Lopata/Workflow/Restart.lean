import Lopata.Workflow.Lifecycle

/-!
# Restarts of the Process

What a stop of the process followed by `resumeInterrupted` leaves: the rows that said
`running` or `waiting` say `running`, every other row is untouched, each of those instances
has one execution, registered and not aborted, and nothing else is in flight. How often
`resumeInterrupted` itself was cut short does not matter.

## Main results

* `Executions.Started`: the executions of a fresh process.
* `Resumed`, `resumed_resumeAfter`: the outcome of a restart.
-/

namespace Lopata.Workflow

/-! ### The executions of a fresh process -/

/-- The executions of a process that has started the instances satisfying `p` and done
nothing else. -/
structure Executions.Started (e : Executions) (p : String → Prop) : Prop where
  wf : e.Wf
  notAborted : ∀ c, e.aborted c = false
  driven : ∀ id, p id → ∃ c, e.drives c id
  run : ∀ c r, e.runs.get? c = some r →
    r.phase = .running ∧ e.abortControllers r.instanceId = some c ∧ p r.instanceId

namespace Executions

variable {e : Executions} {p q : String → Prop}

theorem started_empty : Memory.empty.toExecutions.Started fun _ => False where
  wf :=
    { run := fun _ _ h => nomatch h
      aborted := fun _ h => nomatch h
      registered := fun _ _ h => nomatch h
      owner := fun _ _ _ h => nomatch h }
  notAborted _ := rfl
  driven _ h := h.elim
  run _ _ h := nomatch h

theorem Started.congr (h : e.Started p) (hpq : ∀ id, p id ↔ q id) : e.Started q where
  wf := h.wf
  notAborted := h.notAborted
  driven id hid := h.driven id ((hpq id).mpr hid)
  run c r hr := ⟨(h.run c r hr).1, (h.run c r hr).2.1, (hpq _).mp (h.run c r hr).2.2⟩

/-- Starting one more instance. -/
theorem Started.launch (h : e.Started p) {id : String} (hid : ¬ p id) (params : Json)
    (t : Millis) : (e.launch id params t).Started fun i => i = id ∨ p i where
  wf := h.wf.launch id params t
  notAborted := h.notAborted
  driven id' hid' := by
    rcases hid' with rfl | hp
    · exact ⟨_, (drives_launch h.wf.toFresh params t).mpr (Or.inl ⟨rfl, rfl⟩)⟩
    · obtain ⟨c, hc⟩ := h.driven id' hp
      exact ⟨c, (drives_launch h.wf.toFresh params t).mpr (Or.inr hc)⟩
  run c r hr := by
    simp only [Executions.launch, Table.get?_insert] at hr
    rw [abortControllers_launch]
    split at hr
    · next hc =>
        obtain rfl := Option.some.inj hr
        exact ⟨rfl, hc ▸ registered_register_self, Or.inl rfl⟩
    · obtain ⟨hphase, hreg, hp⟩ := h.run c r hr
      have hne : r.instanceId ≠ id := fun heq => hid (heq ▸ hp)
      exact ⟨hphase, (registered_register_of_ne hne).trans hreg, Or.inr hp⟩

/-- An execution drives its instance exactly if it is the one that was started for it. -/
theorem Started.drives_iff (h : e.Started p) {c : ℕ} {id : String} :
    e.drives c id ↔ e.abortControllers id = some c ∧ p id := by
  constructor
  · rintro ⟨r, hr, rfl, -, -⟩
    exact (h.run c r hr).2
  · rintro ⟨hreg, hp⟩
    obtain ⟨c', hc'⟩ := h.driven id hp
    have hreg' : e.abortControllers id = some c' := by
      obtain ⟨r, hr, rfl, -, -⟩ := hc'
      exact (h.run c' r hr).2.1
    rw [hreg, Option.some.injEq] at hreg'
    exact hreg' ▸ hc'

end Executions

/-! ### `resumeInterrupted` -/

/-- What a restart of the process makes of a row. -/
def InstanceRow.revived (now : Millis) (r : InstanceRow) : InstanceRow :=
  if r.status.active then { r with status := .running, updatedAt := now } else r

@[simp] theorem InstanceRow.status_revived (now : Millis) (r : InstanceRow) :
    (r.revived now).status = if r.status.active then .running else r.status := by
  simp only [InstanceRow.revived]
  split <;> rfl

theorem InstanceRow.revived_revived (now : Millis) (r : InstanceRow) :
    (r.revived now).revived now = r.revived now := by
  by_cases h : r.status.active = true
  · have hrev : r.revived now = { r with status := .running, updatedAt := now } := if_pos h
    rw [hrev]
    exact if_pos rfl
  · have hrev : r.revived now = r := if_neg h
    rw [hrev, hrev]

/-- The rows after the statements of `resumeInterrupted` for some instances. -/
theorem get?_execAll_setRunning (db : Db) (rows : List (String × InstanceRow)) (now : Millis)
    (id : String) :
    (execAll db (rows.map fun p => Stmt.setStatus p.1 .running now)).instances.get? id =
      if id ∈ rows.map Prod.fst then
        (db.instances.get? id).map fun r => { r with status := .running, updatedAt := now }
      else db.instances.get? id := by
  induction rows generalizing db with
  | nil => rfl
  | cons p rows ih =>
    rw [List.map_cons, execAll_cons, ih]
    simp only [exec, Table.get?_modify, List.map_cons, List.mem_cons]
    by_cases hp : id = p.1
    · subst hp
      cases db.instances.get? p.1 <;> simp
    · simp only [if_neg hp, or_iff_right hp]

/-- Any number of the statements of `resumeInterrupted` revive rows or leave them alone. -/
theorem get?_resume_take (w : World) (n : ℕ) (id : String) :
    let db := execAll w.db
      (((w.db.instances.rows.filter fun p => p.2.status.active).map fun p =>
        Stmt.setStatus p.1 .running w.clock).take n)
    db.instances.get? id = w.db.instances.get? id ∨
      db.instances.get? id = (w.db.instances.get? id).map (InstanceRow.revived w.clock) := by
  dsimp only
  rw [← List.map_take, get?_execAll_setRunning]
  split
  · next hmem =>
      obtain ⟨⟨id', r⟩, hr, rfl⟩ := List.mem_map.mp hmem
      obtain ⟨hrow, hact⟩ := List.mem_filter.mp (List.mem_of_mem_take hr)
      rw [Table.mem_rows_iff] at hrow
      refine Or.inr ?_
      simp only at hrow hact
      simp [hrow, InstanceRow.revived, hact]
  · exact Or.inl rfl

/-- All of them revive every row. -/
theorem get?_resume_all (w : World) (id : String) :
    (execAll w.db ((w.db.instances.rows.filter fun p => p.2.status.active).map fun p =>
        Stmt.setStatus p.1 .running w.clock)).instances.get? id =
      (w.db.instances.get? id).map (InstanceRow.revived w.clock) := by
  rw [get?_execAll_setRunning]
  split
  · next hmem =>
      obtain ⟨⟨id', r⟩, hr, rfl⟩ := List.mem_map.mp hmem
      obtain ⟨hrow, hact⟩ := List.mem_filter.mp hr
      rw [Table.mem_rows_iff] at hrow
      simp only at hrow hact
      simp [hrow, InstanceRow.revived, hact]
  · next hmem =>
      cases hr : w.db.instances.get? id with
      | none => rfl
      | some r =>
        have hact : ¬ r.status.active = true := by
          intro hact
          exact hmem (List.mem_map.mpr
            ⟨(id, r), List.mem_filter.mpr ⟨Table.mem_of_get? hr, hact⟩, rfl⟩)
        simp [InstanceRow.revived, hact]

/-- The statements and the process state of a fold of `startRow`. -/
theorem foldl_startRow (now : Millis) (rows : List (String × InstanceRow))
    (g : List Stmt × Memory) (p : String → Prop) (hg : g.2.toExecutions.Started p)
    (hnd : (rows.map Prod.fst).Nodup) (hnew : ∀ q ∈ rows, ¬ p q.1) :
    let g' := rows.foldl (fun g q => startRow now g q.1 q.2) g
    g'.1 = g.1 ++ rows.map (fun q => Stmt.setStatus q.1 .running now) ∧
      g'.2.toExecutions.Started (fun id => p id ∨ id ∈ rows.map Prod.fst) ∧
      g'.2 = { g.2 with toExecutions := g'.2.toExecutions, impls := g'.2.impls } := by
  induction rows generalizing g p with
  | nil => exact ⟨(List.append_nil _).symm, hg.congr fun id => by simp, rfl⟩
  | cons q rows ih =>
    obtain ⟨hq, hnd'⟩ := List.nodup_cons.mp hnd
    have hstart := hg.launch (hnew q List.mem_cons_self) (q.2.params.getD "\x7b\x7d")
      q.2.createdAt
    have hnew' : ∀ q' ∈ rows, ¬ (q'.1 = q.1 ∨ p q'.1) := by
      rintro q' hq' (heq | hp)
      · exact hq (heq ▸ List.mem_map_of_mem hq')
      · exact hnew q' (List.mem_cons_of_mem q hq') hp
    obtain ⟨hstmts, hexecs, hmem⟩ := ih (startRow now g q.1 q.2) _ hstart hnd' hnew'
    refine ⟨?_, ?_, ?_⟩
    · rw [List.foldl_cons, hstmts]
      simp [startRow]
    · refine hexecs.congr fun id => ?_
      simp only [List.map_cons, List.mem_cons]
      tauto
    · rw [List.foldl_cons, hmem]
      rfl

/-- The world after a restart of the process, in terms of the database it found. -/
structure Resumed (w w' : World) : Prop where
  rows : ∀ id, w'.db.instances.get? id =
    (w.db.instances.get? id).map (InstanceRow.revived w.clock)
  steps : w'.db.steps = w.db.steps
  attempts : w'.db.attempts = w.db.attempts
  events : w'.db.events = w.db.events
  started : w'.mem.toExecutions.Started fun id => ∃ s, w.db.status id = some s ∧ s.active = true
  memory : w'.mem = { Memory.empty with
    toExecutions := w'.mem.toExecutions, impls := w'.mem.impls }
  clock : w'.clock = w.clock

/-- Statements that set rows to `running` touch no other table. -/
theorem execAll_setRunning_frame (db : Db) (ss : List Stmt)
    (h : ∀ s ∈ ss, ∃ id now, s = Stmt.setStatus id .running now) :
    (execAll db ss).steps = db.steps ∧ (execAll db ss).attempts = db.attempts ∧
      (execAll db ss).events = db.events := by
  induction ss generalizing db with
  | nil => exact ⟨rfl, rfl, rfl⟩
  | cons s ss ih =>
    obtain ⟨id, now, rfl⟩ := h s List.mem_cons_self
    exact ih (exec db _) fun s' hs' => h s' (List.mem_cons_of_mem _ hs')

/-- The fold of `resumeInterrupted` on a fresh process. -/
theorem resumeInterrupted_wipe (w : World) :
    (resumeInterrupted w.wipe).stmts =
        (w.db.instances.rows.filter fun p => p.2.status.active).map
          (fun p => Stmt.setStatus p.1 .running w.clock) ∧
      (resumeInterrupted w.wipe).mem.toExecutions.Started
        (fun id => ∃ s, w.db.status id = some s ∧ s.active = true) ∧
      (resumeInterrupted w.wipe).mem = { Memory.empty with
        toExecutions := (resumeInterrupted w.wipe).mem.toExecutions
        impls := (resumeInterrupted w.wipe).mem.impls } := by
  have hnd : ((w.db.instances.rows.filter fun p => p.2.status.active).map Prod.fst).Nodup :=
    (List.filter_sublist.map Prod.fst).nodup w.db.instances.nodup
  obtain ⟨hstmts, hexecs, hmem⟩ := foldl_startRow w.clock _ ([], Memory.empty) (fun _ => False)
    Executions.started_empty hnd (fun _ _ h => h)
  refine ⟨hstmts, hexecs.congr ?_, hmem⟩
  intro id
  simp only [false_or, List.mem_map, List.mem_filter, Prod.exists, exists_and_right,
    exists_eq_right, Table.mem_rows_iff, Db.status, Option.map_eq_some_iff]
  constructor
  · rintro ⟨r, hr, hact⟩
    exact ⟨r.status, ⟨r, hr, rfl⟩, hact⟩
  · rintro ⟨s, ⟨r, hr, rfl⟩, hact⟩
    exact ⟨r, hr, hact⟩

/-- **Restarts.** However often `resumeInterrupted` was cut short before it ran to its
end. -/
theorem resumed_resumeAfter (w : World) (again : List ℕ) :
    Resumed w (w.resumeAfter again) := by
  induction again generalizing w with
  | nil =>
    obtain ⟨hstmts, hexecs, hmem⟩ := resumeInterrupted_wipe w
    obtain ⟨hsteps, hatt, hev⟩ := execAll_setRunning_frame w.db
      (resumeInterrupted w.wipe).stmts (by
        rw [hstmts]
        intro s hs
        obtain ⟨p, -, rfl⟩ := List.mem_map.mp hs
        exact ⟨p.1, w.clock, rfl⟩)
    refine ⟨?_, hsteps, hatt, hev, hexecs, hmem, rfl⟩
    intro id
    show (execAll w.db (resumeInterrupted w.wipe).stmts).instances.get? id = _
    rw [hstmts]
    exact get?_resume_all w id
  | cons n again ih =>
    have hcut := ih { w with db := execAll w.db ((resumeInterrupted w.wipe).stmts.take n) }
    obtain ⟨hstmts, -, -⟩ := resumeInterrupted_wipe w
    obtain ⟨hsteps, hatt, hev⟩ := execAll_setRunning_frame w.db
      ((resumeInterrupted w.wipe).stmts.take n) (by
        rw [hstmts]
        intro s hs
        obtain ⟨p, -, rfl⟩ := List.mem_map.mp (List.mem_of_mem_take hs)
        exact ⟨p.1, w.clock, rfl⟩)
    have hrow : ∀ id,
        (execAll w.db ((resumeInterrupted w.wipe).stmts.take n)).instances.get? id =
            w.db.instances.get? id ∨
          (execAll w.db ((resumeInterrupted w.wipe).stmts.take n)).instances.get? id =
            (w.db.instances.get? id).map (InstanceRow.revived w.clock) := by
      intro id
      rw [hstmts]
      exact get?_resume_take w n id
    have hactive : ∀ id, (∃ s,
        (execAll w.db ((resumeInterrupted w.wipe).stmts.take n)).status id = some s ∧
          s.active = true) ↔ ∃ s, w.db.status id = some s ∧ s.active = true := by
      intro id
      simp only [Db.status]
      rcases hrow id with heq | heq
      · rw [heq]
      · rw [heq]
        cases hr : w.db.instances.get? id with
        | none => simp
        | some r => cases hs : r.status <;> simp [hs, Status.active]
    refine ⟨?_, hcut.steps.trans hsteps, hcut.attempts.trans hatt, hcut.events.trans hev,
      hcut.started.congr hactive, hcut.memory, hcut.clock⟩
    intro id
    refine (hcut.rows id).trans ?_
    rcases hrow id with heq | heq
    · simp only [heq]
    · simp only [heq, Option.map_map]
      congr 1
      funext r
      exact InstanceRow.revived_revived w.clock r

/-- The status column after a restart. -/
theorem Resumed.status {w w' : World} (h : Resumed w w') (id : String) :
    w'.db.status id = (w.db.status id).map fun s => if s.active then .running else s := by
  simp only [Db.status, h.rows id, Option.map_map]
  congr 1
  funext r
  simp

end Lopata.Workflow
