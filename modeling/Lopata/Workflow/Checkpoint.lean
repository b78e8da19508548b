import Lopata.Workflow.Body

/-!
# What a Sequential Run Keeps in the Database

Between any two statements of a run of an admissible program the database says how far the
run has got: the steps recorded are a prefix of the steps the body takes, with the results
they have in every run, and the failed attempts of a step are attempts that really failed.
`Kept` is this invariant; it looks at the database alone, so it is what survives a stop of the
process.

## Main results

* `Saved.cacheStep`, `Saved.recordAttempt`, `Ongoing.endStmts`: the statements of a run keep it.
* `Keeps.take`: what holds between all statements of a segment holds where a stop cuts it.
* `Kept.resumeAfter`: after a restart of the process it holds again, with a fresh execution
  unless the end was written.
-/

namespace Lopata.Workflow

variable {cfg : Config} {p : Program} {now : ℕ}

/-! ### Statements one by one -/

/-- A property of the database holds before and after each of the statements. -/
def Keeps (P : Db → Prop) : Db → List Stmt → Prop
  | db, [] => P db
  | db, s :: ss => P db ∧ Keeps P (exec db s) ss

/-- A stop of the process finds a property that holds between all statements. -/
theorem Keeps.take {P : Db → Prop} {db : Db} {ss : List Stmt} (h : Keeps P db ss) (n : ℕ) :
    P (execAll db (ss.take n)) := by
  induction ss generalizing db n with
  | nil =>
    rw [List.take_nil]
    exact h
  | cons s ss ih =>
    cases n with
    | zero => exact h.1
    | succ n => exact ih h.2 n

/-! ### Invocations -/

namespace StepNode

/-- How many of the first `n` invocations of the callback fail. -/
def failures (n : ℕ) : StepNode → ℕ
  | .doStep _ _ callback => (callback.failing.filter (· < n)).card
  | .sleep _ _ | .sleepUntil _ _ => 0

/-- How many invocations of the callback fail from the `n`-th on. -/
def remaining (n : ℕ) : StepNode → ℕ
  | .doStep _ _ callback => (callback.failing.filter (n ≤ ·)).card
  | .sleep _ _ | .sleepUntil _ _ => 0

theorem failures_mono {m n : ℕ} (h : m ≤ n) (node : StepNode) :
    node.failures m ≤ node.failures n := by
  cases node with
  | doStep name config callback =>
    refine Finset.card_le_card (Finset.monotone_filter_right _ ?_)
    intro i _ hi
    omega
  | sleep | sleepUntil => exact le_rfl

theorem remaining_anti {m n : ℕ} (h : m ≤ n) (node : StepNode) :
    node.remaining n ≤ node.remaining m := by
  cases node with
  | doStep name config callback =>
    refine Finset.card_le_card (Finset.monotone_filter_right _ ?_)
    intro i _ hi
    omega
  | sleep | sleepUntil => exact le_rfl

end StepNode

/-- A failing invocation is one more failure. -/
theorem Callback.card_filter_lt_succ (callback : Callback) {n : ℕ} (h : n ∈ callback.failing) :
    (callback.failing.filter (· < n + 1)).card = (callback.failing.filter (· < n)).card + 1 := by
  have hset : callback.failing.filter (· < n + 1) =
      insert n (callback.failing.filter (· < n)) := by
    ext i
    simp only [Finset.mem_filter, Finset.mem_insert]
    constructor
    · rintro ⟨hi, hlt⟩
      by_cases hin : i = n
      · exact .inl hin
      · exact .inr ⟨hi, by omega⟩
    · rintro (rfl | ⟨hi, hlt⟩)
      · exact ⟨h, by omega⟩
      · exact ⟨hi, by omega⟩
  rw [hset, Finset.card_insert_of_notMem]
  simp

/-- A failing invocation is one less to come. -/
theorem Callback.card_filter_le (callback : Callback) {n : ℕ} (h : n ∈ callback.failing) :
    (callback.failing.filter (n ≤ ·)).card = (callback.failing.filter (n + 1 ≤ ·)).card + 1 := by
  have hset : callback.failing.filter (n ≤ ·) =
      insert n (callback.failing.filter (n + 1 ≤ ·)) := by
    ext i
    simp only [Finset.mem_filter, Finset.mem_insert]
    constructor
    · rintro ⟨hi, hle⟩
      by_cases hin : i = n
      · exact .inl hin
      · exact .inr ⟨hi, by omega⟩
    · rintro (rfl | ⟨hi, hle⟩)
      · exact ⟨h, le_rfl⟩
      · exact ⟨hi, by omega⟩
  rw [hset, Finset.card_insert_of_notMem]
  simp

/-! ### The invariant -/

/-- The row of a step holds what the step records in every run. -/
def StepNode.Records (node : StepNode) (row : StepRow) : Prop :=
  match node with
  | .doStep _ _ callback => row.output = some (.result callback.value)
  | .sleep _ _ => ∃ t, row.output = some (.until t)
  | .sleepUntil _ timestamp => row.output = some (.untilIso timestamp)

/-- Exactly the first `j` steps of the program are recorded. -/
structure Saved (p : Program) (invoked : String → ℕ) (db : Db) (j : ℕ) : Prop where
  le : j ≤ p.trail.length
  done : ∀ (i : ℕ) (node : StepNode), p.trail[i]? = some node → i < j →
    ∃ row, db.steps.get? (p.id, node.key) = some row ∧ node.Records row
  rest : ∀ key, (∀ (i : ℕ) (node : StepNode), p.trail[i]? = some node → i < j → node.key ≠ key) →
    db.steps.get? (p.id, key) = none
  /-- Every failed attempt is an invocation that failed. -/
  attempts : ∀ node ∈ p.trail, ∀ row, db.attempts.get? (p.id, node.key) = some row →
    row.failedAttempts ≤ node.failures (invoked node.key)

/-- The row of an instance that has not ended. -/
structure Underway (p : Program) (now : ℕ) (row : InstanceRow) : Prop where
  params : row.params = some p.params
  status : row.status = .running
  output : row.output = none
  error : row.error = none
  errorName : row.errorName = none
  createdAt : row.createdAt = now

/-- The row of an instance whose `run()` has settled. -/
def Outcome.Closes (outcome : Outcome) (row : InstanceRow) : Prop :=
  match outcome with
  | .returned (.ok output) =>
      row.status = .complete ∧ row.output = output ∧ row.error = none ∧ row.errorName = none
  | .returned (.error err) | .threw err =>
      row.status = .errored ∧ row.output = none ∧ row.error = some err.message ∧
        row.errorName = some err.name

/-- The row of the instance, which is the only one. -/
def Db.Holds (db : Db) (id : String) (row : InstanceRow) : Prop :=
  db.instances.rows = [(id, row)]

/-- The instance is under way and its first `j` steps are recorded. -/
structure Ongoing (p : Program) (now : ℕ) (invoked : String → ℕ) (db : Db) (j : ℕ) : Prop where
  row : ∃ row, db.Holds p.id row ∧ Underway p now row
  saved : Saved p invoked db j

/-- The instance has ended. -/
structure Closed (p : Program) (invoked : String → ℕ) (db : Db) : Prop where
  row : ∃ row, db.Holds p.id row ∧ p.outcome.Closes row
  saved : Saved p invoked db p.trail.length

/-- **The checkpoint.** The instance is under way and a prefix of its steps is recorded, or it
has ended and all of them are. -/
inductive Kept (p : Program) (now : ℕ) (invoked : String → ℕ) (db : Db) : Prop
  | active (j : ℕ) (h : Ongoing p now invoked db j)
  | closed (h : Closed p invoked db)

variable {invoked invoked' : String → ℕ} {db db' : Db} {i j : ℕ} {node : StepNode}
  {row : InstanceRow}

/-- Only the cached steps and the attempts matter. -/
theorem Saved.congr (h : Saved p invoked db j) (hsteps : db'.steps = db.steps)
    (hattempts : db'.attempts = db.attempts) : Saved p invoked db' j where
  le := h.le
  done := by
    rw [hsteps]
    exact h.done
  rest := by
    rw [hsteps]
    exact h.rest
  attempts := by
    rw [hattempts]
    exact h.attempts

/-- Invocations only ever add to what an attempt may be. -/
theorem Saved.mono (h : Saved p invoked db j) (hle : ∀ name, invoked name ≤ invoked' name) :
    Saved p invoked' db j where
  le := h.le
  done := h.done
  rest := h.rest
  attempts node hnode row hrow :=
    (h.attempts node hnode row hrow).trans (node.failures_mono (hle node.key))

theorem Ongoing.mono (h : Ongoing p now invoked db j)
    (hle : ∀ name, invoked name ≤ invoked' name) : Ongoing p now invoked' db j :=
  ⟨h.row, h.saved.mono hle⟩

/-- The row found under the id. -/
theorem Db.Holds.get? (h : db.Holds p.id row) : db.instances.get? p.id = some row := by
  rw [← Table.mem_rows_iff, h]
  exact List.mem_singleton_self _

theorem Db.Holds.status (h : db.Holds p.id row) : db.status p.id = some row.status := by
  rw [Db.status, h.get?]
  rfl

/-- An update of the row. -/
theorem Db.Holds.modify {id : String} (h : db.Holds id row) (f : InstanceRow → InstanceRow) :
    (db.instances.modify id f).rows = [(id, f row)] := by
  have hrows : db.instances.rows = [(id, row)] := h
  show db.instances.rows.map _ = _
  rw [hrows]
  simp

/-- Nothing is queued next to an instance that is not. -/
theorem Db.Holds.firstQueued (h : db.Holds p.id row) (hrow : row.status ≠ .queued) :
    db.firstQueued = none := by
  rw [Db.firstQueued, h]
  simp [hrow, oldest]

/-! ### The positions of the steps -/

/-- Different positions have different keys. -/
theorem Program.Admissible.key_inj (hp : p.Admissible cfg now) {i i' : ℕ} {node node' : StepNode}
    (h : p.trail[i]? = some node) (h' : p.trail[i']? = some node') (hkey : node.key = node'.key) :
    i = i' := by
  have hi : (p.trail.map StepNode.key)[i]? = some node.key := by
    rw [List.getElem?_map, h]
    rfl
  have hi' : (p.trail.map StepNode.key)[i']? = some node.key := by
    rw [List.getElem?_map, h', hkey]
    rfl
  obtain ⟨hlt, -⟩ := List.getElem?_eq_some_iff.mp hi
  exact (List.getElem?_inj hlt hp.distinct).mp (hi.trans hi'.symm)

/-- A step past the recorded ones has no record. -/
theorem Saved.get?_eq_none (h : Saved p invoked db j) (hp : p.Admissible cfg now)
    (hnode : p.trail[i]? = some node) (hij : j ≤ i) : db.steps.get? (p.id, node.key) = none := by
  refine h.rest node.key ?_
  intro i' node' hnode' hlt hkey
  have := hp.key_inj hnode' hnode hkey
  omega

/-! ### The statements of a run -/

/-- The next step is recorded. -/
theorem Saved.cacheStep (h : Saved p invoked db j) (hp : p.Admissible cfg now)
    (hnode : p.trail[j]? = some node) {output : Option Recorded} {time : Millis}
    (hrecords : node.Records ⟨output, time⟩) :
    Saved p invoked (exec db (.cacheStep p.id node.key output time)) (j + 1) where
  le := by
    obtain ⟨hlt, -⟩ := List.getElem?_eq_some_iff.mp hnode
    exact hlt
  done i' node' hnode' hlt := by
    simp only [exec, Table.get?_insert, Prod.mk.injEq, true_and]
    by_cases hkey : node'.key = node.key
    · obtain rfl := hp.key_inj hnode' hnode hkey
      obtain rfl := Option.some.inj (hnode'.symm.trans hnode)
      exact ⟨_, if_pos rfl, hrecords⟩
    · rw [if_neg hkey]
      refine h.done i' node' hnode' ?_
      by_contra hge
      obtain rfl : i' = j := by omega
      exact hkey (congrArg StepNode.key (Option.some.inj (hnode'.symm.trans hnode)))
  rest key hkey := by
    have hne : key ≠ node.key := fun h => hkey j node hnode (by omega) h.symm
    simp only [exec, Table.get?_insert, Prod.mk.injEq, true_and, if_neg hne]
    refine h.rest key ?_
    intro i' node' hnode' hlt
    exact hkey i' node' hnode' (by omega)
  attempts := h.attempts

/-- The attempts of a step are forgotten. -/
theorem Saved.deleteAttempt (h : Saved p invoked db j) (name : String) :
    Saved p invoked (exec db (.deleteAttempt p.id name)) j where
  le := h.le
  done := h.done
  rest := h.rest
  attempts node hnode row hrow := by
    simp only [exec, Table.get?_erase] at hrow
    split at hrow
    · cases hrow
    · exact h.attempts node hnode row hrow

/-- A failed attempt is recorded. -/
theorem Saved.recordAttempt (h : Saved p invoked db j) (hp : p.Admissible cfg now)
    (hnode : node ∈ p.trail) {n : ℕ} {message errName : String} {time : Millis}
    (hn : n ≤ node.failures (invoked node.key)) :
    Saved p invoked (exec db (.recordAttempt p.id node.key n message errName time)) j where
  le := h.le
  done := h.done
  rest := h.rest
  attempts node' hnode' row hrow := by
    simp only [exec, Table.get?_insert, Prod.mk.injEq, true_and] at hrow
    split at hrow
    · next hkey =>
        obtain ⟨i, hi⟩ := List.getElem?_of_mem hnode
        obtain ⟨i', hi'⟩ := List.getElem?_of_mem hnode'
        obtain rfl := hp.key_inj hi' hi hkey
        obtain rfl := Option.some.inj (hi'.symm.trans hi)
        obtain rfl := Option.some.inj hrow
        exact hn
    · exact h.attempts node' hnode' row hrow

/-- All attempts of the instance are forgotten. -/
theorem Saved.deleteAttempts (h : Saved p invoked db j) :
    Saved p invoked (exec db (.deleteAttempts p.id)) j where
  le := h.le
  done := h.done
  rest := h.rest
  attempts node hnode row hrow := by
    simp [exec] at hrow

/-- The statements by which `executeWorkflow` writes the end keep the checkpoint, and after
them the instance has ended. -/
theorem Ongoing.endStmts (h : Ongoing p now invoked db p.trail.length) (time : Millis) :
    Keeps (Kept p now invoked) db (endStmts false p.id time p.outcome) ∧
      Closed p invoked (execAll db (Workflow.endStmts false p.id time p.outcome)) := by
  have hactive : Kept p now invoked db := .active _ h
  obtain ⟨⟨row, hrow, hunder⟩, hsaved⟩ := h
  simp only [Workflow.endStmts]
  cases houtcome : p.outcome with
  | returned output =>
    cases output with
    | ok output =>
      have hcloses : p.outcome.Closes
          { row with status := .complete, output := output, updatedAt := time } := by
        rw [houtcome]
        exact ⟨rfl, rfl, hunder.error, hunder.errorName⟩
      have hclosed : Closed p invoked (exec db (.complete p.id output time)) :=
        ⟨⟨_, hrow.modify _, hcloses⟩, hsaved.congr rfl rfl⟩
      have hlast : Closed p invoked
          (exec (exec db (.complete p.id output time)) (.deleteAttempts p.id)) :=
        ⟨hclosed.row, hclosed.saved.deleteAttempts⟩
      exact ⟨⟨hactive, .closed hclosed, .closed hlast⟩, hlast⟩
    | error err =>
      have hcloses : p.outcome.Closes
          { row with
            status := .errored, error := some err.message, errorName := some err.name,
            updatedAt := time } := by
        rw [houtcome]
        exact ⟨rfl, hunder.output, rfl, rfl⟩
      have hclosed : Closed p invoked (exec db (.fail p.id err.message err.name time)) :=
        ⟨⟨_, hrow.modify _, hcloses⟩, hsaved.congr rfl rfl⟩
      exact ⟨⟨hactive, .closed hclosed⟩, hclosed⟩
  | threw err =>
    have hcloses : p.outcome.Closes
        { row with
          status := .errored, error := some err.message, errorName := some err.name,
          updatedAt := time } := by
      rw [houtcome]
      exact ⟨rfl, hunder.output, rfl, rfl⟩
    have hclosed : Closed p invoked (exec db (.fail p.id err.message err.name time)) :=
      ⟨⟨_, hrow.modify _, hcloses⟩, hsaved.congr rfl rfl⟩
    exact ⟨⟨hactive, .closed hclosed⟩, hclosed⟩

/-! ### A restart of the process -/

/-- A row whose instance has ended is not resumed. -/
theorem Outcome.Closes.inactive {outcome : Outcome} (h : outcome.Closes row) :
    row.status.active = false := by
  rcases outcome with (_ | _) | _ <;> rw [h.1] <;> rfl

/-- What a restart of the process leaves: the checkpoint, and an execution of the instance
unless it has ended. -/
inductive Resurrected (p : Program) (now : ℕ) (invoked : String → ℕ) (w : World) : Prop
  | active (j : ℕ) (h : Ongoing p now invoked w.db j)
      (hmem : w.mem = Memory.empty.launch p.id p.params now)
  | closed (h : Closed p invoked w.db) (hmem : w.mem = .empty)

/-- `resumeInterrupted` of an instance under way. -/
theorem Ongoing.resumeInterrupted {w : World} (h : Ongoing p now invoked w.db j) :
    resumeInterrupted w.wipe =
      ⟨[.setStatus p.id .running w.clock], Memory.empty.launch p.id p.params now, .done⟩ := by
  obtain ⟨row, hrow, hunder⟩ := h.row
  have hrows : w.wipe.db.instances.rows = [(p.id, row)] := hrow
  simp only [Workflow.resumeInterrupted]
  rw [hrows]
  simp [hunder.status, Status.active, startRow, hunder.params, hunder.createdAt, World.wipe]

/-- `resumeInterrupted` of an instance that has ended. -/
theorem Closed.resumeInterrupted {w : World} (h : Closed p invoked w.db) :
    resumeInterrupted w.wipe = ⟨[], .empty, .done⟩ := by
  obtain ⟨row, hrow, hcloses⟩ := h.row
  have hrows : w.wipe.db.instances.rows = [(p.id, row)] := hrow
  simp only [Workflow.resumeInterrupted]
  rw [hrows]
  simp [hcloses.inactive, World.wipe]

/-- Setting the status of an instance under way to `running` changes nothing that counts. -/
theorem Ongoing.setRunning (h : Ongoing p now invoked db j) (time : Millis) :
    Ongoing p now invoked (exec db (.setStatus p.id .running time)) j := by
  obtain ⟨⟨row, hrow, hunder⟩, hsaved⟩ := h
  have hunder' : Underway p now { row with status := .running, updatedAt := time } :=
    ⟨hunder.params, rfl, hunder.output, hunder.error, hunder.errorName, hunder.createdAt⟩
  exact ⟨⟨_, hrow.modify _, hunder'⟩, hsaved.congr rfl rfl⟩

/-- **Checkpoints survive.** A restart of the process, itself cut short any number of times,
finds the checkpoint and resumes from it. -/
theorem Kept.resumeAfter {w : World} (h : Kept p now invoked w.db) (again : List ℕ) :
    Resurrected p now invoked (w.resumeAfter again) ∧ (w.resumeAfter again).clock = w.clock := by
  induction again generalizing w with
  | nil =>
    cases h with
    | active j h =>
      simp only [World.resumeAfter, h.resumeInterrupted]
      exact ⟨.active j (h.setRunning w.clock) rfl, rfl⟩
    | closed h =>
      simp only [World.resumeAfter, h.resumeInterrupted]
      exact ⟨.closed h rfl, rfl⟩
  | cons n again ih =>
    have hcut : Kept p now invoked
        (execAll w.db ((Workflow.resumeInterrupted w.wipe).stmts.take n)) := by
      cases h with
      | active j h =>
        have hkeeps : Keeps (Kept p now invoked) w.db [.setStatus p.id .running w.clock] :=
          ⟨.active j h, .active j (h.setRunning w.clock)⟩
        rw [h.resumeInterrupted]
        exact hkeeps.take n
      | closed h =>
        rw [h.resumeInterrupted, List.take_nil]
        exact .closed h
    exact ih hcut

end Lopata.Workflow
