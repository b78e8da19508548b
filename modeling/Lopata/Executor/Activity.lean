import Lopata.Executor.Worker

/-!
# Activity

A command is counted once it is posted, so an executor whose thread is starting is not active,
whatever waits for it. An eviction or a reload that asks then tears the executor down, and the
commands that wait are rejected.

## Main results

* `active_iff`: an executor is active whenever a command is outstanding, and no command is rejected
  because it was not, if and only if no command is executed before the executor is disposed of; no
  command is rejected so if and only if none is outstanding whenever an executor that is not active
  is torn down; and it is active whenever a command has been posted.
* `not_active`: a reload while the thread of a first fetch starts rejects the fetch.
-/

namespace Lopata.Executor

/-- No command is outstanding, the one of `dispose` apart. -/
def Quiet (s : WorkerExecutor) : Prop :=
  (∀ call ∈ s.waiting, call.command = .cleanup) ∧
    ∀ p ∈ s.pending.rows, p.2.command = .cleanup

/-- The executor is active while a command is outstanding. -/
def Covered (s : WorkerExecutor) : Prop := ¬ Quiet s → s.isActive = true

/-- No command has been rejected, or is going to be, because the executor was not active. -/
structure Spared (s : WorkerExecutor) : Prop where
  settled : ∀ p ∈ s.settled, p.2 = .rejected .idle → p.1.command = .cleanup
  waiting : s.disposed = some .idle → ∀ call ∈ s.waiting, call.command = .cleanup

/-- No command is executed before the executor is disposed of. -/
def Uncalled (s : WorkerExecutor) : Label → Prop
  | .call _ _ _ _ => s.disposed.isSome = true
  | _ => True

/-- Whether a label tears the executor down because it is not active. -/
def tearsDown (cfg : ExecutorConfig) (s : WorkerExecutor) : Label → Bool
  | .evict now => s.attached && s.disposed.isNone && s.isIdle cfg now && !s.cleansUp cfg
  | .reload => s.attached && s.disposed.isNone && !s.isActive && !s.cleansUp cfg
  | .poll => s.polling.isSome && s.disposed.isNone && !s.isActive && !s.cleansUp cfg
  | .cleanedUp => decide (s.disposing = some .idle) && s.disposed.isNone
  | _ => false

/-- The executor is torn down as inactive only while no command is outstanding. -/
def Clear (cfg : ExecutorConfig) (s : WorkerExecutor) (a : Label) : Prop :=
  tearsDown cfg s a = true → Quiet s

variable {cfg : ExecutorConfig} {s t : WorkerExecutor} {a : Label} {call : Call} {cause : Cause}

/-! ### What a step can do -/

/-- What a call of a stub changes besides the command is of no importance. -/
theorem execute_eq (s : WorkerExecutor) (command : Command) (body cloneable : Bool)
    (now : Option ℤ) :
    ∃ lastActivity nextStreamId call, call.command = command ∧
      s.execute command body cloneable now =
        { s with lastActivity := lastActivity, nextStreamId := nextStreamId }.sendCommand call := by
  unfold WorkerExecutor.execute
  dsimp only
  split
  · exact ⟨_, _, _, rfl, rfl⟩
  · exact ⟨_, s.nextStreamId, { command := command, cloneable := cloneable }, rfl, rfl⟩

/-- A command goes on only if it waits. -/
theorem goOn_eq_some {index : ℕ} (hstep : s.goOn index = some t) :
    ∃ call, s.waiting[index]? = some call ∧
      t = { s with waiting := s.waiting.eraseIdx index }.post call := by
  unfold WorkerExecutor.goOn at hstep
  split at hstep
  · cases hstep
  · obtain ⟨call, hcall, rfl⟩ := Option.map_eq_some_iff.mp hstep
    exact ⟨call, hcall, rfl⟩

/-- A message needs a thread. -/
theorem alive_of_ite_eq_some {u : WorkerExecutor} (h : (if s.Alive then some u else none) = some t) :
    s.Alive ∧ u = t := by
  split at h
  · next halive => exact ⟨halive, Option.some.inj h⟩
  · cases h

/-- A change that leaves the commands alone. -/
structure Same (s u : WorkerExecutor) : Prop where
  worker : u.worker = s.worker
  disposed : u.disposed = s.disposed
  disposing : u.disposing = none ∨ u.disposing = s.disposing
  waiting : u.waiting = s.waiting
  pending : u.pending = s.pending
  nextId : u.nextId = s.nextId
  inFlightCount : u.inFlightCount = s.inFlightCount
  settled : u.settled = s.settled
  fetchStreams : u.fetchStreams ⊆ s.fetchStreams
  fetchRequestStreams : u.fetchRequestStreams ⊆ s.fetchRequestStreams

theorem Same.refl (s : WorkerExecutor) : Same s s :=
  ⟨rfl, rfl, .inr rfl, rfl, rfl, rfl, rfl, rfl, List.Subset.refl _, List.Subset.refl _⟩

/-- The forms of a step: it leaves the commands alone, moves one of them, or disposes of the
executor. -/
inductive Act (cfg : ExecutorConfig) (s : WorkerExecutor) (a : Label) : WorkerExecutor → Prop
  | same {u : WorkerExecutor} (hsame : Same s u) (hno : tearsDown cfg s a = false) : Act cfg s a u
  | call (command : Command) (body cloneable : Bool) (now : Option ℤ)
      (ha : a = .call command body cloneable now) (hne : command ≠ .cleanup) :
      Act cfg s a (s.execute command body cloneable now)
  | goOn {index : ℕ} {call : Call} (ha : a = .goOn index) (hcall : s.waiting[index]? = some call) :
      Act cfg s a ({ s with waiting := s.waiting.eraseIdx index }.post call)
  | finish (id : ℕ) (reply : Reply) (ha : a = .result id reply) (halive : s.Alive) :
      Act cfg s a (s.finish id reply)
  | dispose {u : WorkerExecutor} {cause : Cause} (hsame : Same s u)
      (hdown : tearsDown cfg s a = true ↔
        s.disposed = none ∧ cause = .idle ∧ s.cleansUp cfg = false) :
      Act cfg s a (u.dispose cfg cause)
  | teardown {u : WorkerExecutor} {cause : Cause} (hsame : Same s u)
      (hwhen : s.disposing = some cause ∨ s.Alive)
      (hdown : tearsDown cfg s a = true ↔ s.disposed = none ∧ cause = .idle) :
      Act cfg s a (u.teardown cause)

theorem same_detach (s : WorkerExecutor) : Same s s.detach :=
  ⟨rfl, rfl, .inr rfl, rfl, rfl, rfl, rfl, rfl, List.Subset.refl _, List.Subset.refl _⟩

/-- Every step has one of these forms. -/
theorem act_of_step (hstep : WorkerExecutor.step cfg s a = some t) : Act cfg s a t := by
  cases a with
  | call command body cloneable now =>
    obtain ⟨hne, rfl⟩ : command ≠ .cleanup ∧ s.execute command body cloneable now = t := by
      simpa [WorkerExecutor.step] using hstep
    exact .call command body cloneable now rfl hne
  | goOn index =>
    obtain ⟨call, hcall, rfl⟩ := goOn_eq_some hstep
    exact .goOn rfl hcall
  | priorDisposed =>
    obtain rfl := Option.some.inj hstep
    exact .same ⟨rfl, rfl, .inr rfl, rfl, rfl, rfl, rfl, rfl, List.Subset.refl _,
      List.Subset.refl _⟩ rfl
  | ready =>
    obtain ⟨-, rfl⟩ := alive_of_ite_eq_some hstep
    exact .same ⟨rfl, rfl, .inr rfl, rfl, rfl, rfl, rfl, rfl, List.Subset.refl _,
      List.Subset.refl _⟩ rfl
  | result id reply =>
    obtain ⟨halive, rfl⟩ := alive_of_ite_eq_some hstep
    exact .finish id reply rfl halive
  | failed =>
    obtain ⟨halive, rfl⟩ := alive_of_ite_eq_some hstep
    refine .teardown (Same.refl s) (.inr halive) ⟨fun h => ?_, fun h => ?_⟩
    · cases h
    · cases h.2
  | state aborted blocked =>
    obtain ⟨-, rfl⟩ := alive_of_ite_eq_some hstep
    exact .same ⟨rfl, rfl, .inr rfl, rfl, rfl, rfl, rfl, rfl, List.Subset.refl _,
      List.Subset.refl _⟩ rfl
  | wsClosed wsId =>
    obtain rfl := Option.some.inj hstep
    exact .same ⟨rfl, rfl, .inr rfl, rfl, rfl, rfl, rfl, rfl, List.Subset.refl _,
      List.Subset.refl _⟩ rfl
  | responseEnded streamId =>
    obtain rfl := Option.some.inj hstep
    exact .same ⟨rfl, rfl, .inr rfl, rfl, rfl, rfl, rfl, rfl, List.erase_subset,
      List.Subset.refl _⟩ rfl
  | requestEnded streamId =>
    obtain rfl := Option.some.inj hstep
    exact .same ⟨rfl, rfl, .inr rfl, rfl, rfl, rfl, rfl, rfl, List.Subset.refl _,
      List.erase_subset⟩ rfl
  | evict now =>
    obtain ⟨-, rfl⟩ : _ ∧ s.evictIdle cfg now = t := by
      simpa [WorkerExecutor.step] using hstep
    unfold WorkerExecutor.evictIdle
    split
    · next hout => exact .same (Same.refl s) (by simp [tearsDown, hout])
    · next hin =>
        split
        · next hdisposed =>
            refine .dispose (same_detach s) ⟨fun h => ?_, fun h => ?_⟩
            · simp [tearsDown, Option.isNone_iff_eq_none] at h
              rw [h.1.1.2] at hdisposed
              cases hdisposed
            · cases h.2.1
        · next halive =>
            split
            · next hidle =>
                refine .dispose (same_detach s) ?_
                simp [tearsDown, hin, hidle, Option.isNone_iff_eq_none]
            · next hbusy => exact .same (Same.refl s) (by simp [tearsDown, hbusy])
  | reload =>
    obtain rfl := Option.some.inj hstep
    unfold WorkerExecutor.setExternalClass
    split
    · next hout => exact .same (Same.refl s) (by simp [tearsDown, hout])
    · next hin =>
        split
        · next hactive =>
            exact .same ⟨rfl, rfl, .inr rfl, rfl, rfl, rfl, rfl, rfl, List.Subset.refl _,
              List.Subset.refl _⟩ (by simp [tearsDown, hactive])
        · next hidle =>
            refine .dispose (same_detach s) ?_
            simp [tearsDown, hin, hidle, Option.isNone_iff_eq_none]
  | poll =>
    obtain ⟨attemptsLeft, hpolling, rfl⟩ := Option.map_eq_some_iff.mp hstep
    have hsame : Same s { s with polling := none } :=
      ⟨rfl, rfl, .inr rfl, rfl, rfl, rfl, rfl, rfl, List.Subset.refl _, List.Subset.refl _⟩
    unfold WorkerExecutor.pollThenDispose
    split
    · next hidle =>
        refine .dispose hsame ?_
        simp [tearsDown, hpolling, hidle, Option.isNone_iff_eq_none]
    · next hactive =>
        split
        · refine .dispose hsame ?_
          simp [tearsDown, hactive]
        · exact .same ⟨rfl, rfl, .inr rfl, rfl, rfl, rfl, rfl, rfl, List.Subset.refl _,
            List.Subset.refl _⟩ (by simp [tearsDown, hactive])
  | destroy force =>
    obtain rfl := Option.some.inj hstep
    unfold WorkerExecutor.destroy
    split
    · refine .dispose (same_detach s) ⟨fun h => ?_, fun h => ?_⟩
      · cases h
      · cases h.2.1
    · exact .same (Same.refl s) rfl
  | cleanedUp =>
    obtain ⟨cause, hcause, rfl⟩ := Option.map_eq_some_iff.mp hstep
    refine .teardown ⟨rfl, rfl, .inl rfl, rfl, rfl, rfl, rfl, rfl, List.Subset.refl _,
      List.Subset.refl _⟩ (.inl hcause) ?_
    simp [tearsDown, hcause, Option.isNone_iff_eq_none, and_comm]

/-! ### Commands that have been posted -/

/-- The counter counts what is pending. -/
structure Counted (s : WorkerExecutor) : Prop where
  count : s.inFlightCount = s.pending.rows.length
  fresh : ∀ id call, s.pending.get? id = some call → id < s.nextId

theorem counted_start (now : ℤ) : Counted (.start cfg now) where
  count := rfl
  fresh _ _ h := by cases h

/-- The counter depends on what is pending and the next id. -/
theorem Counted.congr (h : Counted s) (hcount : t.inFlightCount = s.inFlightCount)
    (hpending : t.pending = s.pending) (hnext : t.nextId = s.nextId) : Counted t where
  count := by rw [hcount, hpending, h.count]
  fresh := by
    rw [hpending, hnext]
    exact h.fresh

theorem Counted.isActive (h : Counted s) (hpending : s.pending.rows ≠ []) :
    s.isActive = true := by
  have hpos : 0 < s.inFlightCount := by
    rw [h.count]
    exact_mod_cast List.length_pos_iff.mpr hpending
  unfold WorkerExecutor.isActive
  rw [decide_eq_true hpos]
  rfl

theorem Counted.teardown (h : Counted s) (cause : Cause) : Counted (s.teardown cause) where
  count := by
    show s.inFlightCount - s.pending.rows.length = 0
    rw [h.count, Int.sub_self]
  fresh _ _ hget := by cases hget

theorem Counted.sendCommand (h : Counted s) (call : Call) : Counted (s.sendCommand call) := by
  unfold WorkerExecutor.sendCommand WorkerExecutor.ensureWorker
  split
  · exact h.congr rfl rfl rfl
  · split <;> exact h.congr rfl rfl rfl

theorem Counted.dispose (h : Counted s) (cause : Cause) : Counted (s.dispose cfg cause) := by
  unfold WorkerExecutor.dispose
  split
  · exact (h.congr rfl rfl rfl : Counted { s with disposing := some cause }).sendCommand _
  · exact h.teardown cause

theorem Counted.post (h : Counted s) (call : Call) : Counted (s.post call) := by
  unfold WorkerExecutor.post
  split
  · exact h.congr rfl rfl rfl
  · dsimp only
    have hnew : s.pending.get? s.nextId = none := by
      rw [Option.eq_none_iff_forall_ne_some]
      intro call hget
      exact absurd (h.fresh _ _ hget) (lt_irrefl _)
    split
    · refine ⟨?_, fun id call hget => ?_⟩
      · show s.inFlightCount + 1 = ((s.pending.insert (s.nextId + 1 - 1) call).rows.length : ℤ)
        rw [Nat.add_sub_cancel, Table.rows_insert_of_get?_eq_none hnew, List.length_append, h.count]
        rfl
      · have hget : (s.pending.insert (s.nextId + 1 - 1) _).get? id = some call := hget
        rw [Nat.add_sub_cancel, Table.get?_insert] at hget
        show id < s.nextId + 1
        split at hget
        · omega
        · have := h.fresh _ _ hget
          omega
    · refine ⟨h.count, fun id call hget => ?_⟩
      exact (h.fresh _ _ hget).trans (Nat.lt_succ_self _)

theorem Counted.finish (h : Counted s) (id : ℕ) (reply : Reply) : Counted (s.finish id reply) := by
  unfold WorkerExecutor.finish
  split
  · exact h
  · next call hcall =>
      have herased : Counted { s with
          pending := s.pending.erase id
          inFlightCount := s.inFlightCount - 1 } := by
        refine ⟨?_, fun id' call' hget => ?_⟩
        · have hlength := Table.length_erase hcall
          have hcount := h.count
          show s.inFlightCount - 1 = ((s.pending.erase id).rows.length : ℤ)
          omega
        · have hget : (s.pending.erase id).get? id' = some call' := hget
          obtain ⟨-, hget⟩ := Table.of_get?_erase hget
          exact h.fresh _ _ hget
      cases reply with
      | error => exact herased.congr rfl rfl rfl
      | result wsId streamId =>
        dsimp only
        split <;> exact herased.congr rfl rfl rfl

theorem Counted.step (h : Counted s) (hstep : WorkerExecutor.step cfg s a = some t) :
    Counted t := by
  cases act_of_step hstep with
  | same hsame => exact h.congr hsame.inFlightCount hsame.pending hsame.nextId
  | call command body cloneable now =>
    obtain ⟨lastActivity, nextStreamId, call, -, heq⟩ :=
      execute_eq s command body cloneable now
    rw [heq]
    exact (h.congr rfl rfl rfl : Counted { s with
      lastActivity := lastActivity, nextStreamId := nextStreamId }).sendCommand call
  | @goOn index call =>
    exact (h.congr rfl rfl rfl : Counted { s with
      waiting := s.waiting.eraseIdx index }).post call
  | finish id reply => exact h.finish id reply
  | dispose hsame =>
    exact (h.congr hsame.inFlightCount hsame.pending hsame.nextId).dispose _
  | teardown hsame =>
    exact (h.congr hsame.inFlightCount hsame.pending hsame.nextId).teardown _

/-! ### Executors without commands -/

/-- Nothing has been executed, except after the executor was disposed of. -/
structure Unused (s : WorkerExecutor) : Prop where
  waiting : s.waiting = []
  pending : s.pending.rows = []
  worker : s.worker = false
  disposing : s.disposing = none
  inFlightCount : s.inFlightCount = 0
  fetchStreams : s.fetchStreams = []
  fetchRequestStreams : s.fetchRequestStreams = []
  settled : ∀ p ∈ s.settled, p.2 = .refused

theorem unused_start (now : ℤ) : Unused (.start cfg now) where
  waiting := rfl
  pending := rfl
  worker := rfl
  disposing := rfl
  inFlightCount := rfl
  fetchStreams := rfl
  fetchRequestStreams := rfl
  settled _ h := by cases h

theorem Unused.congr {u : WorkerExecutor} (h : Unused s) (hsame : Same s u) : Unused u where
  waiting := hsame.waiting.trans h.waiting
  pending := by rw [hsame.pending, h.pending]
  worker := hsame.worker.trans h.worker
  disposing := by
    rcases hsame.disposing with hnone | heq
    · exact hnone
    · exact heq.trans h.disposing
  inFlightCount := hsame.inFlightCount.trans h.inFlightCount
  fetchStreams := List.eq_nil_of_subset_nil (h.fetchStreams ▸ hsame.fetchStreams)
  fetchRequestStreams :=
    List.eq_nil_of_subset_nil (h.fetchRequestStreams ▸ hsame.fetchRequestStreams)
  settled := by
    rw [hsame.settled]
    exact h.settled

theorem Unused.teardown (h : Unused s) (cause : Cause) : Unused (s.teardown cause) where
  waiting := h.waiting
  pending := rfl
  worker := rfl
  disposing := h.disposing
  inFlightCount := by
    show s.inFlightCount - s.pending.rows.length = 0
    rw [h.inFlightCount, h.pending]
    rfl
  fetchStreams := rfl
  fetchRequestStreams := rfl
  settled p hp := by
    have hp : p ∈ (s.pending.rows.map fun p => (p.2, Outcome.rejected cause)) ++ s.settled := hp
    rw [h.pending] at hp
    exact h.settled p hp

theorem Unused.dispose (h : Unused s) (cause : Cause) : Unused (s.dispose cfg cause) := by
  have hno : s.cleansUp cfg = false := by
    unfold WorkerExecutor.cleansUp
    rw [h.worker, Bool.and_false, Bool.false_and]
  unfold WorkerExecutor.dispose
  rw [if_neg (by rw [hno]; exact Bool.noConfusion)]
  exact h.teardown cause

/-- Only a command that is executed on a living executor uses it. -/
theorem Unused.step (h : Unused s) (hok : Uncalled s a)
    (hstep : WorkerExecutor.step cfg s a = some t) : Unused t := by
  cases act_of_step hstep with
  | same hsame => exact h.congr hsame
  | call command body cloneable now ha =>
    obtain rfl := ha
    obtain ⟨lastActivity, nextStreamId, call, -, heq⟩ :=
      execute_eq s command body cloneable now
    have hdisposed : s.disposed.isSome = true := hok
    rw [heq, WorkerExecutor.sendCommand, if_pos hdisposed]
    refine ⟨h.waiting, h.pending, h.worker, h.disposing, h.inFlightCount, h.fetchStreams,
      h.fetchRequestStreams, fun p hp => ?_⟩
    rcases List.mem_cons.mp hp with rfl | hp
    · rfl
    · exact h.settled p hp
  | goOn ha hcall =>
    rw [h.waiting] at hcall
    cases hcall
  | finish id reply ha halive => cases h.worker.symm.trans halive.1
  | dispose hsame => exact (h.congr hsame).dispose _
  | teardown hsame => exact (h.congr hsame).teardown _

theorem Unused.covered (h : Unused s) : Covered s := by
  intro hbusy
  refine absurd ⟨?_, ?_⟩ hbusy
  · rw [h.waiting]
    exact List.forall_mem_nil _
  · rw [h.pending]
    exact List.forall_mem_nil _

theorem Unused.spared (h : Unused s) : Spared s where
  settled p hp hidle := by cases (h.settled p hp).symm.trans hidle
  waiting _ := by
    rw [h.waiting]
    exact List.forall_mem_nil _

/-- The first command finds no thread, and an executor that is not active. -/
theorem Unused.not_covered_execute (h : Unused s) (hdisposed : s.disposed = none)
    {command : Command} (hne : command ≠ .cleanup) (body cloneable : Bool) (now : Option ℤ) :
    ¬ Covered (s.execute command body cloneable now) := by
  obtain ⟨lastActivity, nextStreamId, call, rfl, heq⟩ := execute_eq s command body cloneable now
  have hnotSome : ¬ s.disposed.isSome = true := by
    rw [hdisposed]
    exact Bool.noConfusion
  have hnoWorker : ¬ s.worker = true := by
    rw [h.worker]
    exact Bool.noConfusion
  rw [heq, WorkerExecutor.sendCommand, if_neg hnotSome, WorkerExecutor.ensureWorker,
    if_neg hnoWorker]
  intro hcovered
  have hactive := hcovered fun hquiet =>
    hne (hquiet.1 call (List.mem_append_right _ (List.mem_singleton.mpr rfl)))
  have hinactive : s.isActive = false := by
    unfold WorkerExecutor.isActive
    rw [h.inFlightCount, h.fetchStreams, h.fetchRequestStreams]
    rfl
  cases hinactive.symm.trans hactive

/-- A step on an unused executor keeps it covered exactly when it executes no command. -/
theorem Unused.covered_step_iff (h : Unused s) (hstep : WorkerExecutor.step cfg s a = some t) :
    Covered t ∧ Spared t ↔ Uncalled s a := by
  constructor
  · rintro ⟨hcovered, -⟩
    cases a with
    | call command body cloneable now =>
      obtain ⟨hne, rfl⟩ : command ≠ .cleanup ∧ s.execute command body cloneable now = t := by
        simpa [WorkerExecutor.step] using hstep
      show s.disposed.isSome = true
      rw [← Option.ne_none_iff_isSome]
      intro hdisposed
      exact h.not_covered_execute hdisposed hne body cloneable now hcovered
    | _ => trivial
  · intro hok
    have ht := h.step hok hstep
    exact ⟨ht.covered, ht.spared⟩

/-! ### Commands that are spared -/

/-- Nothing is pending after the teardown. -/
def Emptied (s : WorkerExecutor) : Prop := s.disposed ≠ none → s.pending.rows = []

/-- A change that leaves the commands alone leaves as many outstanding. -/
theorem Same.quiet_iff {u : WorkerExecutor} (hsame : Same s u) : Quiet u ↔ Quiet s := by
  unfold Quiet
  rw [hsame.waiting, hsame.pending]

theorem Same.cleansUp {u : WorkerExecutor} (hsame : Same s u) :
    u.cleansUp cfg = s.cleansUp cfg := by
  unfold WorkerExecutor.cleansUp
  rw [hsame.disposed, hsame.worker]

theorem Emptied.congr {u : WorkerExecutor} (h : Emptied s) (hsame : Same s u) : Emptied u := by
  unfold Emptied
  rw [hsame.disposed, hsame.pending]
  exact h

theorem Spared.congr {u : WorkerExecutor} (h : Spared s) (hsame : Same s u) : Spared u where
  settled := by
    rw [hsame.settled]
    exact h.settled
  waiting := by
    rw [hsame.disposed, hsame.waiting]
    exact h.waiting

/-- A teardown spares the commands unless it is for inactivity and some are outstanding. -/
theorem Spared.teardown_iff (h : Spared s) (hempty : Emptied s) :
    Spared (s.teardown cause) ↔ (s.disposed = none ∧ cause = .idle → Quiet s) := by
  constructor
  · rintro ht ⟨hdisposed, rfl⟩
    refine ⟨ht.waiting ?_, fun p hp => ?_⟩
    · show some (s.disposed.getD .idle) = some .idle
      rw [hdisposed]
      rfl
    · have hmem : (p.2, Outcome.rejected .idle) ∈
          (s.pending.rows.map fun p => (p.2, Outcome.rejected .idle)) ++ s.settled :=
        List.mem_append_left _ (List.mem_map_of_mem hp)
      exact ht.settled _ hmem rfl
  · intro hquiet
    refine ⟨fun p hp hidle => ?_, fun hidle => ?_⟩
    · rcases List.mem_append.mp hp with hp | hp
      · obtain ⟨row, hrow, rfl⟩ := List.mem_map.mp hp
        have hcause : cause = .idle := Outcome.rejected.inj hidle
        have hnone : s.disposed = none := by
          by_contra hsome
          rw [hempty hsome] at hrow
          cases hrow
        exact (hquiet ⟨hnone, hcause⟩).2 row hrow
      · exact h.settled p hp hidle
    · have hidle : s.disposed.getD cause = .idle := Option.some.inj hidle
      cases hdisposed : s.disposed with
      | none =>
        rw [hdisposed] at hidle
        exact (hquiet ⟨hdisposed, hidle⟩).1
      | some first =>
        rw [hdisposed] at hidle
        obtain rfl : first = .idle := hidle
        exact h.waiting hdisposed

/-- A command is not rejected before its first `await`. -/
theorem Spared.sendCommand (h : Spared s) (call : Call) : Spared (s.sendCommand call) := by
  unfold WorkerExecutor.sendCommand WorkerExecutor.ensureWorker
  split
  · refine ⟨fun p hp hidle => ?_, h.waiting⟩
    rcases List.mem_cons.mp hp with rfl | hp
    · cases hidle
    · exact h.settled p hp hidle
  · next hdisposed =>
      have hnone : s.disposed = none := Option.not_isSome_iff_eq_none.mp hdisposed
      split
      · exact ⟨h.settled, fun hidle => by cases hnone.symm.trans hidle⟩
      · exact ⟨h.settled, fun hidle => by cases hnone.symm.trans hidle⟩

theorem Spared.dispose_iff (h : Spared s) (hempty : Emptied s) :
    Spared (s.dispose cfg cause) ↔
      (s.disposed = none ∧ cause = .idle ∧ s.cleansUp cfg = false → Quiet s) := by
  unfold WorkerExecutor.dispose
  split
  · next hcleans =>
      refine iff_of_true ?_ fun hdown => ?_
      · exact (⟨h.settled, h.waiting⟩ : Spared { s with disposing := some cause }).sendCommand _
      · cases hcleans.symm.trans hdown.2.2
  · next hno =>
      rw [h.teardown_iff hempty]
      simp only [Bool.eq_false_iff.mpr hno, and_true]

/-- A command that goes on is rejected only after a teardown that has condemned it. -/
theorem Spared.post (h : Spared s) {index : ℕ} (hcall : s.waiting[index]? = some call) :
    Spared ({ s with waiting := s.waiting.eraseIdx index }.post call) := by
  have hrest : s.disposed = some .idle →
      ∀ other ∈ s.waiting.eraseIdx index, other.command = .cleanup :=
    fun hidle other hother => h.waiting hidle other (List.mem_of_mem_eraseIdx hother)
  unfold WorkerExecutor.post
  split
  · next first hdisposed =>
      refine ⟨fun p hp hidle => ?_, hrest⟩
      rcases List.mem_cons.mp hp with rfl | hp
      · obtain rfl : first = .idle := Outcome.rejected.inj hidle
        exact h.waiting hdisposed call (List.mem_of_getElem? hcall)
      · exact h.settled p hp hidle
  · dsimp only
    split
    · exact ⟨h.settled, hrest⟩
    · refine ⟨fun p hp hidle => ?_, hrest⟩
      rcases List.mem_cons.mp hp with rfl | hp
      · cases hidle
      · exact h.settled p hp hidle

theorem Spared.finish (h : Spared s) (id : ℕ) (reply : Reply) : Spared (s.finish id reply) := by
  have hcons : ∀ {call : Call} {outcome : Outcome}, outcome ≠ .rejected .idle →
      ∀ p ∈ (call, outcome) :: s.settled, p.2 = .rejected .idle → p.1.command = .cleanup := by
    intro call outcome hne p hp hidle
    rcases List.mem_cons.mp hp with rfl | hp
    · exact absurd hidle hne
    · exact h.settled p hp hidle
  unfold WorkerExecutor.finish
  split
  · exact h
  · cases reply with
    | error => exact ⟨hcons Outcome.noConfusion, h.waiting⟩
    | result wsId streamId =>
      dsimp only
      split <;> exact ⟨hcons Outcome.noConfusion, h.waiting⟩

/-- Whether commands are spared by a step. -/
theorem Spared.step_iff (h : Spared s) (hempty : Emptied s)
    (hstep : WorkerExecutor.step cfg s a = some t) : Spared t ↔ Clear cfg s a := by
  have htrue : Spared t → tearsDown cfg s a = false → (Spared t ↔ Clear cfg s a) :=
    fun ht hno => iff_of_true ht fun hyes => by cases hno.symm.trans hyes
  cases act_of_step hstep with
  | same hsame hno => exact htrue (h.congr hsame) hno
  | call command body cloneable now ha =>
    obtain ⟨lastActivity, nextStreamId, call, -, heq⟩ :=
      execute_eq s command body cloneable now
    refine htrue ?_ (by rw [ha]; rfl)
    rw [heq]
    exact (⟨h.settled, h.waiting⟩ : Spared { s with
      lastActivity := lastActivity, nextStreamId := nextStreamId }).sendCommand call
  | goOn ha hcall => exact htrue (h.post hcall) (by rw [ha]; rfl)
  | finish id reply ha => exact htrue (h.finish id reply) (by rw [ha]; rfl)
  | dispose hsame hdown =>
    rw [(h.congr hsame).dispose_iff (hempty.congr hsame), hsame.quiet_iff, hsame.cleansUp,
      hsame.disposed, ← hdown]
    rfl
  | teardown hsame hwhen hdown =>
    rw [(h.congr hsame).teardown_iff (hempty.congr hsame), hsame.quiet_iff, hsame.disposed,
      ← hdown]
    rfl

theorem Emptied.sendCommand (h : Emptied s) (call : Call) : Emptied (s.sendCommand call) := by
  unfold WorkerExecutor.sendCommand WorkerExecutor.ensureWorker
  split
  · exact h
  · split <;> exact h

theorem Emptied.step (h : Emptied s) (hstep : WorkerExecutor.step cfg s a = some t) :
    Emptied t := by
  cases act_of_step hstep with
  | same hsame => exact h.congr hsame
  | call command body cloneable now =>
    obtain ⟨lastActivity, nextStreamId, call, -, heq⟩ :=
      execute_eq s command body cloneable now
    have hnow : Emptied { s with
        lastActivity := lastActivity, nextStreamId := nextStreamId } := h
    rw [heq]
    exact hnow.sendCommand call
  | goOn =>
    unfold WorkerExecutor.post
    split
    · exact h
    · next hnone =>
        dsimp only
        split <;> exact fun hsome => absurd hnone hsome
  | finish id reply ha halive =>
    intro hsome
    refine absurd ?_ hsome
    unfold WorkerExecutor.finish
    split
    · exact halive.2
    · cases reply with
      | error => exact halive.2
      | result wsId streamId =>
        dsimp only
        split <;> exact halive.2
  | @dispose u cause hsame =>
    unfold WorkerExecutor.dispose
    split
    · have hnow : Emptied { u with disposing := some cause } := (h.congr hsame : Emptied u)
      exact hnow.sendCommand _
    · exact fun _ => rfl
  | teardown => exact fun _ => rfl

/-! ### The results -/

/-- An executor is active whenever a command is outstanding, and no command is rejected because it
was not, exactly in the runs that execute no command before the executor is disposed of: the first
one waits for the thread that it starts. No command is rejected so exactly if the executor is torn
down as inactive only while none is outstanding. Once a command has been posted, the executor is
active until it settles. -/
theorem active_iff (cfg : ExecutorConfig) (now : ℤ) (run : List Label) :
    (Throughout (WorkerExecutor.step cfg) (fun s => Covered s ∧ Spared s)
        (WorkerExecutor.start cfg now) run ↔
      Along (WorkerExecutor.step cfg) Uncalled (WorkerExecutor.start cfg now) run) ∧
    (Throughout (WorkerExecutor.step cfg) Spared (WorkerExecutor.start cfg now) run ↔
      Along (WorkerExecutor.step cfg) (Clear cfg) (WorkerExecutor.start cfg now) run) ∧
    Throughout (WorkerExecutor.step cfg) (fun s => s.pending.rows ≠ [] → s.isActive = true)
      (WorkerExecutor.start cfg now) run := by
  have hunused : Unused (WorkerExecutor.start cfg now) := unused_start now
  refine ⟨?_, ?_, ?_⟩
  · exact throughout_iff_along_of_guarded hunused ⟨hunused.covered, hunused.spared⟩
      (fun _ _ _ h _ hok hstep => h.step hok hstep)
      fun _ _ _ h _ hstep => h.covered_step_iff hstep
  · exact throughout_iff_along (J := Emptied) (fun _ => rfl) hunused.spared
      (fun _ _ _ h _ hstep => h.step hstep) fun _ _ _ hempty h hstep => h.step_iff hempty hstep
  · have hall : Along (WorkerExecutor.step cfg) unguarded (WorkerExecutor.start cfg now) run :=
      Along.of_forall fun _ _ => trivial
    exact hall.throughout (counted_start now) (fun _ h => h.isActive)
      fun _ _ _ h _ hstep => h.step hstep

/-- An executor without a container. -/
def plain : ExecutorConfig where
  container := false
  priorDisposal := false
  evictionTimeoutMs := 120000

/-- While the thread of a first fetch starts, the executor is not active; a reload then rejects the
fetch. -/
theorem not_active :
    (∃ s, Reaches (WorkerExecutor.step plain) unguarded (.start plain 0) s ∧ ¬ Covered s) ∧
    ∃ s, Reaches (WorkerExecutor.step plain) unguarded (.start plain 0) s ∧
      ({ command := .fetch }, .rejected .idle) ∈ s.settled ∧ ¬ Spared s := by
  constructor
  · have hrun : (play (restrict (WorkerExecutor.step plain) unguarded) (.start plain 0)
        [.call .fetch false true (some 0)]).any
        (fun s => decide ({ command := .fetch } ∈ s.waiting) && !s.isActive) = true := by
      decide +kernel
    obtain ⟨s, hreach, hs⟩ := exists_reaches_of_play hrun
    simp only [Bool.and_eq_true, decide_eq_true_eq, Bool.not_eq_true'] at hs
    refine ⟨s, hreach, fun hcovered => ?_⟩
    have hactive := hcovered fun hquiet => Command.noConfusion (hquiet.1 _ hs.1)
    cases hs.2.symm.trans hactive
  · have hrun : (play (restrict (WorkerExecutor.step plain) unguarded) (.start plain 0)
        [.call .fetch false true (some 0), .reload, .goOn 0]).any
        (fun s => decide ((({ command := .fetch } : Call), Outcome.rejected .idle) ∈ s.settled)) =
          true := by
      decide +kernel
    obtain ⟨s, hreach, hs⟩ := exists_reaches_of_play hrun
    have hmem := of_decide_eq_true hs
    exact ⟨s, hreach, hmem, fun hspared => Command.noConfusion (hspared.settled _ hmem rfl)⟩

end Lopata.Executor
