import Lopata.Workflow.Moves

/-!
# Active Rows and the Executions behind them

The status lives in the database, the executions in memory, and the two are written apart.
A row that says `running` or `waiting` is *driven* if some execution of the instance has not
ended and is not aborted. Starting, ending, aborting and even stopping the process keep
every active row driven. Three writes do not look whether there is an execution: `resume` of
a paused row whose execution is gone, a `restart` that throws after it has aborted the
execution, and a wait that wakes an instance whose execution is over.

## Main results

* `not_driven_resume`, `not_driven`: active rows that nothing executes.
* `driven_throughout_iff`: the rows of a run are driven throughout exactly when no step of it
  strands a row.
-/

namespace Lopata.Workflow

/-- Every row that says `running` or `waiting` has an execution that drives it. -/
def Driven (w : World) : Prop :=
  ∀ id s, w.db.status id = some s → s.active = true → w.mem.driven id = true

/-- The step leaves an active row with no execution: it resumes a paused instance without
one, it is a restart that throws although the row is active and no execution survives the
abort, or it is a wait that wakes an instance without one. -/
def strands (cfg : Config) (w : World) : Action → Prop
  | .op (.resume id) => w.db.status id = some .paused ∧ w.mem.driven id = false
  | .op (.restart id fromStep) =>
      (∃ step, fromStep = some step ∧ step ≠ "" ∧ w.db.steps.get? (id, step) = none) ∧
        (∃ s, w.db.status id = some s ∧ s.active = true) ∧
        (w.mem.abortRegistered id).driven id = false
  | .op o => ∃ id, wakes cfg w o = some id ∧ w.db.status id ≠ none ∧ w.mem.driven id = false
  | _ => False

/-! ### Drivers after a move -/

namespace Executions

variable {e : Executions} {id id' : String}

theorem driven_launch (h : e.Wf) (p : Json) (t : Millis) :
    (e.launch id' p t).driven id = true ↔ id = id' ∨ e.driven id = true := by
  simp only [driven_iff, drives_launch h.toFresh]
  constructor
  · rintro ⟨c, ⟨-, heq⟩ | hd⟩
    · exact Or.inl heq
    · exact Or.inr ⟨c, hd⟩
  · rintro (heq | ⟨c, hd⟩)
    · exact ⟨_, Or.inl ⟨rfl, heq⟩⟩
    · exact ⟨c, Or.inr hd⟩

theorem driven_register : (e.register id').driven id = e.driven id := rfl

/-- Aborting the registered execution of an instance concerns no other instance. -/
theorem driven_abortRegistered_of_ne (h : e.Wf) (hne : id ≠ id') :
    (e.abortRegistered id').driven id = true ↔ e.driven id = true := by
  simp only [driven_iff, drives_abortRegistered]
  constructor
  · rintro ⟨c, -, hd⟩
    exact ⟨c, hd⟩
  · rintro ⟨c, hd⟩
    refine ⟨c, ?_, hd⟩
    intro hreg
    obtain ⟨r, hr, hid, -, -⟩ := hd
    exact hne (hid.symm.trans (h.owner id' c r hreg hr).1)

theorem driven_settle {c : ℕ} {r : Run} {o : Outcome} (hr : e.runs.get? c = some r)
    (hphase : r.phase = .running) :
    (e.setPhase c (.settled o)).driven id = true ↔ e.driven id = true := by
  simp only [driven_iff, drives_setPhase_settled hr hphase]

/-- The end of an execution leaves the drivers of other instances. -/
theorem driven_afterEnd_of_ne {c : ℕ} {r : Run} (hr : e.runs.get? c = some r)
    (hne : id ≠ r.instanceId) (hd : e.driven id = true) :
    (e.afterEnd c r.instanceId).driven id = true := by
  rw [driven_iff] at hd ⊢
  obtain ⟨c', hd⟩ := hd
  refine ⟨c', drives_setPhase_ended.mpr ⟨?_, hd⟩⟩
  rintro rfl
  obtain ⟨r', hr', hid, -⟩ := hd
  obtain rfl := Option.some.inj (hr.symm.trans hr')
  exact hne hid.symm

/-- The end of an aborted execution leaves every driver. -/
theorem driven_afterEnd_of_aborted {c : ℕ} (hab : e.aborted c = true)
    (hd : e.driven id = true) : (e.afterEnd c id').driven id = true := by
  rw [driven_iff] at hd ⊢
  obtain ⟨c', hd⟩ := hd
  refine ⟨c', drives_setPhase_ended.mpr ⟨?_, hd⟩⟩
  rintro rfl
  obtain ⟨r, -, -, -, hnot⟩ := hd
  rw [hab] at hnot
  cases hnot

end Executions

/-! ### What a step does to driven rows -/

variable {cfg : Config} {w w' : World} {a : Action}

/-- At the end of an execution the rows that are still active are still driven. -/
theorem Driven.afterEnd (h : Driven w) {c : ℕ} {r : Run} {o : Outcome}
    (hrun : w.mem.runs.get? c = some r) {id : String} {s : Status}
    (hs : statusAfterEnd w c r.instanceId o id = some s) (hact : s.active = true) :
    (w.mem.toExecutions.afterEnd c r.instanceId).driven id = true := by
  simp only [statusAfterEnd] at hs
  split at hs
  · obtain ⟨s₀, hs₀, rfl⟩ := Option.map_eq_some_iff.mp hs
    cases hab : w.mem.aborted c with
    | false =>
      rw [hab, not_active_endStatus] at hact
      cases hact
    | true =>
      rw [hab, getD_endStatus_of_aborted] at hact
      exact Executions.driven_afterEnd_of_aborted hab (h id s₀ hs₀ hact)
  · next hne => exact Executions.driven_afterEnd_of_ne hrun hne (h id s hs hact)

/-- Among the step operations those that wake a row without an execution strand it. -/
theorem strands_of_isStepOp {o : Op} (ho : o.isStepOp = true) :
    strands cfg w (.op o) ↔
      ∃ id, wakes cfg w o = some id ∧ w.db.status id ≠ none ∧ w.mem.driven id = false := by
  cases o <;> first | exact Iff.rfl | cases ho

/-- If each active row was active before, or is driven, and drivers survive, the rows stay
driven. -/
theorem Driven.of_rows (h : Driven w)
    (hrows : ∀ id s, w'.db.status id = some s → s.active = true →
      w'.mem.driven id = true ∨ ((∃ s₀, w.db.status id = some s₀ ∧ s₀.active = true) ∧
        (w.mem.driven id = true → w'.mem.driven id = true))) : Driven w' := by
  intro id s hs hact
  rcases hrows id s hs hact with hd | ⟨⟨s₀, hs₀, hact₀⟩, hkeep⟩
  · exact hd
  · exact hkeep (h id s₀ hs₀ hact₀)

/-- The moves that always keep the active rows driven. -/
theorem Driven.of_same (h : Driven w) (hexecs : w'.mem.toExecutions = w.mem.toExecutions)
    (hrows : ∀ id s, w'.db.status id = some s → s.active = true →
      ∃ s₀, w.db.status id = some s₀ ∧ s₀.active = true) : Driven w' :=
  h.of_rows fun id s hs hact => Or.inr ⟨hrows id s hs hact, fun hd => hexecs ▸ hd⟩

/-- A move that makes one row active: the rows are driven exactly if that one is. -/
theorem Driven.iff_of_wake (h : Driven w) {id : String} {s : Status} (hact : s.active = true)
    (hexecs : w'.mem.toExecutions = w.mem.toExecutions)
    (hstatus : ∀ id', w'.db.status id' = if id' = id then some s else w.db.status id') :
    Driven w' ↔ w.mem.driven id = true := by
  constructor
  · intro h'
    rw [← hexecs]
    exact h' id s (by rw [hstatus, if_pos rfl]) hact
  · intro hd id' s' hs' hact'
    rw [hexecs]
    rw [hstatus] at hs'
    split at hs'
    · next heq => exact heq ▸ hd
    · exact h id' s' hs' hact'

/-- The rows after a refused `restart`, whose execution was aborted all the same. -/
theorem Driven.iff_of_restartFailed (hwf : w.mem.toExecutions.Wf) (h : Driven w) {id : String}
    (hexecs : w'.mem.toExecutions = (w.mem.toExecutions.abortRegistered id).register id)
    (hstatus : ∀ id', w'.db.status id' = w.db.status id') :
    Driven w' ↔ ¬ ((∃ s, w.db.status id = some s ∧ s.active = true) ∧
      (w.mem.abortRegistered id).driven id = false) := by
  rw [Memory.abortRegistered_toExecutions]
  constructor
  · rintro h' ⟨⟨s, hs, hact⟩, hnot⟩
    have hd := h' id s ((hstatus id).trans hs) hact
    rw [hexecs, Executions.driven_register, hnot] at hd
    cases hd
  · intro hnot id' s hs hact
    rw [hstatus] at hs
    rw [hexecs, Executions.driven_register]
    by_cases heq : id' = id
    · subst heq
      by_contra hd
      exact hnot ⟨⟨s, hs, hact⟩, Bool.not_eq_true _ ▸ hd⟩
    · exact (Executions.driven_abortRegistered_of_ne hwf heq).mpr (h id' s hs hact)

/-- **The step lemma.** Driven rows stay driven exactly when the step strands none. -/
theorem Driven.step_iff (hwf : w.mem.toExecutions.Wf) (h : Driven w)
    (hm : Moved cfg w a w') : Driven w' ↔ ¬ strands cfg w a := by
  cases hm with
  | ticked hexecs hstatus =>
    exact iff_of_true (h.of_same hexecs fun id s hs hact => ⟨s, hstatus id ▸ hs, hact⟩) id
  | calm hstep hwakes hexecs hstatus =>
    refine iff_of_true (h.of_same hexecs fun id s hs hact => ⟨s, hstatus id ▸ hs, hact⟩) ?_
    rw [strands_of_isStepOp hstep]
    rintro ⟨id, hw, hrow, -⟩
    exact hrow (hwakes id hw)
  | @woken o id s _ hwakes hrow hactive hexecs hstatus =>
    rw [h.iff_of_wake hactive hexecs hstatus, strands_of_isStepOp (isStepOp_of_wakes hwakes)]
    constructor
    · rintro hd ⟨id', hw, -, hnot⟩
      obtain rfl := Option.some.inj (hwakes.symm.trans hw)
      rw [hd] at hnot
      cases hnot
    · intro hnot
      by_contra hd
      exact hnot ⟨id, hwakes, hrow, Bool.not_eq_true _ ▸ hd⟩
  | rejected _ hexecs hexp =>
    refine iff_of_true (h.of_same hexecs fun id s hs hact => ⟨s, hexp.status_of_some hs, hact⟩) ?_
    rintro ⟨id, hw, -⟩
    cases hw
  | queued _ hexp _ _ hexecs hstatus =>
    refine iff_of_true (h.of_rows ?_) ?_
    · intro id s hs hact
      rw [hstatus] at hs
      split at hs
      · obtain rfl := Option.some.inj hs
        cases hact
      · exact Or.inr ⟨⟨s, hexp.status_of_some hs, hact⟩, fun hd => hexecs ▸ hd⟩
    · rintro ⟨id, hw, -⟩
      cases hw
  | created _ hexp _ _ hexecs hstatus =>
    refine iff_of_true (h.of_rows ?_) ?_
    · intro id s hs hact
      rw [hexecs, Executions.driven_launch hwf]
      rw [hstatus] at hs
      split at hs
      · next heq => exact Or.inl (Or.inl heq)
      · exact Or.inr ⟨⟨s, hexp.status_of_some hs, hact⟩, Or.inr⟩
    · rintro ⟨id, hw, -⟩
      cases hw
  | paused hexecs hstatus =>
    refine iff_of_true (h.of_same hexecs ?_) ?_
    · intro id s hs hact
      rw [hstatus] at hs
      split at hs
      · obtain ⟨s₀, hs₀, rfl⟩ := Option.map_eq_some_iff.mp hs
        split at hact
        · cases hact
        · exact ⟨s₀, hs₀, hact⟩
      · exact ⟨s, hs, hact⟩
    · rintro ⟨id, hw, -⟩
      cases hw
  | @resumed id s _ hactive hexecs hstatus =>
    by_cases hp : w.db.status id = some .paused
    · have hst : ∀ id', w'.db.status id' = if id' = id then some s else w.db.status id' := by
        intro id'
        rw [hstatus]
        split
        · next heq =>
            rw [heq, hp]
            rfl
        · rfl
      rw [h.iff_of_wake hactive hexecs hst]
      simp [strands, hp]
    · refine iff_of_true (h.of_same hexecs ?_) fun hstr => hp hstr.1
      intro id' s' hs' hact'
      rw [hstatus] at hs'
      split at hs'
      · next heq =>
          obtain ⟨s₀, hs₀, rfl⟩ := Option.map_eq_some_iff.mp hs'
          have hne : s₀ ≠ .paused := by
            rintro rfl
            exact hp (heq ▸ hs₀)
          rw [if_neg hne] at hact'
          exact ⟨s₀, hs₀, hact'⟩
      · exact ⟨s', hs', hact'⟩
  | @terminated id _ hexecs hstatus =>
    refine iff_of_true (h.of_rows ?_) ?_
    · intro id' s hs hact
      rw [hstatus] at hs
      split at hs
      · obtain ⟨s₀, -, rfl⟩ := Option.map_eq_some_iff.mp hs
        cases s₀ <;> cases hact
      · next hne =>
          rw [hexecs, Executions.driven_abortRegistered_of_ne hwf hne]
          exact Or.inr ⟨⟨s, hs, hact⟩, fun hd => hd⟩
    · rintro ⟨id, hw, -⟩
      cases hw
  | restartMissing hrow hexecs hstatus =>
    refine iff_of_true (h.of_same hexecs fun id s hs hact => ⟨s, hstatus id ▸ hs, hact⟩) ?_
    rintro ⟨-, ⟨s, hs, -⟩, -⟩
    rw [hrow] at hs
    cases hs
  | @restartFailed id step _ hrow hne hnone hexecs hstatus =>
    rw [Driven.iff_of_restartFailed hwf h hexecs hstatus]
    have hfail : ∃ step', some step = some step' ∧ step' ≠ "" ∧
        w.db.steps.get? (id, step') = none :=
      ⟨step, rfl, hne, hnone⟩
    simp only [strands, hfail, true_and]
  | @restarted id fromStep p t _ hrow hfound hexecs hstatus =>
    refine iff_of_true (h.of_rows ?_) ?_
    · intro id' s hs hact
      rw [hexecs, Executions.driven_launch (hwf.abortRegistered id)]
      rw [hstatus] at hs
      split at hs
      · next heq => exact Or.inl (Or.inl heq)
      · next hne =>
          rw [Executions.driven_abortRegistered_of_ne hwf hne]
          exact Or.inr ⟨⟨s, hs, hact⟩, Or.inr⟩
    · rintro ⟨⟨step, heq, hne, hnone⟩, -⟩
      exact hfound step heq hne hnone
  | settled hrun hphase hexecs hstatus =>
    refine iff_of_true (h.of_rows ?_) ?_
    · intro id s hs hact
      rw [hexecs, Executions.driven_settle hrun hphase]
      rw [hstatus] at hs
      exact Or.inr ⟨⟨s, hs, hact⟩, fun hd => hd⟩
    · rintro ⟨id, hw, -⟩
      cases hw
  | ended hrun _ hexecs _ hstatus =>
    refine iff_of_true ?_ ?_
    · intro id s hs hact
      rw [hstatus] at hs
      rw [hexecs]
      exact h.afterEnd hrun hs hact
    · rintro ⟨id, hw, -⟩
      cases hw
  | dequeued hrun _ _ hexecs hstatus =>
    refine iff_of_true ?_ ?_
    · intro id s hs hact
      rw [hstatus] at hs
      rw [hexecs, Executions.driven_launch (hwf.afterEnd hrun)]
      split at hs
      · next heq => exact Or.inl heq
      · exact Or.inr (h.afterEnd hrun hs hact)
    · rintro ⟨id, hw, -⟩
      cases hw
  | crashed hcut hresumed =>
    refine iff_of_true ?_ ?_
    · intro id s hs hact
      rw [hresumed.status] at hs
      obtain ⟨s₀, hs₀, rfl⟩ := Option.map_eq_some_iff.mp hs
      rw [Executions.driven_iff]
      refine hresumed.started.driven id ⟨s₀, hs₀, ?_⟩
      by_contra hnot
      rw [if_neg hnot] at hact
      exact hnot hact
    · cases a with
      | op => cases hcut
      | _ => exact id

/-! ### The results -/

theorem driven_init : Driven World.init := by
  intro id s hs
  cases hs

/-- **Active rows are driven.** In a run every active row is driven throughout exactly when
no step strands one. -/
theorem driven_throughout_iff (cfg : Config) (as : List Action) :
    Throughout (act cfg) Driven .init as ↔
      Along (act cfg) (fun w a => ¬ strands cfg w a) .init as :=
  throughout_iff_along (J := fun w => w.mem.toExecutions.Wf) wf_init driven_init
    (fun _ _ _ hJ _ hstep => (act_moves hstep).wf hJ)
    (fun _ _ _ hJ hI hstep => hI.step_iff hJ (act_moves hstep))

/-- A `restart` from a step that was never recorded. -/
theorem not_driven :
    ¬ ∀ w, Reaches (act .defaults) unguarded .init w → Driven w := by
  intro hall
  have hrun : (play (restrict (act .defaults) unguarded) .init
      [.op (.create (some "a") none), .op (.restart "a" (some "nope"))]).any
      (fun w => w.db.status "a" = some .running ∧ w.mem.driven "a" = false) = true := by
    decide
  obtain ⟨w, hreach, hw⟩ := exists_reaches_of_play hrun
  obtain ⟨hs, hnot⟩ := of_decide_eq_true hw
  have hd := hall w hreach "a" .running hs rfl
  rw [hnot] at hd
  cases hd

end Lopata.Workflow
