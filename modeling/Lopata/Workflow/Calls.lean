import Lopata.Workflow.Moves

/-!
# Continuations of Step Calls

What one continuation of a step call does to the process: the promise settles, or the call is
suspended again, at most one registry changes, and only by an entry of this call.

## Main results

* `CallMove`, `callSegment_move`: the moves, and that every continuation is one of them.
-/

namespace Lopata.Workflow

/-! ### The continuation of a step call -/

/-- The suspensions that are in no registry. -/
def Suspension.unregistered : Suspension → Bool
  | .sleeping _ | .waiting _ _ => false
  | _ => true

/-- What one continuation of call `k` does to the process. -/
inductive CallMove (w : World) (k : ℕ) (x : Call) : Memory → Prop
  /-- The promise settles; the call was in no registry. -/
  | settled {m : Memory} (hm : ∃ i, m = { w.mem with impls := i })
      (hx : x.susp.unregistered = true) : CallMove w k x (m.settle k)
  /-- The call is suspended again, in no registry. -/
  | parked {m : Memory} {s : Suspension} (hm : ∃ i, m = { w.mem with impls := i })
      (hx : x.susp.unregistered = true) (hs : s.unregistered = true)
      (hnot : ∀ p t, s ≠ .delivered p t)
      (hab : w.mem.aborted x.run = true → ∃ plan n, s = .retryDelay plan n none) :
      CallMove w k x (m.suspend k s)
  /-- A sleep starts. -/
  | slept {m : Memory} {due : Millis} (hm : ∃ i, m = { w.mem with impls := i })
      (hx : x.susp = .entered) (hab : w.mem.aborted x.run = false) :
      CallMove w k x
        { m.suspend k (.sleeping due) with
          sleepResolvers := Function.update m.sleepResolvers x.instanceId (some k) }
  /-- A wait starts. -/
  | waited {m : Memory} {name ty : String} {timeout : Option Duration} {ms : Millis}
      (hm : ∃ i, m = { w.mem with impls := i }) (hx : x.susp = .entered)
      (hmethod : x.method = .waitForEvent name ty timeout)
      (hab : w.mem.aborted x.run = false) : CallMove w k x (registerWaiter w m k x ty ms)
  /-- The timer of a sleep fires. -/
  | sleptOver {due : Millis} (hx : x.susp = .sleeping due) :
      CallMove w k x ((w.mem.deleteSleepResolver x.instanceId).settle k)
  /-- The timer of a wait fires. -/
  | timedOut {name ty : String} {timeout : Option Duration} {map : ℕ} {due : Millis}
      (hx : x.susp = .waiting map due) (hmethod : x.method = .waitForEvent name ty timeout) :
      CallMove w k x ((w.mem.deleteWaiter map ty).settle k)

variable {cfg : Config} {w : World} {m : Memory} {k : ℕ} {x : Call} {g : Seg} {o : Op}

theorem attemptLoop_move {plan : RetryPlan} {n : ℕ} {le : Option String}
    (hm : ∃ i, m = { w.mem with impls := i }) (hx : x.susp.unregistered = true) :
    CallMove w k x (attemptLoop w m k x plan n le).mem := by
  simp only [attemptLoop]
  split
  · exact .settled hm hx
  · split
    · exact .settled hm hx
    · next hab =>
        exact .parked hm hx rfl (fun _ _ h => by cases h) fun h => absurd h hab

theorem doBody_move {name : String} {config : StepConfig}
    (hm : ∃ i, m = { w.mem with impls := i }) (hx : x.susp.unregistered = true) :
    CallMove w k x (doBody cfg w m k x name config).mem := by
  simp only [doBody]
  split
  · exact .settled hm hx
  · split
    · exact .settled hm hx
    · exact attemptLoop_move hm hx

section Enter

variable (hm : ∃ i, m = { w.mem with impls := i }) (hx : x.susp = .entered)
  (hab : w.mem.aborted x.run = false)

include hm hx

theorem settled_of_entered {ss : List Stmt} {r : Reply} :
    CallMove w k x (Seg.settle m k ss r).mem :=
  .settled hm (by rw [hx]; rfl)

theorem rejected_of_entered {ss : List Stmt} {message : String} :
    CallMove w k x (Seg.reject m k ss message).mem :=
  .settled hm (by rw [hx]; rfl)

include hab

theorem sleepFor_move {ss : List Stmt} {ms : Millis} :
    CallMove w k x (sleepFor w m k x ss ms).mem := by
  simp only [sleepFor]
  split
  · exact .slept hm hx hab
  · exact settled_of_entered hm hx

theorem sleepBody_move {name : String} {d : Duration} :
    CallMove w k x (sleepBody cfg w m k x name d).mem := by
  simp only [sleepBody]
  split
  · split
    · exact sleepFor_move hm hx hab
    · exact rejected_of_entered hm hx
  · split
    · exact rejected_of_entered hm hx
    · split
      · exact rejected_of_entered hm hx
      · split
        · exact rejected_of_entered hm hx
        · exact sleepFor_move hm hx hab

theorem sleepUntilBody_move {name : String} {t : Millis} :
    CallMove w k x (sleepUntilBody cfg w m k x name t).mem := by
  simp only [sleepUntilBody]
  split
  · exact sleepFor_move hm hx hab
  · split
    · exact rejected_of_entered hm hx
    · split
      · exact rejected_of_entered hm hx
      · exact sleepFor_move hm hx hab

theorem waitForEventBody_move {name ty : String} {timeout : Option Duration}
    (hmethod : x.method = .waitForEvent name ty timeout) :
    CallMove w k x (waitForEventBody cfg w m k x name ty timeout).mem := by
  simp only [waitForEventBody]
  split
  · exact rejected_of_entered hm hx
  · split
    · exact settled_of_entered hm hx
    · split
      · simp only [recordEvent]
        split
        · exact settled_of_entered hm hx
        · exact rejected_of_entered hm hx
      · split
        · exact rejected_of_entered hm hx
        · exact .waited hm hx hmethod hab

end Enter

theorem enter_move (hx : x.susp = .entered) : CallMove w k x (enter cfg w k x).mem := by
  rw [enter]
  split
  · exact rejected_of_entered ⟨w.mem.impls, rfl⟩ hx
  · next hab =>
      rw [Bool.not_eq_true] at hab
      split
      · exact rejected_of_entered ⟨_, rfl⟩ hx
      · dsimp only
        split
        · exact doBody_move ⟨_, rfl⟩ (by rw [hx]; rfl)
        · exact sleepBody_move ⟨_, rfl⟩ hx hab
        · exact sleepUntilBody_move ⟨_, rfl⟩ hx hab
        · next hmethod => exact waitForEventBody_move ⟨_, rfl⟩ hx hab hmethod

theorem attemptFails_move {name : String} {plan : RetryPlan} {n : ℕ} {err : Thrown}
    (hx : x.susp.unregistered = true) :
    CallMove w k x (attemptFails w k x name plan n err).mem := by
  simp only [attemptFails]
  split
  · simp only [retryDelay]
    split
    · exact .parked ⟨_, rfl⟩ hx rfl (fun _ _ h => by cases h) fun _ => ⟨plan, n, rfl⟩
    · split
      · exact .settled ⟨_, rfl⟩ hx
      · next hab =>
          exact .parked ⟨_, rfl⟩ hx rfl (fun _ _ h => by cases h) fun h => absurd h hab
  · exact .settled ⟨_, rfl⟩ hx

theorem callbackSettles_move {name : String} {config : StepConfig} {plan : RetryPlan} {n : ℕ}
    {outcome : CallbackOutcome} (hx : x.susp.unregistered = true) :
    CallMove w k x (callbackSettles cfg w k x name config plan n outcome).mem := by
  simp only [callbackSettles]
  split
  · split
    · exact .settled ⟨_, rfl⟩ hx
    · exact attemptFails_move hx
  · exact attemptFails_move hx
  · exact .settled ⟨_, rfl⟩ hx
  · exact attemptFails_move hx

theorem pauseRound_abortable {id : String} :
    (pauseRound w id).unregistered = true ∧ ∀ p t, pauseRound w id ≠ .delivered p t := by
  simp only [pauseRound]
  split
  · exact ⟨rfl, fun _ _ => nofun⟩
  · exact ⟨rfl, fun _ _ => nofun⟩

/-- **Inversion of a continuation.** -/
theorem callSegment_move (h : callSegment cfg w k x o = some g) : CallMove w k x g.mem := by
  cases o with
  | poll k' =>
    simp only [callSegment] at h
    split at h
    · next hx =>
        split at h
        · obtain rfl := Option.some.inj h
          simp only [pollPaused]
          split
          · exact .settled ⟨_, rfl⟩ (by rw [hx]; rfl)
          · next hab =>
              exact .parked ⟨_, rfl⟩ (by rw [hx]; rfl) pauseRound_abortable.1
                pauseRound_abortable.2 fun h => absurd h hab
        · cases h
    · cases h
  | enter k' =>
    simp only [callSegment] at h
    split at h
    · next hx =>
        obtain rfl := Option.some.inj h
        exact enter_move hx
    · cases h
  | callback k' outcome =>
    simp only [callSegment] at h
    split at h
    · next hx =>
        have hun : x.susp.unregistered = true := by rw [hx]; rfl
        split at h
        · split at h
          · obtain rfl := Option.some.inj h
            exact callbackSettles_move hun
          · cases h
        · obtain rfl := Option.some.inj h
          exact callbackSettles_move hun
    · cases h
  | retry k' =>
    simp only [callSegment] at h
    split at h
    · next hx =>
        split at h
        · obtain rfl := Option.some.inj h
          exact attemptLoop_move ⟨_, rfl⟩ (by rw [hx]; rfl)
        · cases h
    · cases h
  | sleepOver k' =>
    simp only [callSegment] at h
    split at h
    · next hx =>
        split at h
        · obtain rfl := Option.some.inj h
          exact .sleptOver hx
        · cases h
    · cases h
  | eventTimeout k' =>
    simp only [callSegment] at h
    split at h
    · next hmethod hx =>
        split at h
        · obtain rfl := Option.some.inj h
          exact .timedOut hx hmethod
        · cases h
    · cases h
  | eventResume k' =>
    simp only [callSegment] at h
    split at h
    · next hmethod hx =>
        obtain rfl := Option.some.inj h
        have hun : x.susp.unregistered = true := by rw [hx]; rfl
        simp only [eventResume, recordEvent]
        split
        · exact .settled ⟨_, rfl⟩ hun
        · exact .settled ⟨_, rfl⟩ hun
    · cases h
  | _ => cases h

end Lopata.Workflow
