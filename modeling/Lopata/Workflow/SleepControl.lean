import Lopata.Workflow.Sleeps

/-!
# Skipping Sleeps

`isInstanceSleeping` asks whether the instance has a resolver in `sleepResolvers`, and `skipSleep`
calls it. The registry has one slot for an instance: a sleep that starts takes it over, and every
sleep that ends clears it, also when it belongs to another one. A skip is not recorded: a replay
goes by the recorded deadline, or by the argument of `sleepUntil`.

## Main results

* `known_segment_iff`: an operation keeps the registry exact unless it ends a sleep next to another
  one of the same instance.
* `controlled_iff`: the registry is exact, `skipSleep` ends a sleep and sleeps that have ended return
  at once, exactly in the runs in which no sleep ends next to another one and no ended sleep is
  called again before its time.
* `not_controlled`: two sleeps side by side, and a skip before a stop of the process.
-/

namespace Lopata.Workflow

/-- `isInstanceSleeping`. -/
def Memory.isInstanceSleeping (m : Memory) (id : String) : Bool :=
  (m.sleepResolvers id).isSome

/-- Call `k` is in a sleep of the instance. -/
def Memory.Sleeps (m : Memory) (k : ℕ) (id : String) : Prop :=
  ∃ x, m.calls.get? k = some x ∧ x.sleepsFor id = true

/-- An instance is known to sleep exactly while a sleep of it is unfinished. -/
def Memory.Known (m : Memory) : Prop :=
  ∀ id, m.isInstanceSleeping id = true ↔ ∃ k, m.Sleeps k id

/-- The execution that is registered for the instance sleeps, and another execution of the instance
does too. -/
def Memory.Mixed (m : Memory) (id : String) : Prop :=
  ∃ c, m.abortControllers id = some c ∧
    (∃ k x, m.calls.get? k = some x ∧ x.sleepsFor id = true ∧ x.run = c) ∧
    ∃ k x, m.calls.get? k = some x ∧ x.sleepsFor id = true ∧ x.run ≠ c

/-- The operation ends a sleep while another sleep of the same instance goes on. -/
def unsettles (w : World) : Op → Prop
  | .sleepOver k => ∃ id, w.mem.Sleeps k id ∧ ∃ k', k' ≠ k ∧ w.mem.Sleeps k' id
  | .skipSleep id => ∃ k, w.mem.Sleeps k id ∧ ∃ k', k' ≠ k ∧ w.mem.Sleeps k' id
  | .terminate id => w.mem.Mixed id
  | .restart id _ => (w.db.instances.get? id).isSome = true ∧ w.mem.Mixed id
  | _ => False

variable {cfg : Config} {w w' : World} {m m' : Memory} {k : ℕ} {x : Call} {id : String} {g : Seg}
  {o : Op}

/-! ### The registry -/

theorem Call.sleepsFor_iff : x.sleepsFor id = true ↔ x.instanceId = id ∧
    ∃ due, x.susp = .sleeping due := by
  unfold Call.sleepsFor
  split
  · next due hsusp => simp [hsusp]
  · next hsusp => exact iff_of_false (by simp) fun ⟨_, due, h⟩ => hsusp due h

theorem Call.not_sleepsFor (hx : ∀ due, x.susp ≠ .sleeping due) : x.sleepsFor id = false := by
  rw [Bool.eq_false_iff]
  intro h
  obtain ⟨-, due, hsusp⟩ := Call.sleepsFor_iff.mp h
  exact hx due hsusp

/-- The resolver of an instance belongs to a sleep of it. -/
theorem Memory.Linked.sleeps (h : m.Linked) (hk : m.sleepResolvers id = some k) :
    m.Sleeps k id := by
  obtain ⟨x, due, hx, hid, hsusp⟩ := h.sleeper id k hk
  exact ⟨x, hx, Call.sleepsFor_iff.mpr ⟨hid, due, hsusp⟩⟩

theorem Memory.Linked.known_iff (h : m.Linked) :
    m.Known ↔ ∀ k id, m.Sleeps k id → m.isInstanceSleeping id = true := by
  constructor
  · intro hknown k id hk
    exact (hknown id).mpr ⟨k, hk⟩
  · intro hall id
    refine ⟨fun hslot => ?_, fun ⟨k, hk⟩ => hall k id hk⟩
    obtain ⟨k, hk⟩ := Option.isSome_iff_exists.mp hslot
    exact ⟨k, h.sleeps hk⟩

/-- Nothing changes for the sleeps. -/
theorem Memory.Known.still (h : m.Known) (hsleeps : ∀ k id, m'.Sleeps k id ↔ m.Sleeps k id)
    (hslots : m'.sleepResolvers = m.sleepResolvers) : m'.Known := by
  intro id
  simp only [Memory.isInstanceSleeping, hslots, hsleeps]
  exact h id

theorem Memory.Known.of_calls (h : m.Known) (hcalls : m'.calls = m.calls)
    (hslots : m'.sleepResolvers = m.sleepResolvers) : m'.Known :=
  h.still (fun k id => by unfold Memory.Sleeps; rw [hcalls]) hslots

/-- A call that does not sleep settles. -/
theorem sleeps_settle (hk : m.calls.get? k = some x) (hx : ∀ due, x.susp ≠ .sleeping due) (k' : ℕ)
    (id : String) : (m.settle k).Sleeps k' id ↔ m.Sleeps k' id := by
  unfold Memory.Sleeps Memory.settle
  simp only [Table.get?_erase]
  split
  · next hkk =>
      subst hkk
      refine iff_of_false (by simp) ?_
      rintro ⟨x', hx', hs⟩
      obtain rfl := Option.some.inj (hk.symm.trans hx')
      cases (Call.not_sleepsFor hx).symm.trans hs
  · rfl

/-- A call that does not sleep is suspended, and does not sleep. -/
theorem sleeps_suspend (hk : m.calls.get? k = some x) (hx : ∀ due, x.susp ≠ .sleeping due)
    {s : Suspension} (hs : ∀ due, s ≠ .sleeping due) (k' : ℕ) (id : String) :
    (m.suspend k s).Sleeps k' id ↔ m.Sleeps k' id := by
  unfold Memory.Sleeps Memory.suspend
  simp only [Table.get?_modify]
  split
  · next hkk =>
      subst hkk
      refine iff_of_false ?_ ?_
      · rintro ⟨x', hx', hsleeps⟩
        rw [hk] at hx'
        obtain rfl := Option.some.inj hx'
        obtain ⟨-, due, hsusp⟩ := Call.sleepsFor_iff.mp hsleeps
        exact hs due hsusp
      · rintro ⟨x', hx', hsleeps⟩
        obtain rfl := Option.some.inj (hk.symm.trans hx')
        cases (Call.not_sleepsFor hx).symm.trans hsleeps
  · rfl

/-- The end of a sleep leaves the registry exact if the instance has no other. -/
theorem known_endSleep_iff (h : m.Known) (hk : m.Sleeps k id) :
    ((m.deleteSleepResolver id).settle k).Known ↔ ∀ k', m.Sleeps k' id → k' = k := by
  have hsleeps : ∀ k' id', ((m.deleteSleepResolver id).settle k).Sleeps k' id' ↔
      k' ≠ k ∧ m.Sleeps k' id' := by
    intro k' id'
    unfold Memory.Sleeps Memory.settle Memory.deleteSleepResolver
    simp only [Table.get?_erase]
    split
    · next hkk => simp [hkk]
    · next hkk => simp [hkk]
  have hslot : ∀ id', ((m.deleteSleepResolver id).settle k).isInstanceSleeping id' =
      if id' = id then false else m.isInstanceSleeping id' := by
    intro id'
    unfold Memory.isInstanceSleeping Memory.settle Memory.deleteSleepResolver
    dsimp only
    split
    · next hid => rw [hid, Function.update_self]; rfl
    · next hid => rw [Function.update_of_ne hid]
  constructor
  · intro hknown k' hk'
    by_contra hne
    have hslot' := (hknown id).mpr ⟨k', (hsleeps k' id).mpr ⟨hne, hk'⟩⟩
    rw [hslot, if_pos rfl] at hslot'
    cases hslot'
  · intro honly id'
    rw [hslot]
    simp only [hsleeps]
    by_cases hid : id' = id
    · subst hid
      rw [if_pos rfl]
      refine iff_of_false (by simp) ?_
      rintro ⟨k', hne, hk'⟩
      exact hne (honly k' hk')
    · rw [if_neg hid, h id']
      refine exists_congr fun k' => ⟨fun hk' => ⟨?_, hk'⟩, fun hk' => hk'.2⟩
      rintro rfl
      obtain ⟨x, hx, hs⟩ := hk
      obtain ⟨x', hx', hs'⟩ := hk'
      obtain rfl := Option.some.inj (hx.symm.trans hx')
      exact hid ((Call.sleepsFor_iff.mp hs').1.symm.trans (Call.sleepsFor_iff.mp hs).1)

/-- The calls of an execution that is aborted do not sleep. -/
theorem Memory.Linked.run_ne_of_aborted (h : m.Linked) {c : ℕ} (hc : m.aborted c = true)
    (hk : m.calls.get? k = some x) (hx : x.sleepsFor id = true) : x.run ≠ c := by
  rintro rfl
  obtain ⟨-, due, hsusp⟩ := Call.sleepsFor_iff.mp hx
  have hnot := h.aborted k x hk hc
  rw [hsusp] at hnot
  cases hnot

theorem sleeps_abort (h : m.Linked) (c k : ℕ) (id : String) : (m.abort c).Sleeps k id ↔
    ∃ x, m.calls.get? k = some x ∧ x.sleepsFor id = true ∧ x.run ≠ c := by
  unfold Memory.Sleeps Memory.abort
  split
  · next hc =>
      refine exists_congr fun x => and_congr_right fun hk => ?_
      exact ⟨fun hx => ⟨hx, h.run_ne_of_aborted hc hk hx⟩, fun hx => hx.1⟩
  · simp only [Table.get?_filter, Option.filter_eq_some_iff]
    refine exists_congr fun x => ?_
    constructor
    · rintro ⟨⟨hk, hkeep⟩, hx⟩
      refine ⟨hk, hx, fun hrun => ?_⟩
      obtain ⟨-, due, hsusp⟩ := Call.sleepsFor_iff.mp hx
      simp [hrun, hsusp, Suspension.abortable] at hkeep
    · rintro ⟨hk, hx, hrun⟩
      exact ⟨⟨hk, by simp [hrun]⟩, hx⟩

theorem isInstanceSleeping_abort (h : m.Linked) (c : ℕ) (id : String) :
    (m.abort c).isInstanceSleeping id = true ↔ m.isInstanceSleeping id = true ∧
      ¬ ∃ k x, m.calls.get? k = some x ∧ x.sleepsFor id = true ∧ x.run = c := by
  unfold Memory.isInstanceSleeping Memory.abort
  split
  · next hc =>
      refine (and_iff_left ?_).symm
      rintro ⟨k, x, hk, hx, hrun⟩
      exact h.run_ne_of_aborted hc hk hx hrun
  · dsimp only
    split
    · next hany =>
        obtain ⟨p, hp, hboth⟩ := List.any_eq_true.mp hany
        simp only [Bool.and_eq_true, decide_eq_true_eq] at hboth
        refine iff_of_false (by simp) fun hnot => hnot.2 ?_
        exact ⟨p.1, p.2, Table.mem_rows_iff.mp hp, hboth.2, hboth.1⟩
    · next hnone =>
        refine (and_iff_left ?_).symm
        rintro ⟨k, x, hk, hx, hrun⟩
        refine hnone (List.any_eq_true.mpr ⟨(k, x), Table.mem_of_get? hk, ?_⟩)
        simp [hx, hrun]

/-- An abort leaves the registry exact unless another execution sleeps for the same instance. -/
theorem known_abort_iff (hl : m.Linked) (h : m.Known) (c : ℕ) : (m.abort c).Known ↔
    ∀ id k x, m.calls.get? k = some x → x.sleepsFor id = true → x.run ≠ c →
      ¬ ∃ k x, m.calls.get? k = some x ∧ x.sleepsFor id = true ∧ x.run = c := by
  rw [(hl.abort c).known_iff]
  simp only [sleeps_abort hl, isInstanceSleeping_abort hl]
  constructor
  · intro hall id k x hk hx hrun
    exact (hall k id ⟨x, hk, hx, hrun⟩).2
  · rintro hnone k id ⟨x, hk, hx, hrun⟩
    exact ⟨(h id).mpr ⟨k, x, hk, hx⟩, hnone id k x hk hx hrun⟩

theorem known_abortRegistered_iff (hl : m.Linked) (hwf : m.toExecutions.Wf) (h : m.Known) :
    (m.abortRegistered id).Known ↔ ¬ m.Mixed id := by
  unfold Memory.abortRegistered Memory.Mixed
  split
  · next c hc =>
      rw [known_abort_iff hl h]
      constructor
      · rintro hnone ⟨c', hc', hown, k, x, hk, hx, hrun⟩
        obtain rfl := Option.some.inj (hc.symm.trans hc')
        exact hnone id k x hk hx hrun hown
      · rintro hnot id' k x hk hx hrun ⟨k', x', hk', hx', hrun'⟩
        -- the sleeps of the registered execution are sleeps of the instance
        obtain ⟨r, hr, hid⟩ := hl.run k' x' hk'
        have howner := (hwf.owner id c r hc (hrun' ▸ hr)).1
        obtain rfl : id' = id := by
          rw [← howner, hid, (Call.sleepsFor_iff.mp hx').1]
        exact hnot ⟨c, hc, ⟨k', x', hk', hx', hrun'⟩, k, x, hk, hx, hrun⟩
  · next hnone =>
      refine iff_of_true h ?_
      rintro ⟨c, hc, -⟩
      cases hnone.symm.trans hc

/-! ### Operations and the registry -/

theorem sleepResolvers_getWaitersForInstance (m : Memory) (id : String) :
    (m.getWaitersForInstance id).2.sleepResolvers = m.sleepResolvers := by
  unfold Memory.getWaitersForInstance
  split <;> rfl

/-- A call that continues keeps the registry exact, unless its sleep ends next to another one. -/
theorem known_callMove_iff (h : w.mem.Known) (hl : w.mem.Linked)
    (hk : w.mem.calls.get? k = some x) (hm : CallMove w k x m') :
    m'.Known ↔ ∀ due, x.susp = .sleeping due → ∀ k', w.mem.Sleeps k' x.instanceId → k' = k := by
  have hstill : ∀ {m : Memory}, (∀ due, x.susp ≠ .sleeping due) →
      (∀ k' id, m.Sleeps k' id ↔ w.mem.Sleeps k' id) →
      m.sleepResolvers = w.mem.sleepResolvers →
      (m.Known ↔ ∀ due, x.susp = .sleeping due → ∀ k', w.mem.Sleeps k' x.instanceId → k' = k) :=
    fun hx hsleeps hslots =>
      iff_of_true (h.still hsleeps hslots) fun due hsusp => absurd hsusp (hx due)
  cases hm with
  | settled hm hx =>
    obtain ⟨i, rfl⟩ := hm
    have hawake := (Suspension.unregistered_spec hx).2
    exact hstill hawake (sleeps_settle (m := { w.mem with impls := i }) hk hawake) rfl
  | parked hm hx hs =>
    obtain ⟨i, rfl⟩ := hm
    have hawake := (Suspension.unregistered_spec hx).2
    exact hstill hawake (sleeps_suspend (m := { w.mem with impls := i }) hk hawake
      (Suspension.unregistered_spec hs).2) rfl
  | @slept _ due hm hx hab =>
    obtain ⟨i, rfl⟩ := hm
    refine iff_of_true ?_ fun due hsusp => by cases hx.symm.trans hsusp
    rw [(hl.callMove hk (.slept ⟨i, rfl⟩ hx hab)).known_iff]
    intro k' id
    rintro ⟨x', hx', hs⟩
    unfold Memory.isInstanceSleeping
    dsimp only
    by_cases hid : id = x.instanceId
    · rw [hid, Function.update_self]
      rfl
    · rw [Function.update_of_ne hid]
      refine (h id).mpr ⟨k', ?_⟩
      simp only [Memory.suspend, Table.get?_modify] at hx'
      split at hx'
      · next hkk =>
          subst hkk
          rw [hk] at hx'
          obtain rfl := Option.some.inj hx'
          exact absurd (Call.sleepsFor_iff.mp hs).1.symm hid
      · exact ⟨x', hx', hs⟩
  | @waited _ name ty timeout ms hm hx hmethod hab =>
    obtain ⟨i, rfl⟩ := hm
    have hawake : ∀ due, x.susp ≠ .sleeping due := fun due hsusp => by cases hx.symm.trans hsusp
    refine hstill hawake (fun k' id => ?_) (sleepResolvers_getWaitersForInstance ..)
    refine (sleeps_suspend (m := (({ w.mem with impls := i } : Memory).getWaitersForInstance
      x.instanceId).2) ?_ hawake (fun _ hs => by cases hs) k' id).trans ?_
    · rwa [Memory.calls_getWaitersForInstance]
    · unfold Memory.Sleeps
      rw [Memory.calls_getWaitersForInstance]
  | sleptOver hx =>
    rw [known_endSleep_iff h ⟨x, hk, Call.sleepsFor_iff.mpr ⟨rfl, _, hx⟩⟩]
    exact ⟨fun honly _ _ => honly, fun hall => hall _ hx⟩
  | timedOut hx =>
    have hawake : ∀ due, x.susp ≠ .sleeping due := fun due hsusp => by cases hx.symm.trans hsusp
    exact hstill hawake (sleeps_settle hk hawake) rfl

/-- The timer of a sleep fires for a call that sleeps. -/
theorem sleeping_of_sleepOver (hg : callSegment cfg w k x (.sleepOver k) = some g) :
    ∃ due, x.susp = .sleeping due := by
  simp only [callSegment] at hg
  split at hg
  · next due hsusp => exact ⟨due, hsusp⟩
  · cases hg

/-- Only the end of a sleep continues a sleeping call. -/
theorem sleepOver_of_sleeping (hg : callSegment cfg w k x o = some g) {due : Millis}
    (hsusp : x.susp = .sleeping due) : ∃ k', o = .sleepOver k' := by
  cases o with
  | sleepOver k' => exact ⟨k', rfl⟩
  | poll | enter | callback | retry | eventTimeout | eventResume =>
    simp [callSegment, hsusp] at hg
  | _ => cases hg

/-- **Operations and the registry.** An operation keeps the registry exact unless it ends a sleep
next to another one of the same instance. -/
theorem known_segment_iff (h : w.mem.Known) (hl : w.mem.Linked) (hwf : w.mem.toExecutions.Wf)
    (hg : segment cfg w o = some g) : g.mem.Known ↔ ¬ unsettles w o := by
  cases o with
  | create id? params =>
    obtain rfl := Option.some.inj hg
    refine iff_of_true (h.of_calls (create_calls cfg w id? params) ?_) fun hf => hf
    have hid : (newId w id?).2.sleepResolvers = w.mem.sleepResolvers := by cases id? <;> rfl
    simp only [create, createWith]
    split
    · exact hid
    · split
      · exact hid
      · split <;> exact hid
  | pause id | resume id =>
    obtain rfl := Option.some.inj hg
    exact iff_of_true h fun hf => hf
  | terminate id =>
    obtain rfl := Option.some.inj hg
    exact known_abortRegistered_iff hl hwf h
  | restart id fromStep =>
    obtain rfl := Option.some.inj hg
    rcases restart_cases w id fromStep with ⟨hnone, hseg⟩ | ⟨row, hrow, hcase⟩
    · rw [hseg]
      refine iff_of_true h ?_
      rintro ⟨hsome, -⟩
      rw [hnone] at hsome
      cases hsome
    · have habort : (w.mem.abortRegistered id).Known ↔ ¬ w.mem.Mixed id :=
        known_abortRegistered_iff hl hwf h
      have hmem : (restart w id fromStep).mem.Known ↔ (w.mem.abortRegistered id).Known := by
        rcases hcase with ⟨step, -, -, -, -, hmem⟩ | ⟨s, -, -, -, hmem⟩
        · rw [hmem]
          exact ⟨fun h => h.of_calls rfl rfl, fun h => h.of_calls rfl rfl⟩
        · rw [hmem]
          exact ⟨fun h => h.of_calls rfl rfl, fun h => h.of_calls rfl rfl⟩
      rw [hmem, habort]
      refine not_congr ⟨fun hmixed => ⟨by rw [hrow]; rfl, hmixed⟩, fun hboth => hboth.2⟩
  | skipSleep id =>
    obtain rfl := Option.some.inj hg
    simp only [skipSleep]
    split
    · next k hslot =>
        have hk := hl.sleeps hslot
        rw [known_endSleep_iff h hk]
        constructor
        · rintro honly ⟨k₁, hk₁, k₂, hne, hk₂⟩
          exact hne ((honly k₂ hk₂).trans (honly k₁ hk₁).symm)
        · intro hnot k' hk'
          by_contra hne
          exact hnot ⟨k, hk, k', hne, hk'⟩
    · next hslot =>
        refine iff_of_true h ?_
        rintro ⟨k, hk, -⟩
        have hsome := (h id).mpr ⟨k, hk⟩
        rw [Memory.isInstanceSleeping, hslot] at hsome
        cases hsome
  | sendEvent id ty payload =>
    obtain rfl := Option.some.inj hg
    refine iff_of_true ?_ fun hf => hf
    simp only [sendEvent]
    split
    · exact h
    · split
      · next map k hw =>
          obtain ⟨-, -, x, hk, -, hx⟩ := hl.waiter_spec hw
          obtain ⟨_, _, due, -, hsusp⟩ := Call.waitsIn_iff.mp hx
          have hawake : ∀ due, x.susp ≠ .sleeping due := fun due hs => by
            cases hsusp.symm.trans hs
          refine h.still (sleeps_suspend (m := w.mem.deleteWaiter map ty) hk hawake ?_) rfl
          intro due hs
          cases hs
      · exact h
  | call c method =>
    obtain ⟨r, hr, rfl⟩ := Option.map_eq_some_iff.mp hg
    refine iff_of_true ?_ fun hf => hf
    simp only [stepCall]
    split
    · exact h
    · split
      · exact h
      · refine h.still (fun k id => ?_) rfl
        unfold Memory.Sleeps
        simp only [Table.get?_insert]
        split
        · next hk =>
            -- the new call is in its pause check, and its number is fresh
            subst hk
            refine iff_of_false ?_ ?_
            · rintro ⟨x, hx, hs⟩
              obtain rfl := Option.some.inj hx
              obtain ⟨-, due, hsusp⟩ := Call.sleepsFor_iff.mp hs
              exact (Suspension.unregistered_spec pauseRound_abortable.1).2 due hsusp
            · rintro ⟨x, hx, -⟩
              exact lt_irrefl _ (hl.fresh _ x hx)
        · rfl
  | sleepOver k =>
    obtain ⟨x, hk, hg⟩ := Option.bind_eq_some_iff.mp hg
    rw [known_callMove_iff h hl hk (callSegment_move hg)]
    obtain ⟨due, hsusp⟩ := sleeping_of_sleepOver hg
    have hsleeps : w.mem.Sleeps k x.instanceId :=
      ⟨x, hk, Call.sleepsFor_iff.mpr ⟨rfl, due, hsusp⟩⟩
    constructor
    · rintro honly ⟨id, ⟨x', hx', hs⟩, k', hne, hk'⟩
      obtain rfl := Option.some.inj (hk.symm.trans hx')
      rw [← (Call.sleepsFor_iff.mp hs).1] at hk'
      exact hne (honly due hsusp k' hk')
    · intro hnot _ _ k' hk'
      by_contra hne
      exact hnot ⟨x.instanceId, hsleeps, k', hne, hk'⟩
  | poll k | enter k | callback k outcome | retry k | eventTimeout k | eventResume k =>
    obtain ⟨x, hk, hg⟩ := Option.bind_eq_some_iff.mp hg
    rw [known_callMove_iff h hl hk (callSegment_move hg)]
    refine iff_of_true (fun due hsusp => ?_) fun hf => hf
    obtain ⟨k', heq⟩ := sleepOver_of_sleeping hg hsusp
    cases heq
  | runSettles c outcome =>
    obtain ⟨r, -, hg⟩ := Option.bind_eq_some_iff.mp hg
    split at hg
    · obtain rfl := Option.some.inj hg
      exact iff_of_true (h.of_calls rfl rfl) fun hf => hf
    · cases hg
  | runEnds c =>
    obtain ⟨r, hr, hg⟩ := Option.bind_eq_some_iff.mp hg
    split at hg
    · next outcome hphase =>
        obtain rfl := Option.some.inj hg
        refine iff_of_true ?_ fun hf => hf
        rcases executeEnd_cases w c r outcome with
          ⟨-, -, hmem⟩ | ⟨q, row, -, -, -, -, hmem⟩
        · rw [hmem]
          exact h.of_calls rfl rfl
        · rw [hmem]
          exact h.of_calls rfl rfl
    · cases hg

/-! ### Sleeps that have ended -/

/-- The recorded deadline of a sleep is over; for a `sleepUntil`, the time it asks for. A row
without a deadline counts as over. -/
def Call.overdue (cfg : Config) (w : World) (x : Call) : Prop :=
  match x.method with
  | .sleep name _ => ∃ row o, w.db.steps.get? (x.instanceId, "sleep:" ++ name) = some row ∧
      row.output = some o ∧ ∀ t, o.untilNumber cfg = some t → t ≤ w.clock
  | .sleepUntil _ timestamp => timestamp ≤ w.clock
  | .doStep .. | .waitForEvent .. => True

/-- The system, and the recorded sleeps that have ended. -/
structure Slumber where
  world : World
  ended : String × String → Bool

/-- No sleep has ended. -/
def Slumber.start : Slumber := ⟨.init, fun _ => false⟩

/-- The sleep an operation ends: by its timer, by a skip, or because its deadline is over. -/
def endedBy (cfg : Config) (w : World) : Op → Option (String × String)
  | .sleepOver k => (w.mem.calls.get? k).map fun x => (x.instanceId, x.key)
  | .skipSleep id =>
      ((w.mem.sleepResolvers id).bind w.mem.calls.get?).map fun x => (x.instanceId, x.key)
  | .enter k => (w.mem.calls.get? k).bind fun x =>
      if x.method.isSleep && (enter cfg w k x).reply = .undefined then some (x.instanceId, x.key)
      else none
  | _ => none

/-- The sleep a step ends. -/
def Action.endedSleep (cfg : Config) (w : World) : Action → Option (String × String)
  | .op o => endedBy cfg w o
  | _ => none

/-- The transition function with the sleeps that have ended, as long as their rows are there. -/
def slumber (cfg : Config) (s : Slumber) (a : Action) : Option Slumber :=
  (act cfg s.world a).map fun w =>
    { world := w
      ended := fun p => (s.ended p || a.endedSleep cfg s.world == some p) &&
        (w.db.steps.get? p).isSome }

/-- Sleeps can be controlled: the registry is exact after the step, a skip ends a sleep if there is
one, and a sleep that has ended and is called again returns at once. -/
structure Controlled (cfg : Config) (s : Slumber) (a : Action) : Prop where
  known : ∀ s', slumber cfg s a = some s' → s'.world.mem.Known
  skips : ∀ id s', a = .op (.skipSleep id) → slumber cfg s a = some s' →
    (∃ k, s.world.mem.Sleeps k id) →
      ∃ k, s.world.mem.Sleeps k id ∧ s'.world.mem.calls.get? k = none
  returns : ∀ k x, a = .op (.enter k) → s.world.mem.calls.get? k = some x →
    x.method.isSleep = true → x.passes cfg s.world → s.ended (x.instanceId, x.key) = true →
      (enter cfg s.world k x).reply = .undefined

/-- The step ends a sleep next to another one of the instance, or calls a sleep that has ended
again before its time. -/
def disturbs (cfg : Config) (s : Slumber) : Action → Prop
  | .op o => unsettles s.world o ∨ ∃ k x, o = .enter k ∧ s.world.mem.calls.get? k = some x ∧
      x.method.isSleep = true ∧ x.passes cfg s.world ∧ s.ended (x.instanceId, x.key) = true ∧
      ¬ x.overdue cfg s.world
  | _ => False

/-- What the registry and the ended sleeps rest on. -/
structure Slumber.Sound (s : Slumber) : Prop where
  coherent : s.world.Coherent
  known : s.world.mem.Known
  recorded : ∀ p, s.ended p = true → (s.world.db.steps.get? p).isSome = true

theorem sound_start : Slumber.start.Sound where
  coherent := coherent_init
  known := fun _ => iff_of_false (by nofun) fun ⟨_, _, h, _⟩ => nomatch h
  recorded := fun _ h => nomatch h

/-- Good steps keep them. -/
theorem Slumber.Sound.step {s s' : Slumber} {a : Action} (h : s.Sound) (hgood : Controlled cfg s a)
    (hstep : slumber cfg s a = some s') : s'.Sound := by
  obtain ⟨w', hact, rfl⟩ := Option.map_eq_some_iff.mp hstep
  exact {
    coherent := h.coherent.act hact
    known := hgood.known _ hstep
    recorded := fun p hp => ((Bool.and_eq_true _ _).mp hp).2 }

theorem reply_sleepFor {ss : List Stmt} {ms : Millis} :
    (sleepFor w m k x ss ms).reply = .undefined ↔ ms ≤ 0 := by
  unfold sleepFor
  split
  · next hms => exact iff_of_false (by nofun) (not_le.mpr hms)
  · next hms => exact iff_of_true rfl (not_lt.mp hms)

theorem left_nonpos_iff {now t : ℤ} : t - now ≤ 0 ↔ t ≤ now := by
  omega

theorem left_le_zero {o : Recorded} {now : Millis} :
    ((o.untilNumber cfg).map (· - now)).getD 0 ≤ 0 ↔
      ∀ t, o.untilNumber cfg = some t → t ≤ now := by
  cases o.untilNumber cfg with
  | none => simp
  | some t => simpa using left_nonpos_iff

/-- A recorded sleep that passes its checks returns at once exactly if it is overdue. -/
theorem reply_enter_iff (hpass : x.passes cfg w) (hsleep : x.method.isSleep = true)
    (hrow : (w.db.steps.get? (x.instanceId, x.key)).isSome = true) :
    (enter cfg w k x).reply = .undefined ↔ x.overdue cfg w := by
  obtain ⟨hlive, henroll⟩ := hpass
  obtain ⟨row, hrow⟩ := Option.isSome_iff_exists.mp hrow
  unfold enter
  rw [if_neg (by rw [hlive]; simp)]
  split
  · next heq =>
      rw [heq] at henroll
      cases henroll
  · dsimp only
    unfold Call.overdue
    cases hmethod : x.method with
    | doStep | waitForEvent =>
      rw [hmethod] at hsleep
      cases hsleep
    | sleep name duration =>
      have hkey : x.key = "sleep:" ++ name := by rw [Call.key, hmethod]; rfl
      rw [hkey] at hrow
      simp only [sleepBody, hrow]
      split
      · next o ho => simp [reply_sleepFor, left_le_zero, ho]
      · next hnone => simp [Seg.reject, Seg.settle, hnone]
    | sleepUntil name timestamp =>
      have hkey : x.key = "sleepUntil:" ++ name := by rw [Call.key, hmethod]; rfl
      rw [hkey] at hrow
      simp only [sleepUntilBody, hrow, reply_sleepFor]
      exact left_nonpos_iff

/-- **The exact step.** A step leaves the sleeps under control unless it disturbs them. -/
theorem controlled_step_iff {s s' : Slumber} {a : Action} (h : s.Sound)
    (hstep : slumber cfg s a = some s') : Controlled cfg s a ↔ ¬ disturbs cfg s a := by
  obtain ⟨w', hact, rfl⟩ := Option.map_eq_some_iff.mp hstep
  have hcrash : ∀ {w₀ : World}, Resumed w₀ w' → w'.mem.Known := by
    intro w₀ hres id
    rw [hres.memory]
    exact iff_of_false (by nofun) fun ⟨_, _, h, _⟩ => nomatch h
  have hother : w'.mem.Known → (∀ o, a ≠ .op o) → Controlled cfg s a := by
    intro hknown hno
    refine ⟨fun s'' hs'' => ?_, fun _ _ heq => absurd heq (hno _), fun _ _ heq =>
      absurd heq (hno _)⟩
    obtain rfl := Option.some.inj (hstep.symm.trans hs'')
    exact hknown
  cases a with
  | tick ms =>
    obtain rfl := Option.some.inj hact
    exact iff_of_true (hother h.known (by nofun)) fun hf => hf
  | crashIn o n again =>
    obtain ⟨g, -, rfl⟩ := Option.map_eq_some_iff.mp hact
    exact iff_of_true (hother (hcrash (resumed_resumeAfter _ again)) (by nofun)) fun hf => hf
  | crash again =>
    obtain rfl := Option.some.inj hact
    exact iff_of_true (hother (hcrash (resumed_resumeAfter _ again)) (by nofun)) fun hf => hf
  | op o =>
    obtain ⟨g, hg, rfl⟩ := Option.map_eq_some_iff.mp hact
    have hexact := known_segment_iff h.known h.coherent.linked h.coherent.wf hg
    constructor
    · rintro hgood (hunsettles | ⟨k, x, rfl, hk, hsleep, hpass, hended, hearly⟩)
      · exact hexact.mp (hgood.known _ hstep) hunsettles
      · have hreply := hgood.returns k x rfl hk hsleep hpass hended
        exact hearly ((reply_enter_iff hpass hsleep (h.recorded _ hended)).mp hreply)
    · intro hnot
      refine ⟨?_, ?_, ?_⟩
      · intro s'' hs''
        obtain rfl := Option.some.inj (hstep.symm.trans hs'')
        exact hexact.mpr fun hunsettles => hnot (.inl hunsettles)
      · rintro id s'' heq hs'' ⟨k, hk⟩
        cases heq
        obtain rfl := Option.some.inj (hstep.symm.trans hs'')
        obtain rfl := Option.some.inj hg
        obtain ⟨k', hslot⟩ := Option.isSome_iff_exists.mp ((h.known id).mpr ⟨k, hk⟩)
        refine ⟨k', h.coherent.linked.sleeps hslot, ?_⟩
        show (skipSleep s.world id).mem.calls.get? k' = none
        simp only [skipSleep, hslot]
        exact calls_settle _ _
      · intro k x heq hk hsleep hpass hended
        cases heq
        refine (reply_enter_iff hpass hsleep (h.recorded _ hended)).mpr ?_
        by_contra hearly
        exact hnot (.inr ⟨k, x, rfl, hk, hsleep, hpass, hended, hearly⟩)

/-! ### The results -/

/-- **Sleep control.** The registry is exact, a skip ends a sleep, and sleeps that have ended return
at once, exactly in the runs in which no sleep ends next to another one of its instance and no sleep
that has ended is called again before its time. -/
theorem controlled_iff (cfg : Config) (as : List Action) :
    Along (slumber cfg) (Controlled cfg) .start as ↔
      Along (slumber cfg) (fun s a => ¬ disturbs cfg s a) .start as :=
  along_iff_along (J := Slumber.Sound) sound_start (fun _ _ _ h hgood hstep => h.step hgood hstep)
    fun _ _ _ h hstep => controlled_step_iff h hstep

/-- Two sleeps at once, until the first is over. -/
def sideBySide : List Action :=
  [.op (.create (some "a") none), .op (.call 0 (.sleep "m" (.ms 1))),
    .op (.call 0 (.sleep "n" (.ms 2))), .op (.enter 0), .op (.enter 1), .tick 1]

/-- A skipped sleep, a stop of the process, and the replay. -/
def skippedAndReplayed : List Action :=
  [.op (.create (some "a") none), .op (.call 0 (.sleep "n" (.ms 1000))), .op (.enter 0),
    .op (.skipSleep "a"), .crash [], .op (.call 0 (.sleep "n" (.ms 1000)))]

/-- When the first of two sleeps is over the instance does not count as sleeping; and a sleep that
was skipped is slept again. -/
theorem not_controlled :
    (∃ s, Reaches (slumber .defaults) unguarded .start s ∧
      (slumber .defaults s (.op (.sleepOver 0))).map (fun s' =>
        ((s'.world.mem.calls.get? 1).map fun x => x.sleepsFor "a",
          s'.world.mem.isInstanceSleeping "a")) = some (some true, false) ∧
      ¬ Controlled .defaults s (.op (.sleepOver 0))) ∧
    ∃ s, Reaches (slumber .defaults) unguarded .start s ∧
      (s.world.mem.calls.get? 0).map (fun x => (x.method.isSleep,
        decide (x.passes .defaults s.world), s.ended (x.instanceId, x.key),
          (enter .defaults s.world 0 x).reply)) =
          some (true, true, true, .pending) ∧
      ¬ Controlled .defaults s (.op (.enter 0)) := by
  constructor
  · have hrun : (play (restrict (slumber .defaults) unguarded) .start sideBySide).any (fun s =>
        decide ((slumber .defaults s (.op (.sleepOver 0))).map (fun s' =>
          ((s'.world.mem.calls.get? 1).map fun x => x.sleepsFor "a",
            s'.world.mem.isInstanceSleeping "a")) = some (some true, false))) = true := by
      decide +kernel
    obtain ⟨s, hreach, hs⟩ := exists_reaches_of_play hrun
    have hboth := of_decide_eq_true hs
    refine ⟨s, hreach, hboth, fun hgood => ?_⟩
    obtain ⟨s', hstep, hend⟩ := Option.map_eq_some_iff.mp hboth
    obtain ⟨x, hx, hsleeps⟩ := Option.map_eq_some_iff.mp (congrArg Prod.fst hend)
    have hknown := (hgood.known s' hstep "a").mpr ⟨1, x, hx, hsleeps⟩
    cases hknown.symm.trans (congrArg Prod.snd hend)
  · have hrun : (play (restrict (slumber .defaults) unguarded) .start skippedAndReplayed).any
        (fun s => decide ((s.world.mem.calls.get? 0).map (fun x => (x.method.isSleep,
          decide (x.passes .defaults s.world), s.ended (x.instanceId, x.key),
            (enter .defaults s.world 0 x).reply)) = some (true, true, true, .pending))) = true := by
      decide +kernel
    obtain ⟨s, hreach, hs⟩ := exists_reaches_of_play hrun
    have hall := of_decide_eq_true hs
    refine ⟨s, hreach, hall, fun hgood => ?_⟩
    obtain ⟨x, hk, hx⟩ := Option.map_eq_some_iff.mp hall
    simp only [Prod.mk.injEq, decide_eq_true_eq] at hx
    have hreply := hgood.returns 0 x rfl hk hx.1 hx.2.1 hx.2.2.1
    cases hreply.symm.trans hx.2.2.2

end Lopata.Workflow
