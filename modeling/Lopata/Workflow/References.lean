import Lopata.Workflow.Calls

/-!
# References between Calls and Registries

The step calls in flight, the waiters and the sleep resolvers refer to each other by number.
`Memory.Linked` is the coherence of those references: a call belongs to an execution of its
instance, a call of an aborted execution is in no suspension its abort handler would have
rejected, a registered waiter is a call that waits for that type in that map, a registered
sleep resolver is a call that sleeps.

## Main results

* `Memory.Linked.segment`: every segment keeps the references coherent.
* `CallFrom`, `callFrom_of_segment`: where the calls of a state come from.
* `coherent_of_reaches`: the references are coherent in every state that can be reached.
-/

namespace Lopata.Workflow

variable {cfg : Config} {w : World} {m : Memory} {k : ℕ} {x : Call} {g : Seg} {o : Op}

/-! ### Coherence of the references -/

/-- The references between calls, executions, waiters and sleep resolvers are coherent. -/
structure Memory.Linked (m : Memory) : Prop where
  fresh : ∀ k x, m.calls.get? k = some x → k < m.nextCall
  run : ∀ k x, m.calls.get? k = some x →
    ∃ r, m.runs.get? x.run = some r ∧ r.instanceId = x.instanceId
  aborted : ∀ k x, m.calls.get? k = some x → m.aborted x.run = true →
    x.susp.abortable = false
  delivered : ∀ k x p t, m.calls.get? k = some x → x.susp = .delivered p t →
    ∃ name ty timeout, x.method = .waitForEvent name ty timeout
  waiting : ∀ k x map due, m.calls.get? k = some x → x.susp = .waiting map due →
    map < m.nextMap
  map : ∀ id map, m.eventWaiters id = some map → map < m.nextMap
  mapInj : ∀ id id' map, m.eventWaiters id = some map → m.eventWaiters id' = some map → id = id'
  waiter : ∀ id map ty k, m.eventWaiters id = some map → (m.waiterMaps map).get? ty = some k →
    ∃ x, m.calls.get? k = some x ∧ x.instanceId = id ∧ x.waitsIn map ty = true
  sleeper : ∀ id k, m.sleepResolvers id = some k →
    ∃ x due, m.calls.get? k = some x ∧ x.instanceId = id ∧ x.susp = .sleeping due

theorem Call.waitsIn_iff {map : ℕ} {ty : String} : x.waitsIn map ty = true ↔
    ∃ name timeout due, x.method = .waitForEvent name ty timeout ∧
      x.susp = .waiting map due := by
  simp only [Call.waitsIn]
  split
  · next hmethod hsusp =>
      simp only [hmethod, hsusp, decide_eq_true_eq, StepCall.waitForEvent.injEq,
        Suspension.waiting.injEq]
      constructor
      · rintro ⟨rfl, rfl⟩
        exact ⟨_, _, _, ⟨rfl, rfl, rfl⟩, rfl, rfl⟩
      · rintro ⟨_, _, _, ⟨-, rfl, -⟩, rfl, -⟩
        exact ⟨rfl, rfl⟩
  · next hno =>
      constructor
      · exact fun h => nomatch h
      · rintro ⟨name, timeout, due, hmethod, hsusp⟩
        exact (hno name ty timeout map due hmethod hsusp).elim

namespace Memory

variable {m : Memory}

theorem linked_empty : Memory.empty.Linked where
  fresh _ _ h := nomatch h
  run _ _ h := nomatch h
  aborted _ _ h := nomatch h
  delivered _ _ _ _ h := nomatch h
  waiting _ _ _ _ h := nomatch h
  map _ _ h := nomatch h
  mapInj _ _ _ h := nomatch h
  waiter _ _ _ _ h := nomatch h
  sleeper _ _ h := nomatch h

/-- The step objects are in no reference. -/
theorem Linked.impls (h : m.Linked) (i : ℕ → StepImpl) : ({ m with impls := i } : Memory).Linked :=
  ⟨h.fresh, h.run, h.aborted, h.delivered, h.waiting, h.map, h.mapInj, h.waiter, h.sleeper⟩

/-- Executions may be added and change their phase. -/
theorem Linked.execs (h : m.Linked) {e : Executions}
    (hrun : ∀ c r, m.runs.get? c = some r →
      ∃ r', e.runs.get? c = some r' ∧ r'.instanceId = r.instanceId)
    (hab : ∀ c, e.aborted c = m.aborted c) : ({ m with toExecutions := e } : Memory).Linked where
  fresh := h.fresh
  run k x hx := by
    obtain ⟨r, hr, hid⟩ := h.run k x hx
    obtain ⟨r', hr', hid'⟩ := hrun _ r hr
    exact ⟨r', hr', hid'.trans hid⟩
  aborted k x hx hc := h.aborted k x hx ((hab _).symm.trans hc)
  delivered := h.delivered
  waiting := h.waiting
  map := h.map
  mapInj := h.mapInj
  waiter := h.waiter
  sleeper := h.sleeper

theorem Linked.register (h : m.Linked) (id : String) : (m.register id).Linked :=
  h.execs (fun _ r hr => ⟨r, hr, rfl⟩) fun _ => rfl

theorem Linked.launch (h : m.Linked) (hf : m.toExecutions.Fresh) (id : String) (p : Json)
    (t : Millis) : (m.launch id p t).Linked := by
  refine (h.execs (e := m.toExecutions.launch id p t) ?_ fun _ => rfl).impls _
  intro c r hr
  have hne : c ≠ m.nextController := (hf.run c r hr).ne
  exact ⟨r, (Table.get?_insert_of_ne _ _ hne).trans hr, rfl⟩

theorem Linked.setPhase (h : m.Linked) (c : ℕ) (p : Phase) :
    ({ m with toExecutions := m.toExecutions.setPhase c p } : Memory).Linked := by
  refine h.execs ?_ fun _ => rfl
  intro c' r hr
  simp only [Executions.setPhase, Table.get?_modify, hr]
  split
  · exact ⟨_, rfl, rfl⟩
  · exact ⟨r, rfl, rfl⟩

theorem Linked.finish (h : m.Linked) (c : ℕ) (id : String) : (m.finish c id).Linked where
  fresh := h.fresh
  run := ((h.setPhase c .ended).execs (e := (m.toExecutions.setPhase c .ended).unregister id)
    (fun _ r hr => ⟨r, hr, rfl⟩) fun _ => rfl).run
  aborted := h.aborted
  delivered := h.delivered
  waiting := h.waiting
  map id' map hid := by
    by_cases heq : id' = id
    · simp [Memory.finish, heq] at hid
    · simp only [Memory.finish, Function.update_of_ne heq] at hid
      exact h.map id' map hid
  mapInj id' id'' map hid hid' := by
    by_cases heq : id' = id
    · simp [Memory.finish, heq] at hid
    · by_cases heq' : id'' = id
      · simp [Memory.finish, heq'] at hid'
      · simp only [Memory.finish, Function.update_of_ne heq] at hid
        simp only [Memory.finish, Function.update_of_ne heq'] at hid'
        exact h.mapInj id' id'' map hid hid'
  waiter id' map ty k hid hk := by
    by_cases heq : id' = id
    · simp [Memory.finish, heq] at hid
    · simp only [Memory.finish, Function.update_of_ne heq] at hid
      exact h.waiter id' map ty k hid hk
  sleeper := h.sleeper

/-! ### Calls that come, go and change their suspension -/

/-- A call number that is in no registry settles. -/
theorem Linked.settle (h : m.Linked) {k : ℕ}
    (hwaiter : ∀ id map ty, m.eventWaiters id = some map → (m.waiterMaps map).get? ty ≠ some k)
    (hsleeper : ∀ id, m.sleepResolvers id ≠ some k) : (m.settle k).Linked := by
  have hkeep : ∀ {k' x'}, (m.calls.erase k).get? k' = some x' → m.calls.get? k' = some x' := by
    intro k' x' hx'
    exact (Table.of_get?_erase hx').2
  have hother : ∀ k', k' ≠ k → (m.calls.erase k).get? k' = m.calls.get? k' := by
    intro k' hne
    rw [Table.get?_erase, if_neg hne]
  exact {
    fresh := fun k' x' hx' => h.fresh k' x' (hkeep hx')
    run := fun k' x' hx' => h.run k' x' (hkeep hx')
    aborted := fun k' x' hx' => h.aborted k' x' (hkeep hx')
    delivered := fun k' x' p t hx' => h.delivered k' x' p t (hkeep hx')
    waiting := fun k' x' map due hx' => h.waiting k' x' map due (hkeep hx')
    map := h.map
    mapInj := h.mapInj
    waiter := by
      intro id map ty k' hid hk'
      obtain ⟨x', hx', hrest⟩ := h.waiter id map ty k' hid hk'
      have hne : k' ≠ k := by
        rintro rfl
        exact hwaiter id map ty hid hk'
      exact ⟨x', (hother k' hne).trans hx', hrest⟩
    sleeper := by
      intro id k' hk'
      obtain ⟨x', due, hx', hrest⟩ := h.sleeper id k' hk'
      have hne : k' ≠ k := by
        rintro rfl
        exact hsleeper id hk'
      exact ⟨x', due, (hother k' hne).trans hx', hrest⟩ }

/-- A call that is in no registry changes its suspension. -/
theorem Linked.suspend (h : m.Linked) {k : ℕ} {x : Call} {s : Suspension}
    (hk : m.calls.get? k = some x)
    (hwaiter : ∀ id map ty, m.eventWaiters id = some map → (m.waiterMaps map).get? ty ≠ some k)
    (hsleeper : ∀ id, m.sleepResolvers id ≠ some k)
    (hab : s.abortable = true → m.aborted x.run = false)
    (hdel : ∀ p t, s = .delivered p t → ∃ name ty timeout, x.method = .waitForEvent name ty timeout)
    (hwait : ∀ map due, s = .waiting map due → map < m.nextMap) :
    (m.suspend k s).Linked := by
  have hcases : ∀ {k' x'}, (m.suspend k s).calls.get? k' = some x' →
      (k' = k ∧ x' = { x with susp := s }) ∨ m.calls.get? k' = some x' := by
    intro k' x' hx'
    simp only [Memory.suspend, Table.get?_modify] at hx'
    split at hx'
    · next heq =>
        rw [heq, hk] at hx'
        exact Or.inl ⟨heq, (Option.some.inj hx').symm⟩
    · exact Or.inr hx'
  have hother : ∀ k', k' ≠ k → (m.suspend k s).calls.get? k' = m.calls.get? k' := by
    intro k' hne
    exact Table.get?_modify_of_ne _ _ hne
  exact {
    fresh := by
      intro k' x' hx'
      rcases hcases hx' with ⟨rfl, -⟩ | hx'
      · exact h.fresh k' x hk
      · exact h.fresh k' x' hx'
    run := by
      intro k' x' hx'
      rcases hcases hx' with ⟨rfl, rfl⟩ | hx'
      · exact h.run k' x hk
      · exact h.run k' x' hx'
    aborted := by
      intro k' x' hx' hc
      rcases hcases hx' with ⟨rfl, rfl⟩ | hx'
      · by_contra hs
        have hnot := hab (Bool.not_eq_false _ ▸ hs)
        cases hnot.symm.trans hc
      · exact h.aborted k' x' hx' hc
    delivered := by
      intro k' x' p t hx' hs
      rcases hcases hx' with ⟨rfl, rfl⟩ | hx'
      · exact hdel p t hs
      · exact h.delivered k' x' p t hx' hs
    waiting := by
      intro k' x' map due hx' hs
      rcases hcases hx' with ⟨rfl, rfl⟩ | hx'
      · exact hwait map due hs
      · exact h.waiting k' x' map due hx' hs
    map := h.map
    mapInj := h.mapInj
    waiter := by
      intro id map ty k' hid hk'
      obtain ⟨x', hx', hrest⟩ := h.waiter id map ty k' hid hk'
      have hne : k' ≠ k := by
        rintro rfl
        exact hwaiter id map ty hid hk'
      exact ⟨x', (hother k' hne).trans hx', hrest⟩
    sleeper := by
      intro id k' hk'
      obtain ⟨x', due, hx', hrest⟩ := h.sleeper id k' hk'
      have hne : k' ≠ k := by
        rintro rfl
        exact hsleeper id hk'
      exact ⟨x', due, (hother k' hne).trans hx', hrest⟩ }

/-- No waiter entry names a call that does not wait. -/
theorem Linked.not_waiter (h : m.Linked) {k : ℕ} {x : Call} (hk : m.calls.get? k = some x)
    (hx : ∀ map due, x.susp ≠ .waiting map due) (id : String) (map : ℕ) (ty : String)
    (hid : m.eventWaiters id = some map) : (m.waiterMaps map).get? ty ≠ some k := by
  intro hent
  obtain ⟨x', hx', -, hwaits⟩ := h.waiter id map ty k hid hent
  obtain rfl := Option.some.inj (hk.symm.trans hx')
  obtain ⟨_, _, due, -, hsusp⟩ := Call.waitsIn_iff.mp hwaits
  exact hx map due hsusp

/-- No sleep resolver names a call that does not sleep. -/
theorem Linked.not_sleeper (h : m.Linked) {k : ℕ} {x : Call} (hk : m.calls.get? k = some x)
    (hx : ∀ due, x.susp ≠ .sleeping due) (id : String) : m.sleepResolvers id ≠ some k := by
  intro hent
  obtain ⟨x', due, hx', -, hsusp⟩ := h.sleeper id k hent
  obtain rfl := Option.some.inj (hk.symm.trans hx')
  exact hx due hsusp

/-- Removing a waiter entry. -/
theorem Linked.deleteWaiter (h : m.Linked) (map : ℕ) (ty : String) :
    (m.deleteWaiter map ty).Linked := by
  refine ⟨h.fresh, h.run, h.aborted, h.delivered, h.waiting, h.map, h.mapInj, ?_, h.sleeper⟩
  intro id map' ty' k hid hk
  refine h.waiter id map' ty' k hid ?_
  simp only [Memory.deleteWaiter] at hk
  by_cases heq : map' = map
  · subst heq
    rw [Function.update_self] at hk
    exact (Table.of_get?_erase hk).2
  · rw [Function.update_of_ne heq] at hk
    exact hk

/-- Removing a sleep resolver. -/
theorem Linked.deleteSleepResolver (h : m.Linked) (id : String) :
    (m.deleteSleepResolver id).Linked := by
  refine ⟨h.fresh, h.run, h.aborted, h.delivered, h.waiting, h.map, h.mapInj, h.waiter, ?_⟩
  intro id' k hk
  by_cases heq : id' = id
  · simp [Memory.deleteSleepResolver, heq] at hk
  · simp only [Memory.deleteSleepResolver, Function.update_of_ne heq] at hk
    exact h.sleeper id' k hk

/-- A new call. -/
theorem Linked.insert (h : m.Linked) {x : Call}
    (hrun : ∃ r, m.runs.get? x.run = some r ∧ r.instanceId = x.instanceId)
    (hab : m.aborted x.run = false) (hun : x.susp.unregistered = true)
    (hnot : ∀ p t, x.susp ≠ .delivered p t) :
    ({ m with calls := m.calls.insert m.nextCall x, nextCall := m.nextCall + 1 } :
      Memory).Linked := by
  have hcases : ∀ {k' x'}, (m.calls.insert m.nextCall x).get? k' = some x' →
      (k' = m.nextCall ∧ x' = x) ∨ m.calls.get? k' = some x' := by
    intro k' x' hx'
    rw [Table.get?_insert] at hx'
    split at hx'
    · next heq => exact Or.inl ⟨heq, (Option.some.inj hx').symm⟩
    · exact Or.inr hx'
  have hold : ∀ {k' x'}, m.calls.get? k' = some x' →
      (m.calls.insert m.nextCall x).get? k' = some x' := by
    intro k' x' hx'
    rw [Table.get?_insert_of_ne _ _ (h.fresh k' x' hx').ne]
    exact hx'
  exact {
    fresh := by
      intro k' x' hx'
      rcases hcases hx' with ⟨rfl, -⟩ | hx'
      · exact Nat.lt_succ_self _
      · exact Nat.lt_succ_of_lt (h.fresh k' x' hx')
    run := by
      intro k' x' hx'
      rcases hcases hx' with ⟨-, rfl⟩ | hx'
      · exact hrun
      · exact h.run k' x' hx'
    aborted := by
      intro k' x' hx' hc
      rcases hcases hx' with ⟨-, rfl⟩ | hx'
      · cases hab.symm.trans hc
      · exact h.aborted k' x' hx' hc
    delivered := by
      intro k' x' p t hx' hs
      rcases hcases hx' with ⟨-, rfl⟩ | hx'
      · exact (hnot p t hs).elim
      · exact h.delivered k' x' p t hx' hs
    waiting := by
      intro k' x' map due hx' hs
      rcases hcases hx' with ⟨-, rfl⟩ | hx'
      · rw [hs] at hun
        cases hun
      · exact h.waiting k' x' map due hx' hs
    map := h.map
    mapInj := h.mapInj
    waiter := by
      intro id map ty k' hid hk'
      obtain ⟨x', hx', hrest⟩ := h.waiter id map ty k' hid hk'
      exact ⟨x', hold hx', hrest⟩
    sleeper := by
      intro id k' hk'
      obtain ⟨x', due, hx', hrest⟩ := h.sleeper id k' hk'
      exact ⟨x', due, hold hx', hrest⟩ }

/-- `abort`: the suspended calls of the execution and their registrations go together. -/
theorem Linked.abort (h : m.Linked) (c : ℕ) : (m.abort c).Linked := by
  simp only [Memory.abort]
  split
  · exact h
  · have hkeep : ∀ {k x}, (m.calls.filter fun _ x => !(x.run = c && x.susp.abortable)).get? k =
        some x → m.calls.get? k = some x ∧ (x.run = c → x.susp.abortable = false) := by
      intro k x hx
      rw [Table.get?_filter, Option.filter_eq_some_iff] at hx
      exact ⟨hx.1, fun hrun => by simpa [hrun] using hx.2⟩
    have hstay : ∀ {k x}, m.calls.get? k = some x → x.run ≠ c →
        (m.calls.filter fun _ x => !(x.run = c && x.susp.abortable)).get? k = some x := by
      intro k x hx hne
      rw [Table.get?_filter, hx]
      simp [Option.filter, hne]
    exact {
      fresh := fun k x hx => h.fresh k x (hkeep hx).1
      run := fun k x hx => h.run k x (hkeep hx).1
      aborted := by
        intro k x hx hc
        obtain ⟨hx, hnot⟩ := hkeep hx
        by_cases heq : x.run = c
        · exact hnot heq
        · simp only [Executions.abort, Function.update_of_ne heq] at hc
          exact h.aborted k x hx hc
      delivered := fun k x p t hx => h.delivered k x p t (hkeep hx).1
      waiting := fun k x map due hx => h.waiting k x map due (hkeep hx).1
      map := h.map
      mapInj := h.mapInj
      waiter := by
        intro id map ty k hid hk
        dsimp only at hk
        rw [Table.get?_filter, Option.filter_eq_some_iff] at hk
        obtain ⟨hk, hnone⟩ := hk
        obtain ⟨x, hx, hxid, hwaits⟩ := h.waiter id map ty k hid hk
        refine ⟨x, hstay hx ?_, hxid, hwaits⟩
        rintro rfl
        simp only [Bool.not_eq_true', List.any_eq_false, Bool.and_eq_true, decide_eq_true_eq,
          not_and] at hnone
        exact hnone (k, x) (Table.mem_of_get? hx) rfl hwaits
      sleeper := by
        intro id k hk
        dsimp only at hk
        split at hk
        · cases hk
        · next hnone =>
            obtain ⟨x, due, hx, hxid, hsusp⟩ := h.sleeper id k hk
            refine ⟨x, due, hstay hx ?_, hxid, hsusp⟩
            rintro rfl
            refine hnone (List.any_eq_true.mpr ⟨(k, x), Table.mem_of_get? hx, ?_⟩)
            simp [Call.sleepsFor, hsusp, hxid] }

theorem Linked.abortRegistered (h : m.Linked) (id : String) : (m.abortRegistered id).Linked := by
  simp only [Memory.abortRegistered]
  split
  · exact h.abort _
  · exact h

/-- A sleeping call becomes the sleep resolver of its instance. -/
theorem Linked.setSleepResolver (h : m.Linked) {k : ℕ} {x : Call} {due : Millis}
    (hk : m.calls.get? k = some x) (hx : x.susp = .sleeping due) :
    ({ m with sleepResolvers := Function.update m.sleepResolvers x.instanceId (some k) } :
      Memory).Linked := by
  refine ⟨h.fresh, h.run, h.aborted, h.delivered, h.waiting, h.map, h.mapInj, h.waiter, ?_⟩
  intro id k' hk'
  dsimp only at hk'
  by_cases heq : id = x.instanceId
  · subst heq
    rw [Function.update_self, Option.some.injEq] at hk'
    exact ⟨x, due, hk' ▸ hk, rfl, hx⟩
  · rw [Function.update_of_ne heq] at hk'
    exact h.sleeper id k' hk'

/-- A waiting call becomes the waiter of its type in the map of its instance. -/
theorem Linked.setWaiter (h : m.Linked) {k map : ℕ} {x : Call} {ty : String}
    (hk : m.calls.get? k = some x) (hmap : m.eventWaiters x.instanceId = some map)
    (hx : x.waitsIn map ty = true) :
    ({ m with waiterMaps := Function.update m.waiterMaps map ((m.waiterMaps map).insert ty k) } :
      Memory).Linked := by
  refine ⟨h.fresh, h.run, h.aborted, h.delivered, h.waiting, h.map, h.mapInj, ?_, h.sleeper⟩
  intro id map' ty' k' hid hk'
  dsimp only at hk'
  by_cases heq : map' = map
  · subst heq
    rw [Function.update_self] at hk'
    rcases Table.of_get?_insert hk' with ⟨hty, rfl⟩ | ⟨-, hk'⟩
    · exact ⟨x, hk, h.mapInj _ _ _ hmap hid, hty ▸ hx⟩
    · exact h.waiter id map' ty' k' hid hk'
  · rw [Function.update_of_ne heq] at hk'
    exact h.waiter id map' ty' k' hid hk'

/-- The map of an instance, allocated if there was none. -/
theorem Linked.getWaitersForInstance (h : m.Linked) (id : String) :
    (m.getWaitersForInstance id).2.Linked ∧
      (m.getWaitersForInstance id).2.eventWaiters id = some (m.getWaitersForInstance id).1 := by
  simp only [Memory.getWaitersForInstance]
  split
  · next hid => exact ⟨h, hid⟩
  · refine ⟨?_, Function.update_self ..⟩
    have hold : ∀ {id' map'}, Function.update m.eventWaiters id (some m.nextMap) id' = some map' →
        (id' = id ∧ map' = m.nextMap) ∨ (m.eventWaiters id' = some map') := by
      intro id' map' hid'
      by_cases heq : id' = id
      · subst heq
        rw [Function.update_self, Option.some.injEq] at hid'
        exact Or.inl ⟨rfl, hid'.symm⟩
      · rw [Function.update_of_ne heq] at hid'
        exact Or.inr hid'
    exact {
      fresh := h.fresh
      run := h.run
      aborted := h.aborted
      delivered := h.delivered
      waiting := fun k x map due hx hs => Nat.lt_succ_of_lt (h.waiting k x map due hx hs)
      map := by
        intro id' map' hid'
        rcases hold hid' with ⟨-, rfl⟩ | hid'
        · exact Nat.lt_succ_self _
        · exact Nat.lt_succ_of_lt (h.map id' map' hid')
      mapInj := by
        intro id' id'' map' hid' hid''
        rcases hold hid' with ⟨rfl, rfl⟩ | hid'
        · rcases hold hid'' with ⟨rfl, -⟩ | hid''
          · rfl
          · exact absurd (h.map id'' _ hid'') (lt_irrefl _)
        · rcases hold hid'' with ⟨-, rfl⟩ | hid''
          · exact absurd (h.map id' _ hid') (lt_irrefl _)
          · exact h.mapInj id' id'' map' hid' hid''
      waiter := by
        intro id' map' ty k hid' hk
        dsimp only at hk
        rcases hold hid' with ⟨-, rfl⟩ | hid'
        · rw [Function.update_self] at hk
          cases hk
        · rw [Function.update_of_ne (h.map id' map' hid').ne] at hk
          exact h.waiter id' map' ty k hid' hk
      sleeper := h.sleeper }

@[simp] theorem calls_getWaitersForInstance (id : String) :
    (m.getWaitersForInstance id).2.calls = m.calls := by
  simp only [Memory.getWaitersForInstance]
  split <;> rfl

@[simp] theorem toExecutions_getWaitersForInstance (id : String) :
    (m.getWaitersForInstance id).2.toExecutions = m.toExecutions := by
  simp only [Memory.getWaitersForInstance]
  split <;> rfl

/-- A wait starts. -/
theorem Linked.wait (h : m.Linked) {k : ℕ} {x : Call} {name ty : String}
    {timeout : Option Duration} {ms : Millis} (hk : m.calls.get? k = some x)
    (hx : x.susp = .entered) (hmethod : x.method = .waitForEvent name ty timeout)
    (hab : m.aborted x.run = false) : (registerWaiter w m k x ty ms).Linked := by
  obtain ⟨hlinked, hmap⟩ := h.getWaitersForInstance x.instanceId
  have hcalls := m.calls_getWaitersForInstance x.instanceId
  have hexecs := m.toExecutions_getWaitersForInstance x.instanceId
  simp only [registerWaiter]
  generalize m.getWaitersForInstance x.instanceId = p at hlinked hmap hcalls hexecs
  obtain ⟨map, m'⟩ := p
  dsimp only at hlinked hmap hcalls hexecs ⊢
  have hk' : m'.calls.get? k = some x := hcalls ▸ hk
  have hsus : (m'.suspend k (.waiting map (timerDue w.clock ms))).Linked := by
    refine hlinked.suspend hk' (hlinked.not_waiter hk' fun _ _ => by rw [hx]; rintro ⟨⟩)
      (hlinked.not_sleeper hk' fun _ => by rw [hx]; rintro ⟨⟩) (fun _ => ?_)
      (fun _ _ h => by cases h) ?_
    · rw [hexecs]
      exact hab
    · intro map' due heq
      obtain ⟨rfl, -⟩ := Suspension.waiting.inj heq
      exact hlinked.map _ _ hmap
  refine hsus.setWaiter (x := { x with susp := .waiting map (timerDue w.clock ms) }) ?_ hmap ?_
  · simp [Memory.suspend, hk']
  · exact Call.waitsIn_iff.mpr ⟨name, timeout, _, hmethod, rfl⟩

/-- A sleep ends. -/
theorem Linked.endSleep (h : m.Linked) {k : ℕ} {x : Call} {due : Millis}
    (hk : m.calls.get? k = some x) (hx : x.susp = .sleeping due) :
    ((m.deleteSleepResolver x.instanceId).settle k).Linked := by
  refine (h.deleteSleepResolver _).settle ?_ ?_
  · intro id map ty hid
    exact h.not_waiter hk (fun map due => by rw [hx]; nofun) id map ty hid
  · intro id hent
    by_cases heq : id = x.instanceId
    · simp [Memory.deleteSleepResolver, heq] at hent
    · simp only [Memory.deleteSleepResolver, Function.update_of_ne heq] at hent
      obtain ⟨x', _, hx', hid, -⟩ := h.sleeper id k hent
      obtain rfl := Option.some.inj (hk.symm.trans hx')
      exact heq hid.symm

/-- After its entry is removed no entry names a waiting call. -/
theorem Linked.not_waiter_deleteWaiter (h : m.Linked) {k map : ℕ} {x : Call} {ty : String}
    (hk : m.calls.get? k = some x) (hx : x.waitsIn map ty = true) (id : String) (map' : ℕ)
    (ty' : String) (hid : m.eventWaiters id = some map') :
    ((m.deleteWaiter map ty).waiterMaps map').get? ty' ≠ some k := by
  intro hent
  obtain ⟨x', hx', -, hwaits⟩ := (h.deleteWaiter map ty).waiter id map' ty' k hid hent
  obtain rfl := Option.some.inj (hk.symm.trans hx')
  obtain ⟨_, _, _, hmethod, hsusp⟩ := Call.waitsIn_iff.mp hx
  obtain ⟨_, _, _, hmethod', hsusp'⟩ := Call.waitsIn_iff.mp hwaits
  obtain ⟨-, rfl, -⟩ := StepCall.waitForEvent.inj (hmethod.symm.trans hmethod')
  obtain ⟨rfl, -⟩ := Suspension.waiting.inj (hsusp.symm.trans hsusp')
  simp [Memory.deleteWaiter, Table.get?_erase] at hent

/-- A wait times out. -/
theorem Linked.endWait (h : m.Linked) {k map : ℕ} {x : Call} {ty : String}
    (hk : m.calls.get? k = some x) (hx : x.waitsIn map ty = true) :
    ((m.deleteWaiter map ty).settle k).Linked := by
  refine (h.deleteWaiter map ty).settle (h.not_waiter_deleteWaiter hk hx) ?_
  obtain ⟨_, _, _, -, hsusp⟩ := Call.waitsIn_iff.mp hx
  exact h.not_sleeper hk fun due => by rw [hsusp]; nofun

/-- The waiter `sendEvent` finds is a waiting call of the instance. -/
theorem Linked.waiter_spec (h : m.Linked) {id ty : String} {map k : ℕ}
    (hw : m.waiter id ty = some (map, k)) :
    m.eventWaiters id = some map ∧ (m.waiterMaps map).get? ty = some k ∧
      ∃ x, m.calls.get? k = some x ∧ x.instanceId = id ∧ x.waitsIn map ty = true := by
  simp only [Memory.waiter] at hw
  split at hw
  · next map' hid =>
      obtain ⟨k', hk', heq⟩ := Option.map_eq_some_iff.mp hw
      obtain ⟨rfl, rfl⟩ := Prod.mk.inj heq
      exact ⟨hid, hk', h.waiter id map' ty k' hid hk'⟩
  · cases hw

/-- An event is handed to the waiter. -/
theorem Linked.deliver (h : m.Linked) {id ty : String} {map k : ℕ} {p : Option Json}
    {t : Millis} (hw : m.waiter id ty = some (map, k)) :
    ((m.deleteWaiter map ty).suspend k (.delivered p t)).Linked := by
  obtain ⟨-, -, x, hk, -, hx⟩ := h.waiter_spec hw
  obtain ⟨name, timeout, due, hmethod, hsusp⟩ := Call.waitsIn_iff.mp hx
  refine (h.deleteWaiter map ty).suspend hk (h.not_waiter_deleteWaiter hk hx) ?_
    (fun hs => nomatch hs) (fun _ _ _ => ⟨name, ty, timeout, hmethod⟩) (fun _ _ => nofun)
  exact h.not_sleeper hk fun due => by rw [hsusp]; nofun

end Memory

/-! ### The references in a run -/

theorem Suspension.unregistered_spec {s : Suspension} (h : s.unregistered = true) :
    (∀ map due, s ≠ .waiting map due) ∧ ∀ due, s ≠ .sleeping due := by
  constructor
  · rintro map due rfl
    cases h
  · rintro due rfl
    cases h

/-- A continuation keeps the references coherent. -/
theorem Memory.Linked.callMove {m' : Memory} (h : w.mem.Linked)
    (hk : w.mem.calls.get? k = some x) (hm : CallMove w k x m') : m'.Linked := by
  cases hm with
  | settled hm hx =>
    obtain ⟨i, rfl⟩ := hm
    obtain ⟨hwait, hsleep⟩ := Suspension.unregistered_spec hx
    exact (h.impls i).settle (h.not_waiter hk hwait) (h.not_sleeper hk hsleep)
  | @parked _ s hm hx hs hnot hab =>
    obtain ⟨i, rfl⟩ := hm
    obtain ⟨hwait, hsleep⟩ := Suspension.unregistered_spec hx
    have hab' : s.abortable = true → w.mem.aborted x.run = false := by
      intro hs
      by_contra hne
      obtain ⟨plan, n, rfl⟩ := hab (Bool.not_eq_false _ ▸ hne)
      cases hs
    exact (h.impls i).suspend hk (h.not_waiter hk hwait) (h.not_sleeper hk hsleep) hab'
      (fun p t heq => (hnot p t heq).elim)
      (fun map due heq => ((Suspension.unregistered_spec hs).1 map due heq).elim)
  | @slept m due hm hx hab =>
    obtain ⟨i, rfl⟩ := hm
    have hsus : (({ w.mem with impls := i } : Memory).suspend k (.sleeping due)).Linked :=
      (h.impls i).suspend hk (h.not_waiter hk fun _ _ => by rw [hx]; nofun)
        (h.not_sleeper hk fun _ => by rw [hx]; nofun) (fun _ => hab) (fun _ _ => nofun)
        (fun _ _ => nofun)
    exact hsus.setSleepResolver (x := { x with susp := .sleeping due })
      (by simp [Memory.suspend, hk]) rfl
  | waited hm hx hmethod hab =>
    obtain ⟨i, rfl⟩ := hm
    exact (h.impls i).wait hk hx hmethod hab
  | sleptOver hx => exact h.endSleep hk hx
  | timedOut hx hmethod =>
    exact h.endWait hk (Call.waitsIn_iff.mpr ⟨_, _, _, hmethod, hx⟩)

/-- The process as `create` leaves it. -/
theorem Memory.Linked.create (h : w.mem.Linked) (hf : w.mem.toExecutions.Fresh)
    (id? : Option String) (params : Option Json) : (create cfg w id? params).mem.Linked := by
  have hid : (newId w id?).2.Linked ∧ (newId w id?).2.toExecutions = w.mem.toExecutions := by
    cases id? with
    | some id => exact ⟨h, rfl⟩
    | none =>
      exact ⟨⟨h.fresh, h.run, h.aborted, h.delivered, h.waiting, h.map, h.mapInj, h.waiter,
        h.sleeper⟩, rfl⟩
  simp only [Workflow.create, createWith]
  split
  · exact hid.1
  · split
    · exact hid.1
    · split
      · exact hid.1.register _
      · exact hid.1.launch (hid.2 ▸ hf) _ _ _

/-- Every segment keeps the references coherent. -/
theorem Memory.Linked.segment (h : w.mem.Linked) (hwf : w.mem.toExecutions.Wf)
    (hg : segment cfg w o = some g) : g.mem.Linked := by
  cases o with
  | create id? params =>
    obtain rfl := Option.some.inj hg
    exact h.create hwf.toFresh id? params
  | pause id | resume id =>
    obtain rfl := Option.some.inj hg
    exact h
  | terminate id =>
    obtain rfl := Option.some.inj hg
    exact h.abortRegistered id
  | restart id fromStep =>
    obtain rfl := Option.some.inj hg
    have hab := h.abortRegistered id
    rcases restart_cases w id fromStep with ⟨-, hseg⟩ | ⟨row, -, hcase⟩
    · rw [hseg]
      exact h
    · rcases hcase with ⟨step, -, -, -, -, hmem⟩ | ⟨s, -, -, -, hmem⟩
      · rw [hmem]
        exact hab.register id
      · rw [hmem]
        refine hab.launch ?_ _ _ _
        rw [Memory.abortRegistered_toExecutions]
        exact hwf.toFresh.abortRegistered id
  | skipSleep id =>
    obtain rfl := Option.some.inj hg
    simp only [skipSleep]
    split
    · next k hk =>
        obtain ⟨x, due, hx, rfl, hsusp⟩ := h.sleeper id k hk
        exact h.endSleep hx hsusp
    · exact h
  | sendEvent id ty payload =>
    obtain rfl := Option.some.inj hg
    simp only [sendEvent]
    split
    · exact h
    · split
      · next hw => exact h.deliver hw
      · exact h
  | call c method =>
    obtain ⟨r, hr, rfl⟩ := Option.map_eq_some_iff.mp hg
    simp only [stepCall]
    split
    · exact h
    · split
      · exact h
      · next hab =>
          rw [Bool.not_eq_true] at hab
          exact h.insert ⟨r, hr, rfl⟩ hab pauseRound_abortable.1 pauseRound_abortable.2
  | poll k | enter k | callback k outcome | retry k | sleepOver k | eventTimeout k
  | eventResume k =>
    obtain ⟨x, hx, hg⟩ := Option.bind_eq_some_iff.mp hg
    exact h.callMove hx (callSegment_move hg)
  | runSettles c outcome =>
    obtain ⟨r, -, hg⟩ := Option.bind_eq_some_iff.mp hg
    split at hg
    · obtain rfl := Option.some.inj hg
      exact h.setPhase c _
    · cases hg
  | runEnds c =>
    obtain ⟨r, hr, hg⟩ := Option.bind_eq_some_iff.mp hg
    split at hg
    · next outcome hphase =>
        obtain rfl := Option.some.inj hg
        rcases executeEnd_cases w c r outcome with
          ⟨-, -, hmem⟩ | ⟨q, row, -, -, -, -, hmem⟩
        · rw [hmem]
          exact h.finish c _
        · rw [hmem]
          exact (h.finish c _).launch (hwf.finish hr).toFresh _ _ _
    · cases hg

/-! ### Where the calls of a state come from -/

/-- After a continuation a call is as before, or it is the one that continued, suspended
without an event. -/
theorem CallMove.calls {m' : Memory} (hm : CallMove w k x m') (hk : w.mem.calls.get? k = some x)
    {k' : ℕ} {x' : Call} (hx' : m'.calls.get? k' = some x') :
    w.mem.calls.get? k' = some x' ∨
      (k' = k ∧ ∃ s, x' = { x with susp := s } ∧ (∀ p t, s ≠ .delivered p t) ∧
        (w.mem.aborted x.run = true → ∃ plan n, s = .retryDelay plan n none)) := by
  have herase : (w.mem.calls.erase k).get? k' = some x' → w.mem.calls.get? k' = some x' := by
    intro h
    exact (Table.of_get?_erase h).2
  have hsuspend : ∀ {s : Suspension}, (∀ p t, s ≠ .delivered p t) →
      (w.mem.aborted x.run = true → ∃ plan n, s = .retryDelay plan n none) →
      (w.mem.suspend k s).calls.get? k' = some x' →
      w.mem.calls.get? k' = some x' ∨
        (k' = k ∧ ∃ s, x' = { x with susp := s } ∧ (∀ p t, s ≠ .delivered p t) ∧
          (w.mem.aborted x.run = true → ∃ plan n, s = .retryDelay plan n none)) := by
    intro s hnot hab h
    simp only [Memory.suspend, Table.get?_modify] at h
    split at h
    · next heq =>
        rw [heq, hk] at h
        exact Or.inr ⟨heq, s, (Option.some.inj h).symm, hnot, hab⟩
    · exact Or.inl h
  have hlive : w.mem.aborted x.run = false → ∀ s : Suspension,
      w.mem.aborted x.run = true → ∃ plan n, s = .retryDelay plan n none := by
    intro hab s h
    cases hab.symm.trans h
  cases hm with
  | settled hm =>
    obtain ⟨i, rfl⟩ := hm
    exact Or.inl (herase hx')
  | parked hm _ _ hnot hab =>
    obtain ⟨i, rfl⟩ := hm
    exact hsuspend hnot hab hx'
  | @slept _ due hm _ hab =>
    obtain ⟨i, rfl⟩ := hm
    exact hsuspend (s := .sleeping due) (fun _ _ h => by cases h) (hlive hab _) hx'
  | @waited _ _ _ _ ms hm _ _ hab =>
    obtain ⟨i, rfl⟩ := hm
    refine hsuspend (s := .waiting (({ w.mem with impls := i } : Memory).getWaitersForInstance
      x.instanceId).1 (timerDue w.clock ms)) (fun _ _ h => by cases h) (hlive hab _) ?_
    simp only [registerWaiter, Memory.suspend, Memory.calls_getWaitersForInstance] at hx'
    exact hx'
  | sleptOver | timedOut => exact Or.inl (herase hx')

theorem Memory.calls_of_abortRegistered {m : Memory} {id : String} {k : ℕ} {x : Call}
    (h : (m.abortRegistered id).calls.get? k = some x) : m.calls.get? k = some x := by
  simp only [Memory.abortRegistered] at h
  split at h
  · simp only [Memory.abort] at h
    split at h
    · exact h
    · rw [Table.get?_filter, Option.filter_eq_some_iff] at h
      exact h.1
  · exact h

/-- `create` leaves the calls alone. -/
theorem create_calls (cfg : Config) (w : World) (id? : Option String) (params : Option Json) :
    (create cfg w id? params).mem.calls = w.mem.calls := by
  have hid : (newId w id?).2.calls = w.mem.calls := by cases id? <;> rfl
  simp only [create, createWith]
  split
  · exact hid
  · split
    · exact hid
    · split <;> exact hid

/-- The step call an operation continues. -/
def Op.call? : Op → Option ℕ
  | .poll k | .enter k | .callback k _ | .retry k | .sleepOver k | .eventTimeout k
  | .eventResume k => some k
  | _ => none

/-- A segment that continues a call is one of that call's segments. -/
theorem callSegment_of_segment (ho : o.call? = some k) (hg : segment cfg w o = some g) :
    ∃ x, w.mem.calls.get? k = some x ∧ callSegment cfg w k x o = some g := by
  cases o with
  | poll k' | enter k' | callback k' outcome | retry k' | sleepOver k' | eventTimeout k'
  | eventResume k' =>
    obtain rfl := Option.some.inj ho
    exact Option.bind_eq_some_iff.mp hg
  | _ => cases ho

/-- Where a call comes from. -/
inductive CallFrom (w : World) (o : Op) (k : ℕ) (x : Call) : Prop
  /-- It was there. -/
  | old (hk : w.mem.calls.get? k = some x)
  /-- The code of an execution called a method. -/
  | called {c : ℕ} {r : Run} {method : StepCall} (ho : o = .call c method)
      (hr : w.mem.runs.get? c = some r) (hab : w.mem.aborted c = false)
      (hx : x = ⟨c, r.instanceId, method, pauseRound w r.instanceId⟩)
  /-- It continued and was suspended again. -/
  | continued {x₀ : Call} {s : Suspension} (ho : o.call? = some k)
      (hk : w.mem.calls.get? k = some x₀) (hx : x = { x₀ with susp := s })
      (hs : ∀ p t, s ≠ .delivered p t)
      (hab : w.mem.aborted x₀.run = true → ∃ plan n, s = .retryDelay plan n none)
  /-- It was given an event. -/
  | given {x₀ : Call} {ty : String} {payload : Option Json} {map : ℕ}
      (ho : o = .sendEvent x₀.instanceId ty payload)
      (herr : sendEventError w.db x₀.instanceId ty = none)
      (hw : w.mem.waiter x₀.instanceId ty = some (map, k)) (hk : w.mem.calls.get? k = some x₀)
      (hwaits : x₀.waitsIn map ty = true) (hx : x = { x₀ with susp := .delivered payload w.clock })

/-- **Inversion of the call table.** -/
theorem callFrom_of_segment (hl : w.mem.Linked) (hg : segment cfg w o = some g)
    (hx : g.mem.calls.get? k = some x) : CallFrom w o k x := by
  cases o with
  | create id? params =>
    obtain rfl := Option.some.inj hg
    exact .old (create_calls cfg w id? params ▸ hx)
  | pause id | resume id =>
    obtain rfl := Option.some.inj hg
    exact .old hx
  | terminate id =>
    obtain rfl := Option.some.inj hg
    exact .old (Memory.calls_of_abortRegistered hx)
  | restart id fromStep =>
    obtain rfl := Option.some.inj hg
    rcases restart_cases w id fromStep with ⟨-, hseg⟩ | ⟨row, -, hcase⟩
    · rw [hseg] at hx
      exact .old hx
    · rcases hcase with ⟨step, -, -, -, -, hmem⟩ | ⟨s, -, -, -, hmem⟩
      · rw [hmem] at hx
        exact .old (Memory.calls_of_abortRegistered hx)
      · rw [hmem] at hx
        exact .old (Memory.calls_of_abortRegistered hx)
  | skipSleep id =>
    obtain rfl := Option.some.inj hg
    simp only [skipSleep] at hx
    split at hx
    · simp only [Memory.settle, Memory.deleteSleepResolver, Table.get?_erase] at hx
      split at hx
      · cases hx
      · exact .old hx
    · exact .old hx
  | sendEvent id ty payload =>
    obtain rfl := Option.some.inj hg
    simp only [sendEvent] at hx
    split at hx
    · exact .old hx
    · next herr =>
        split at hx
        · next map k' hw =>
            obtain ⟨-, -, x₀, hk₀, rfl, hwaits⟩ := hl.waiter_spec hw
            simp only [Memory.suspend, Memory.deleteWaiter, Table.get?_modify] at hx
            split at hx
            · next heq =>
                subst heq
                rw [hk₀] at hx
                exact .given rfl herr hw hk₀ hwaits (Option.some.inj hx).symm
            · exact .old hx
        · exact .old hx
  | call c method =>
    obtain ⟨r, hr, rfl⟩ := Option.map_eq_some_iff.mp hg
    simp only [stepCall] at hx
    split at hx
    · exact .old hx
    · split at hx
      · exact .old hx
      · next hab =>
          dsimp only at hx
          rw [Table.get?_insert] at hx
          split at hx
          · exact .called rfl hr (Bool.not_eq_true _ ▸ hab) (Option.some.inj hx).symm
          · exact .old hx
  | poll k' | enter k' | callback k' outcome | retry k' | sleepOver k' | eventTimeout k'
  | eventResume k' =>
    obtain ⟨x₀, hk₀, hg⟩ := Option.bind_eq_some_iff.mp hg
    rcases (callSegment_move hg).calls hk₀ hx with hold | ⟨rfl, s, rfl, hs, hab⟩
    · exact .old hold
    · exact .continued rfl hk₀ rfl hs hab
  | runSettles c outcome =>
    obtain ⟨r, -, hg⟩ := Option.bind_eq_some_iff.mp hg
    split at hg
    · obtain rfl := Option.some.inj hg
      exact .old hx
    · cases hg
  | runEnds c =>
    obtain ⟨r, -, hg⟩ := Option.bind_eq_some_iff.mp hg
    split at hg
    · next outcome hphase =>
        obtain rfl := Option.some.inj hg
        rcases executeEnd_cases w c r outcome with
          ⟨-, -, hmem⟩ | ⟨q, row, -, -, -, -, hmem⟩
        · rw [hmem] at hx
          exact .old hx
        · rw [hmem] at hx
          exact .old hx
    · cases hg

/-- The registry of executions and the references between calls are coherent. -/
structure World.Coherent (w : World) : Prop where
  wf : w.mem.toExecutions.Wf
  linked : w.mem.Linked

theorem coherent_init : World.init.Coherent :=
  ⟨wf_init, Memory.linked_empty⟩

/-- Every step keeps them coherent. -/
theorem World.Coherent.act {w' : World} {a : Action} (h : w.Coherent)
    (hstep : act cfg w a = some w') : w'.Coherent := by
  have hm := act_moves hstep
  refine ⟨hm.wf h.wf, ?_⟩
  have hresumed : ∀ {w₀ : World}, Resumed w₀ w' → w'.mem.Linked := by
    intro w₀ hres
    rw [hres.memory]
    refine (Memory.linked_empty.execs ?_ ?_).impls _
    · intro c r hr
      cases hr
    · exact hres.started.notAborted
  cases a with
  | op o =>
    obtain ⟨g, hg, rfl⟩ := Option.map_eq_some_iff.mp hstep
    exact h.linked.segment h.wf hg
  | tick ms =>
    obtain rfl := Option.some.inj hstep
    exact h.linked
  | crash again =>
    obtain rfl := Option.some.inj hstep
    exact hresumed (resumed_resumeAfter w again)
  | crashIn o n again =>
    obtain ⟨g, -, rfl⟩ := Option.map_eq_some_iff.mp hstep
    exact hresumed (resumed_resumeAfter _ again)

/-- In every state that can be reached. -/
theorem coherent_of_reaches {ok : World → Action → Prop} (h : Reaches (act cfg) ok .init w) :
    w.Coherent :=
  h.invariant coherent_init fun _ _ _ hI _ hstep => hI.act hstep

end Lopata.Workflow
