import Lopata.Workflow.Names

/-!
# Delivery of Events

Events are delivered exactly once as long as the steps of the instance meet `deliversOnce`. The
invariant puts the ledger next to the names of the step calls and the registered waiters: a
name that is owned has no row, so a wait that gets an event had none before; a pending wait is
registered, so an event of its type goes to it and not into the table.

## Main results

* `ExactlyOnce.op`, `ExactlyOnce.stop`: the step lemmas.
* `exactlyOnce_of_reaches`: in every run whose steps meet the condition.
* `not_exactlyOnce`: two waits of one type, without it.
-/

namespace Lopata.Workflow

variable {cfg : Config} {id : String} {s s' : Ledger} {w w' : World} {o : Op} {g : Seg} {k : ℕ}
  {x : Call} {a : Action} {db db' : Db} {key : String} {e e' : EventRow}

/-! ### Events and records -/

theorem Db.eventsOf_eq (db : Db) (id ty : String) :
    db.eventsOf id ty = ofTopic EventRow.topic (id, ty) db.events := by
  refine List.filter_congr ?_
  intro e _
  simp [EventRow.topic]

/-- The statement removes the oldest event of its topic. -/
theorem events_deleteFirstEvent (db : Db) (id ty : String) :
    (exec db (.deleteFirstEvent id ty)).events =
      db.events.eraseP fun e => e.topic = (id, ty) := by
  show db.events.eraseP _ = _
  congr 1
  funext e
  simp [EventRow.topic]

/-- A record says all about its event but the instance. -/
theorem EventRow.recorded_inj (hid : e.instanceId = e'.instanceId) (h : e.recorded = e'.recorded) :
    e = e' := by
  obtain ⟨hpayload, hcreated, htype⟩ := Recorded.event.inj h
  cases e
  cases e'
  simp_all

theorem Db.records_congr
    (h : ∀ p row, row.isEvent = true → (db'.steps.get? p = some row ↔ db.steps.get? p = some row)) :
    db'.records key e ↔ db.records key e := by
  have hevent : ∀ {row : StepRow}, row.output = some e.recorded → row.isEvent = true := by
    intro row hrow
    rw [StepRow.isEvent, hrow]
    rfl
  constructor
  · rintro ⟨row, hrow, hout⟩
    exact ⟨row, (h _ row (hevent hout)).mp hrow, hout⟩
  · rintro ⟨row, hrow, hout⟩
    exact ⟨row, (h _ row (hevent hout)).mpr hrow, hout⟩

/-- A new record under a key that had none. -/
theorem Db.records_cacheStep {now : Millis} (hfresh : db.steps.get? (e.instanceId, key) = none)
    {key' : String}
    (hsteps : db'.steps = db.steps.insert (e.instanceId, key) ⟨some e.recorded, now⟩) :
    db'.records key' e' ↔ key' = key ∧ e' = e ∨ db.records key' e' := by
  simp only [Db.records, hsteps, Table.get?_insert, Prod.mk.injEq]
  by_cases h : e'.instanceId = e.instanceId ∧ key' = key
  · obtain ⟨hid, rfl⟩ := h
    simp only [hid, and_self, if_true, Option.some.injEq, exists_eq_left', hfresh, reduceCtorEq,
      false_and, exists_false, or_false, true_and]
    constructor
    · exact fun h => (EventRow.recorded_inj hid.symm h).symm
    · rintro rfl
      rfl
  · rw [if_neg h]
    constructor
    · exact .inr
    · rintro (⟨rfl, rfl⟩ | hrec)
      · exact absurd ⟨rfl, rfl⟩ h
      · exact hrec

/-- Nothing is recorded under a key without a row. -/
theorem Db.not_records (hfresh : db.steps.get? (e.instanceId, key) = none) :
    ¬ db.records key e := by
  rintro ⟨row, hrow, -⟩
  cases hfresh.symm.trans hrow

/-- A call holds one event. -/
theorem Call.holds_unique (h : x.holds e) (h' : x.holds e') : e = e' := by
  obtain ⟨hid, hsusp, name, timeout, hmethod⟩ := h
  obtain ⟨hid', hsusp', name', timeout', hmethod'⟩ := h'
  obtain ⟨hpayload, hcreated⟩ := Suspension.delivered.inj (hsusp.symm.trans hsusp')
  obtain ⟨-, htype, -⟩ := StepCall.waitForEvent.inj (hmethod.symm.trans hmethod')
  refine EventRow.recorded_inj (hid.symm.trans hid') ?_
  rw [EventRow.recorded, hpayload, hcreated, htype]
  rfl

theorem Call.not_delivered_of_waitsIn {map : ℕ} {ty : String} (hx : x.waitsIn map ty = true)
    (p : Option Json) (t : Millis) : x.susp ≠ .delivered p t := by
  obtain ⟨_, _, _, -, hsusp⟩ := Call.waitsIn_iff.mp hx
  rw [hsusp]
  exact fun heq => nomatch heq

/-- The calls that were given an event are the same. -/
theorem World.holding_congr (hgiven : ∀ k x p t, x.susp = .delivered p t →
    (w'.mem.calls.get? k = some x ↔ w.mem.calls.get? k = some x)) :
    w'.holding key e ↔ w.holding key e := by
  constructor
  · rintro ⟨k, x, hk, hkey, hholds⟩
    exact ⟨k, x, (hgiven k x _ _ hholds.2.1).mp hk, hkey, hholds⟩
  · rintro ⟨k, x, hk, hkey, hholds⟩
    exact ⟨k, x, (hgiven k x _ _ hholds.2.1).mpr hk, hkey, hholds⟩

/-- The waits have the same events when no record of an event and no call with an event has
changed. -/
theorem World.has_congr
    (hheard : ∀ p row, row.isEvent = true →
      (w'.db.steps.get? p = some row ↔ w.db.steps.get? p = some row))
    (hgiven : ∀ k x p t, x.susp = .delivered p t →
      (w'.mem.calls.get? k = some x ↔ w.mem.calls.get? k = some x)) :
    w'.has key e ↔ w.has key e :=
  or_congr (Db.records_congr hheard) (World.holding_congr hgiven)

/-! ### The ledger after a step -/

theorem taken_eq_nil (h : ∀ st ∈ ran cfg w a, ∀ db, st.removed db = none) : taken cfg w a = [] := by
  have hnil : (ran cfg w a).filterMap (Stmt.removed w.db) = [] :=
    List.filterMap_eq_nil_iff.mpr fun st hst => h st hst w.db
  simp only [taken]
  split
  · split
    · rw [hnil]
      rfl
    · rfl
  · rfl

theorem filterMap_inserted (h : ∀ st ∈ ran cfg w a, st.inserted = none) :
    (ran cfg w a).filterMap Stmt.inserted = [] :=
  List.filterMap_eq_nil_iff.mpr h

/-- The lists of the ledger after a step. -/
theorem observe_lists (h : observe cfg id s a = some s') :
    s'.sent = s.sent ++ (ran cfg s.world a).filterMap Stmt.inserted ++
        ((handed s.world a).map Prod.snd).toList ∧
      s'.served = s.served ++ (handed s.world a).toList ++ taken cfg s.world a := by
  simp only [observe] at h
  split at h
  · obtain ⟨w', -, rfl⟩ := Option.map_eq_some_iff.mp h
    exact ⟨rfl, rfl⟩
  · cases h

/-- A step with nothing about events in it. -/
theorem observe_mute (h : observe cfg id s a = some s') (hhanded : handed s.world a = none)
    (hmute : ∀ st ∈ ran cfg s.world a, st.inserted = none ∧ ∀ db, st.removed db = none) :
    s'.sent = s.sent ∧ s'.served = s.served := by
  obtain ⟨hsent, hserved⟩ := observe_lists h
  rw [hsent, hserved, hhanded, filterMap_inserted fun st hst => (hmute st hst).1,
    taken_eq_nil fun st hst => (hmute st hst).2]
  simp

/-- The world of the ledger takes the step. -/
theorem observe_act (h : observe cfg id s a = some s') :
    a.within id = true ∧ act cfg s.world a = some s'.world := by
  simp only [observe] at h
  split at h
  · next hwithin =>
      obtain ⟨w', hact, rfl⟩ := Option.map_eq_some_iff.mp h
      exact ⟨hwithin, hact⟩
  · cases h

theorem ran_op (hg : segment cfg w o = some g) : ran cfg w (.op o) = g.stmts := by
  simp [ran, hg]

theorem ran_crashIn (n : ℕ) (again : List ℕ) (hg : segment cfg w o = some g) :
    ran cfg w (.crashIn o n again) = g.stmts.take n := by
  simp [ran, hg]

/-! ### The invariant -/

/-- The invariant of the ledger. -/
structure Delivered (id : String) (s : Ledger) : Prop where
  solo : Solo id s.world
  keyed : Keyed s.world
  registered : Registered id s.world
  own : ∀ key e, (key, e) ∈ s.served → e.instanceId = id
  exact : ExactlyOnce s

/-- Nothing about events has happened. -/
theorem ExactlyOnce.congr (h : ExactlyOnce s) (hsent : s'.sent = s.sent)
    (hserved : s'.served = s.served) (hevents : s'.world.db.events = s.world.db.events)
    (hhad : ∀ key e, s'.world.has key e ↔ s.world.has key e)
    (hpending : ∀ k x map due, x.susp = .waiting map due →
      s'.world.mem.calls.get? k = some x → s.world.mem.calls.get? k = some x) :
    ExactlyOnce s' where
  fair := by
    have hmailbox : s'.mailbox = s.mailbox := by
      simp only [Ledger.mailbox, hsent, hserved, hevents]
    rw [hmailbox]
    exact h.fair
  had key e := by
    rw [hserved, hhad]
    exact h.had key e
  prompt k x map ty hk hx := by
    obtain ⟨_, _, _, -, hsusp⟩ := Call.waitsIn_iff.mp hx
    rw [Db.eventsOf, hevents]
    exact h.prompt k x map ty (hpending k x _ _ hsusp hk) hx

/-- A wait that has just passed its checks has been given nothing. -/
theorem Delivered.unserved (h : Delivered id s) (hk : s.world.mem.calls.get? k = some x)
    (hown : x.Owns s.world) (hnot : ∀ p t, x.susp ≠ .delivered p t) (e : EventRow) :
    (x.key, e) ∉ s.served := by
  intro hmem
  rcases (h.exact.had x.key e).mp hmem with hrec | ⟨k', x', hk', hkey, hholds⟩
  · have hid : e.instanceId = x.instanceId :=
      (h.own x.key e hmem).trans (h.solo.instanceId hk).symm
    refine Db.not_records ?_ hrec
    rw [hid]
    exact h.keyed.fresh_of_owns hk hown
  · have hne : k' ≠ k := by
      rintro rfl
      rw [hk, Option.some.injEq] at hk'
      exact hnot _ _ (hk' ▸ hholds.2.1)
    exact h.keyed.key_ne h.solo hk hk' hown (by rw [hholds.2.1]; rfl) hne hkey

/-- Steps that are not about events. -/
theorem Delivered.quiet (h : Delivered id s) (hobserve : observe cfg id s (.op o) = some s')
    (hg : segment cfg s.world o = some g) (hquiet : Quiet s.world o g) : ExactlyOnce s' := by
  obtain ⟨hsent, hserved⟩ := observe_mute hobserve hquiet.apart.handed (by
    rw [ran_op hg]
    exact hquiet.mute)
  have hworld : s'.world = s.world.after g := by
    have hact := (observe_act hobserve).2
    simp only [act, hg, Option.map_some, Option.some.injEq] at hact
    exact hact.symm
  obtain ⟨_, _, hnoted⟩ := hquiet.noted g.stmts.length
  rw [List.take_length] at hnoted
  refine h.exact.congr hsent hserved ?_ ?_ ?_
  · rw [hworld]
    exact hnoted.events
  · intro key e
    rw [hworld]
    exact World.has_congr hnoted.heard hquiet.given
  · rw [hworld]
    exact hquiet.pending

/-! ### Events on their way -/

/-- The call that resumes held its event, and now no call does. -/
theorem World.holding_erase (hk : w.mem.calls.get? k = some x) (hholds : x.holds e)
    (hcalls : w'.mem.calls = w.mem.calls.erase k) (key : String) (e' : EventRow) :
    w.holding key e' ↔ key = x.key ∧ e' = e ∨ w'.holding key e' := by
  constructor
  · rintro ⟨k', x', hk', rfl, hholds'⟩
    by_cases hkk : k' = k
    · subst hkk
      rw [hk, Option.some.injEq] at hk'
      subst hk'
      exact .inl ⟨rfl, (Call.holds_unique hholds hholds').symm⟩
    · refine .inr ⟨k', x', ?_, rfl, hholds'⟩
      rw [hcalls, Table.get?_erase, if_neg hkk]
      exact hk'
  · rintro (⟨rfl, rfl⟩ | ⟨k', x', hk', hkey, hholds'⟩)
    · exact ⟨k, x, hk, rfl, hholds⟩
    · rw [hcalls] at hk'
      obtain ⟨-, hk'⟩ := Table.of_get?_erase hk'
      exact ⟨k', x', hk', hkey, hholds'⟩

/-- A waiter was called with an event. -/
theorem World.holding_given (hk : w.mem.calls.get? k = some x)
    (hnot : ∀ p t, x.susp ≠ .delivered p t) {payload : Option Json} {time : Millis}
    (hholds : Call.holds { x with susp := .delivered payload time } e)
    (hcalls : w'.mem.calls = w.mem.calls.modify k fun x =>
      { x with susp := .delivered payload time }) (key : String) (e' : EventRow) :
    w'.holding key e' ↔ key = x.key ∧ e' = e ∨ w.holding key e' := by
  constructor
  · rintro ⟨k', x', hk', rfl, hholds'⟩
    rw [hcalls, Table.get?_modify] at hk'
    split at hk'
    · next hkk =>
        subst hkk
        rw [hk] at hk'
        obtain rfl := Option.some.inj hk'
        exact .inl ⟨rfl, (Call.holds_unique hholds hholds').symm⟩
    · exact .inr ⟨k', x', hk', rfl, hholds'⟩
  · rintro (⟨rfl, rfl⟩ | ⟨k', x', hk', hkey, hholds'⟩)
    · refine ⟨k, { x with susp := .delivered payload time }, ?_, rfl, hholds⟩
      rw [hcalls, Table.get?_modify, if_pos rfl, hk]
      rfl
    · refine ⟨k', x', ?_, hkey, hholds'⟩
      rw [hcalls, Table.get?_modify]
      split
      · next hkk =>
          subst hkk
          rw [hk, Option.some.injEq] at hk'
          exact absurd (hk' ▸ hholds'.2.1) (hnot _ _)
      · exact hk'

/-- Removing a call without an event leaves those with an event. -/
theorem get?_erase_delivered {t : Table ℕ Call} {x₀ : Call} (hk : t.get? k = some x₀)
    (hx₀ : ∀ p t, x₀.susp ≠ .delivered p t) {k' : ℕ} {p : Option Json} {time : Millis}
    (hx : x.susp = .delivered p time) : (t.erase k).get? k' = some x ↔ t.get? k' = some x := by
  rw [Table.get?_erase]
  split
  · next hkk =>
      subst hkk
      constructor
      · exact fun heq => by cases heq
      · intro heq
        rw [hk, Option.some.injEq] at heq
        exact absurd (heq ▸ hx) (hx₀ _ _)
  · exact Iff.rfl

/-! ### Step lemmas -/

/-- The mailbox when a wait takes the oldest event of its type. -/
theorem Delivered.fair_take (h : Delivered id s) (hk : s.world.mem.calls.get? k = some x)
    (hown : x.Owns s.world) (hx : x.susp = .entered) {ty : String}
    (hfirst : s.world.db.firstEvent x.instanceId ty = some e) :
    (s.mailbox.take EventRow.topic x.key e).Fair EventRow.topic := by
  obtain ⟨hid, hty⟩ := Db.firstEvent_spec hfirst
  refine h.exact.fair.take ?_ (h.unserved hk hown fun _ _ => by rw [hx]; nofun)
  rw [Db.firstEvent, Db.eventsOf_eq, ← hid, ← hty] at hfirst
  exact hfirst

/-- Nothing is left in the table for a pending wait when another event is taken. -/
theorem eventsOf_deleteFirstEvent
    (hevents : db'.events = (exec db (.deleteFirstEvent id key)).events)
    {id' ty : String} (hnil : db.eventsOf id' ty = []) : db'.eventsOf id' ty = [] := by
  rw [Db.eventsOf_eq] at hnil ⊢
  rw [hevents, events_deleteFirstEvent, ofTopic_eraseP, hnil]
  split <;> rfl

/-- A wait takes an event from the table and records it. -/
theorem Delivered.took (h : Delivered id s) (hk : s.world.mem.calls.get? k = some x)
    (hx : x.susp = .entered) (hown : x.Owns s.world) {ty : String}
    (hfirst : s.world.db.firstEvent x.instanceId ty = some e)
    (hevents : w'.db.events = (exec s.world.db (.deleteFirstEvent x.instanceId ty)).events)
    (now : Millis)
    (hsteps : w'.db.steps = s.world.db.steps.insert (x.instanceId, x.key) ⟨some e.recorded, now⟩)
    (hgiven : ∀ k x p t, x.susp = .delivered p t →
      (w'.mem.calls.get? k = some x ↔ s.world.mem.calls.get? k = some x))
    (hpending : ∀ k x map due, x.susp = .waiting map due → w'.mem.calls.get? k = some x →
      s.world.mem.calls.get? k = some x) :
    ExactlyOnce ⟨w', s.sent, s.served ++ [(x.key, e)]⟩ := by
  obtain ⟨hid, hty⟩ := Db.firstEvent_spec hfirst
  have hfresh : s.world.db.steps.get? (e.instanceId, x.key) = none := by
    rw [hid]
    exact h.keyed.fresh_of_owns hk hown
  have hmailbox : Ledger.mailbox ⟨w', s.sent, s.served ++ [(x.key, e)]⟩ =
      s.mailbox.take EventRow.topic x.key e := by
    rw [Ledger.mailbox, hevents, events_deleteFirstEvent, ← hid, ← hty]
    rfl
  refine ⟨?_, ?_, ?_⟩
  · rw [hmailbox]
    exact h.fair_take hk hown hx hfirst
  · intro key' e'
    rw [← hid] at hsteps
    simp only [List.mem_append, List.mem_singleton, Prod.mk.injEq, h.exact.had, World.has,
      World.holding_congr hgiven, Db.records_cacheStep hfresh hsteps]
    tauto
  · intro k' x' map ty' hk' hx'
    obtain ⟨_, _, _, -, hsusp⟩ := Call.waitsIn_iff.mp hx'
    exact eventsOf_deleteFirstEvent hevents
      (h.exact.prompt k' x' map ty' (hpending k' x' _ _ hsusp hk') hx')

/-- A wait records the event it was given. -/
theorem Delivered.resumed (h : Delivered id s) (hk : s.world.mem.calls.get? k = some x)
    (hholds : x.holds e) (hevents : w'.db.events = s.world.db.events) (now : Millis)
    (hsteps : w'.db.steps = s.world.db.steps.insert (x.instanceId, x.key) ⟨some e.recorded, now⟩)
    (hholding : ∀ key e', s.world.holding key e' ↔ key = x.key ∧ e' = e ∨ w'.holding key e')
    (hpending : ∀ k x map due, x.susp = .waiting map due → w'.mem.calls.get? k = some x →
      s.world.mem.calls.get? k = some x) : ExactlyOnce ⟨w', s.sent, s.served⟩ := by
  have hrec : x.susp.recording = true := by rw [hholds.2.1]; rfl
  have hfresh : s.world.db.steps.get? (e.instanceId, x.key) = none := by
    rw [← hholds.1]
    exact h.keyed.fresh k x hk hrec
  refine h.exact.congr rfl rfl hevents ?_ hpending
  intro key' e'
  rw [hholds.1] at hsteps
  rw [World.has, World.has, Db.records_cacheStep hfresh hsteps, hholding]
  tauto

/-- A waiter is called with an event. -/
theorem Delivered.given (h : Delivered id s) (payload : Option Json) {map : ℕ} {ty : String}
    (hk : s.world.mem.calls.get? k = some x) (hx : x.waitsIn map ty = true) (now : Millis)
    (hevents : w'.db.events = s.world.db.events) (hsteps : w'.db.steps = s.world.db.steps)
    (hcalls : w'.mem.calls = s.world.mem.calls.modify k fun x =>
      { x with susp := .delivered payload now }) :
    ExactlyOnce ⟨w', s.sent ++ [⟨x.instanceId, ty, payload, now⟩],
      s.served ++ [(x.key, ⟨x.instanceId, ty, payload, now⟩)]⟩ := by
  obtain ⟨name, timeout, due, hmethod, hsusp⟩ := Call.waitsIn_iff.mp hx
  have hnot := Call.not_delivered_of_waitsIn hx
  have hown : x.Owns s.world := .inl (by rw [hsusp]; rfl)
  have hmailbox : Ledger.mailbox ⟨w', s.sent ++ [⟨x.instanceId, ty, payload, now⟩],
      s.served ++ [(x.key, ⟨x.instanceId, ty, payload, now⟩)]⟩ =
      s.mailbox.hand x.key ⟨x.instanceId, ty, payload, now⟩ := by
    rw [Ledger.mailbox, hevents]
    rfl
  refine ⟨?_, ?_, ?_⟩
  · rw [hmailbox]
    refine h.exact.fair.hand ?_ (h.unserved hk hown hnot)
    have hnil := h.exact.prompt k x map ty hk hx
    rw [Db.eventsOf_eq] at hnil
    exact hnil
  · intro key' e'
    have hgiven := World.holding_given (e := ⟨x.instanceId, ty, payload, now⟩) hk hnot
      ⟨rfl, rfl, name, timeout, hmethod⟩ hcalls key' e'
    simp only [List.mem_append, List.mem_singleton, Prod.mk.injEq, h.exact.had, World.has, hgiven,
      Db.records, hsteps]
    exact or_assoc.trans (or_congr Iff.rfl or_comm)
  · intro k' x' map' ty' hk' hx'
    obtain ⟨_, _, _, -, hsusp'⟩ := Call.waitsIn_iff.mp hx'
    rw [hcalls, Table.get?_modify] at hk'
    split at hk'
    · next hkk =>
        subst hkk
        rw [hk] at hk'
        obtain rfl := Option.some.inj hk'
        cases hsusp'
    · rw [Db.eventsOf, hevents]
      exact h.exact.prompt k' x' map' ty' hk' hx'

/-- An event is stored. -/
theorem Delivered.posted (h : Delivered id s) (payload : Option Json) (ty : String) (now : Millis)
    (hevents : w'.db.events = s.world.db.events ++ [⟨id, ty, payload, now⟩])
    (hsteps : w'.db.steps = s.world.db.steps)
    (hgiven : ∀ k x p t, x.susp = .delivered p t →
      (w'.mem.calls.get? k = some x ↔ s.world.mem.calls.get? k = some x))
    (hpending : ∀ k x map ty', x.waitsIn map ty' = true → w'.mem.calls.get? k = some x →
      ty' ≠ ty ∧ s.world.mem.calls.get? k = some x) :
    ExactlyOnce ⟨w', s.sent ++ [⟨id, ty, payload, now⟩], s.served⟩ := by
  have hmailbox : Ledger.mailbox ⟨w', s.sent ++ [⟨id, ty, payload, now⟩], s.served⟩ =
      s.mailbox.post ⟨id, ty, payload, now⟩ := by
    rw [Ledger.mailbox, hevents]
    rfl
  refine ⟨?_, ?_, ?_⟩
  · rw [hmailbox]
    exact h.exact.fair.post _
  · intro key' e'
    simp only [h.exact.had, World.has, World.holding_congr hgiven, Db.records, hsteps]
  · intro k' x' map ty' hk' hx'
    obtain ⟨hne, hk₀⟩ := hpending k' x' map ty' hx' hk'
    have hnil := h.exact.prompt k' x' map ty' hk₀ hx'
    rw [Db.eventsOf_eq] at hnil ⊢
    rw [hevents, ofTopic_append, hnil, ofTopic_singleton, if_neg]
    · rfl
    · exact fun heq => hne (Prod.mk.inj heq).2.symm

/-- A pending wait finds itself registered, or its instance takes no events. -/
theorem Delivered.type_ne (h : Delivered id s) {ty ty' : String} {map : ℕ}
    (herr : sendEventError s.world.db id ty = none) (hwaiter : s.world.mem.waiter id ty = none)
    (hk : s.world.mem.calls.get? k = some x) (hx : x.waitsIn map ty' = true) : ty' ≠ ty := by
  rintro rfl
  obtain ⟨_, _, _, -, hsusp⟩ := Call.waitsIn_iff.mp hx
  by_cases hmap : s.world.mem.eventWaiters id = some map
  · have hself := h.registered.waiter k x map ty' hk hx hmap
    rw [Memory.waiter, hmap] at hwaiter
    simp only [hself, Option.map_some] at hwaiter
    cases hwaiter
  · obtain ⟨st, hst, hfin⟩ := h.registered.dropped k x map _ hk hsusp hmap
    simp only [sendEventError] at herr
    split at herr
    · cases herr
    · rw [hst] at herr
      simp only [hfin, if_true] at herr
      cases herr

theorem Delivered.own_append (h : Delivered id s) {served : List (String × EventRow)}
    (hserved : served = s.served ++ [(key, e)]) (hid : e.instanceId = id) :
    ∀ key' e', (key', e') ∈ served → e'.instanceId = id := by
  subst hserved
  intro key' e' hmem
  rcases List.mem_append.mp hmem with hmem | hmem
  · exact h.own key' e' hmem
  · obtain ⟨-, rfl⟩ := Prod.mk.inj (List.mem_singleton.mp hmem)
    exact hid

/-- The lists of the ledger when a wait takes an event. -/
theorem observe_took (h : observe cfg id s a = some s') (ho : a.op? = some (.enter k))
    (hhanded : handed s.world a = none) (hk : s.world.mem.calls.get? k = some x) {ty : String}
    (hfirst : s.world.db.firstEvent x.instanceId ty = some e) {now : Millis}
    (hran : ran cfg s.world a = takeStmts s.world x.instanceId ty ++
      [.setStatus x.instanceId .running now] ++
        [.cacheStep x.instanceId x.key (some e.recorded) now]) :
    s'.sent = s.sent ∧ s'.served = s.served ++ [(x.key, e)] := by
  obtain ⟨hsent, hserved⟩ := observe_lists h
  rw [hsent, hserved, hhanded, taken, ho]
  simp [hk, hran, takeStmts, List.filterMap_cons, Stmt.inserted, Stmt.removed, hfirst]

/-- **The step lemma for segments.** -/
theorem Delivered.op (h : Delivered id s) (hok : deliversOnce cfg id s.world (.op o) = true)
    (hobserve : observe cfg id s (.op o) = some s') : Delivered id s' := by
  obtain ⟨hwithin, hact⟩ := observe_act hobserve
  obtain ⟨g, hg, hworld⟩ := Option.map_eq_some_iff.mp hact
  replace hwithin : o.within id = true := hwithin
  have heffect := effect_of_segment h.solo hwithin hg
  have hran := ran_op hg
  suffices hsuff : ExactlyOnce s' ∧ ∀ key e, (key, e) ∈ s'.served → e.instanceId = id by
    refine ⟨h.solo.step (a := .op o) hwithin hact, ?_, ?_, hsuff.2, hsuff.1⟩
    · rw [← hworld]
      exact h.keyed.step h.solo hok heffect
    · rw [← hworld]
      exact h.registered.step h.solo h.keyed hwithin hok hg
  have hquiet : Quiet s.world o g →
      ExactlyOnce s' ∧ ∀ key e, (key, e) ∈ s'.served → e.instanceId = id := by
    intro hquiet
    refine ⟨h.quiet hobserve hg hquiet, ?_⟩
    rw [(observe_mute hobserve hquiet.apart.handed (hran ▸ hquiet.mute)).2]
    exact h.own
  rcases heffect.quiet_or h.keyed h.solo with ⟨hq, -⟩ | he
  · exact hquiet hq
  · cases he with
    | @timedOut k x map ty message hk hx =>
      refine hquiet ⟨.of rfl, ?_, ?_, noted_take_of_silent forall_mem_nil_kind, ?_⟩
      · intro k' x' p t hx'
        exact get?_erase_delivered hk (Call.not_delivered_of_waitsIn hx) hx'
      · intro k' x' _ _ _ hk'
        exact (Table.of_get?_erase hk').2
      · intro st hst
        cases hst
    | @took k x m name ty timeout e hk hx hmethod hstarts hfirst hm hmem hadmitted =>
      obtain ⟨hid, rfl⟩ := Db.firstEvent_spec hfirst
      have hfits : e.fits cfg = true := by
        simp only [deliversOnce, World.starts_eq hk hx hmethod hstarts, hfirst,
          Bool.and_eq_true] at hok
        exact hok.2
      have hkey : x.key = waitKey name := by rw [Call.key, hmethod]; rfl
      have hcalls : m.calls = s.world.mem.calls := by
        obtain ⟨i, rfl⟩ := hm
        rfl
      rw [recordEvent_of_fits hfits, ← hkey] at hran hworld
      obtain ⟨hsent, hserved⟩ := observe_took hobserve rfl rfl hk hfirst hran
      have hafter : s'.world.mem.calls = s.world.mem.calls.erase k := by
        rw [← hworld, ← hcalls]
        rfl
      have hexact : ExactlyOnce ⟨s'.world, _, _⟩ := h.took hk hx
        (.inr ⟨hadmitted.fresh, hadmitted.new⟩) hfirst (by rw [← hworld]; rfl) s.world.clock
        (by rw [← hworld]; rfl)
        (fun k' x' p t hx' => by
          rw [hafter]
          exact get?_erase_delivered hk (by simp [hx]) hx')
        (fun k' x' _ _ _ hk' => by
          rw [hafter] at hk'
          exact (Table.of_get?_erase hk').2)
      rw [← hsent, ← hserved] at hexact
      exact ⟨hexact, h.own_append hserved (hid.trans (h.solo.instanceId hk))⟩
    | @waits k x m name ty timeout ms hk hx hmethod hstarts hnone htimeout hm hmem hadmitted =>
      have hm' : m.calls = s.world.mem.calls := by
        obtain ⟨i, rfl⟩ := hm
        rfl
      have hmute : ∀ st ∈ ran cfg s.world (.op (.enter k)),
          st.inserted = none ∧ ∀ db, st.removed db = none := by
        rw [hran]
        intro st hst
        obtain rfl := List.mem_singleton.mp hst
        exact ⟨rfl, fun _ => rfl⟩
      obtain ⟨hsent, hserved⟩ := observe_mute hobserve rfl hmute
      have hcalls := registerWaiter_calls (w := s.world) (k := k) (x := x) m ty ms rfl
      have hafter : ∀ {k' x'}, s'.world.mem.calls.get? k' = some x' →
          (k' = k ∧ x'.instanceId = x.instanceId ∧ x'.method = x.method ∧
            ∃ map due, x'.susp = .waiting map due) ∨ s.world.mem.calls.get? k' = some x' := by
        intro k' x' hk'
        rw [← hworld, World.after, hcalls, hm', Table.get?_modify] at hk'
        split at hk'
        · next hkk =>
            subst hkk
            rw [hk] at hk'
            obtain rfl := Option.some.inj hk'
            exact .inl ⟨rfl, rfl, rfl, _, _, rfl⟩
        · exact .inr hk'
      have hnew : ∀ p t, x.susp ≠ .delivered p t := fun _ _ => by rw [hx]; rintro ⟨⟩
      have hhad : ∀ key e, s'.world.has key e ↔ s.world.has key e := by
        intro key e
        refine World.has_congr (fun p row _ => by rw [← hworld]; rfl) ?_
        intro k' x' p t hx'
        constructor
        · intro hk'
          rcases hafter hk' with ⟨-, -, -, _, _, hsusp⟩ | hold
          · cases hx'.symm.trans hsusp
          · exact hold
        · intro hk'
          rw [← hworld, World.after, hcalls, hm', Table.get?_modify]
          split
          · next hkk =>
              subst hkk
              rw [hk, Option.some.injEq] at hk'
              exact absurd (hk' ▸ hx') (hnew _ _)
          · exact hk'
      have hevents : s'.world.db.events = s.world.db.events := by rw [← hworld]; rfl
      refine ⟨⟨?_, ?_, ?_⟩, hserved ▸ h.own⟩
      · have hmailbox : s'.mailbox = s.mailbox := by
          simp only [Ledger.mailbox, hsent, hserved, hevents]
        rw [hmailbox]
        exact h.exact.fair
      · intro key e
        rw [hserved, hhad]
        exact h.exact.had key e
      · intro k' x' map' ty' hk' hx'
        rw [Db.eventsOf, hevents]
        rcases hafter hk' with ⟨rfl, hid, hsame, -⟩ | hold
        · obtain ⟨_, _, _, hmethod', -⟩ := Call.waitsIn_iff.mp hx'
          rw [hsame, hmethod] at hmethod'
          obtain ⟨-, rfl, -⟩ := StepCall.waitForEvent.inj hmethod'
          rw [hid]
          exact List.head?_eq_none_iff.mp hnone
        · exact h.exact.prompt k' x' map' ty' hold hx'
    | @resumed k x name ty timeout payload timestamp hk hx hmethod =>
      let e : EventRow := ⟨x.instanceId, ty, payload, timestamp⟩
      have hfits : e.fits cfg = true := by
        simp only [deliversOnce, World.resumes_eq hk hx hmethod, Bool.and_eq_true] at hok
        exact hok.2
      have hkey : x.key = waitKey name := by rw [Call.key, hmethod]; rfl
      have hholds : x.holds e := ⟨rfl, hx, name, timeout, hmethod⟩
      rw [eventResume, recordEvent_of_fits (e := e) hfits, ← hkey] at hran hworld
      have hmute : ∀ st ∈ ran cfg s.world (.op (.eventResume k)),
          st.inserted = none ∧ ∀ db, st.removed db = none := by
        rw [hran]
        intro st hst
        rcases List.mem_cons.mp hst with rfl | hst
        · exact ⟨rfl, fun _ => rfl⟩
        · obtain rfl := List.mem_singleton.mp hst
          exact ⟨rfl, fun _ => rfl⟩
      obtain ⟨hsent, hserved⟩ := observe_mute hobserve rfl hmute
      have hafter : s'.world.mem.calls = s.world.mem.calls.erase k := by
        rw [← hworld]
        rfl
      have hexact : ExactlyOnce ⟨s'.world, _, _⟩ := h.resumed hk hholds
        (by rw [← hworld]; rfl) s.world.clock (by rw [← hworld]; rfl)
        (World.holding_erase hk hholds hafter)
        (fun k' x' _ _ _ hk' => by
          rw [hafter] at hk'
          exact (Table.of_get?_erase hk').2)
      rw [← hsent, ← hserved] at hexact
      exact ⟨hexact, hserved ▸ h.own⟩
    | @given id' ty payload map k x herr hwaiter hk hid hx =>
      subst hid
      obtain ⟨hsent, hserved⟩ := observe_lists hobserve
      have hhanded : handed s.world (.op (.sendEvent x.instanceId ty payload)) =
          some (x.key, ⟨x.instanceId, ty, payload, s.world.clock⟩) := by
        simp [handed, herr, hwaiter, hk]
      simp only [hran, hhanded, List.filterMap_nil, List.append_nil, Option.map_some,
        Option.toList_some, taken, Action.op?] at hsent hserved
      have hexact : ExactlyOnce ⟨s'.world, _, _⟩ := h.given payload hk hx s.world.clock
        (by rw [← hworld]; rfl) (by rw [← hworld]; rfl) (by rw [← hworld]; rfl)
      rw [← hsent, ← hserved] at hexact
      exact ⟨hexact, h.own_append hserved (h.solo.instanceId hk)⟩
    | @posted id' ty payload herr hwaiter =>
      have hid : id' = id := of_decide_eq_true hwithin
      subst hid
      obtain ⟨hsent, hserved⟩ := observe_lists hobserve
      have hhanded : handed s.world (.op (.sendEvent id' ty payload)) = none := by
        simp [handed, herr, hwaiter]
      simp only [hran, hhanded, List.filterMap_cons, List.filterMap_nil, Stmt.inserted,
        List.append_nil, Option.map_none, Option.toList_none, taken, Action.op?] at hsent hserved
      have hexact : ExactlyOnce ⟨s'.world, _, _⟩ := h.posted payload ty s.world.clock
        (by rw [← hworld]; rfl) (by rw [← hworld]; rfl)
        (fun _ _ _ _ _ => by rw [← hworld]; rfl)
        (fun k x map ty' hx hk => by
          rw [← hworld] at hk
          exact ⟨h.type_ne herr hwaiter hk hx, hk⟩)
      rw [← hsent, ← hserved] at hexact
      exact ⟨hexact, hserved ▸ h.own⟩
    | @ended c r _ hr hstmts hmem =>
      refine hquiet ⟨.of rfl, ?_, ?_, noted_take_of_silent hstmts,
        fun st hst => mute_of_silent (hstmts st hst)⟩
      · intro k x p t _
        rw [hmem]
        rfl
      · intro k x map due _ hk
        rw [hmem] at hk
        exact hk

/-! ### Stops of the process -/

/-- No call holds an event. -/
theorem not_delivered_of_recorded (h : w.unrecorded none = false)
    (hk : w.mem.calls.get? k = some x) (p : Option Json) (t : Millis) :
    x.susp ≠ .delivered p t := by
  intro hx
  have hany : w.unrecorded none = true := by
    refine List.any_eq_true.mpr ⟨(k, x), Table.mem_of_get? hk, ?_⟩
    simp [hx]
  cases h.symm.trans hany

/-- Only this call holds an event. -/
theorem eq_of_delivered (h : w.unrecorded (some k) = false) {k' : ℕ}
    (hk' : w.mem.calls.get? k' = some x) {p : Option Json} {t : Millis}
    (hx : x.susp = .delivered p t) : k' = k := by
  by_contra hne
  have hany : w.unrecorded (some k) = true := by
    refine List.any_eq_true.mpr ⟨(k', x), Table.mem_of_get? hk', ?_⟩
    simp [hx, Ne.symm hne]
  cases h.symm.trans hany

/-- Where the process may stop in a segment that resumes no wait. -/
theorem recorded_of_stop {n : ℕ} {again : List ℕ}
    (hok : deliversOnce cfg id w (.crashIn o n again) = true)
    (ho : ∀ k, o ≠ .eventResume k) : w.unrecorded none = false := by
  cases o with
  | enter k =>
    simp only [deliversOnce, Bool.and_eq_true, Bool.not_eq_true'] at hok
    exact hok.1
  | eventResume k => exact absurd rfl (ho k)
  | _ =>
    simp only [deliversOnce, Bool.not_eq_true'] at hok
    exact hok

/-- After a stop nothing is in flight. -/
theorem calls_of_resumed {w₀ : World} (h : Resumed w₀ w') (k : ℕ) :
    w'.mem.calls.get? k = none := by
  rw [h.memory]
  rfl

theorem not_holding_of_resumed {w₀ : World} (h : Resumed w₀ w') : ¬ w'.holding key e := by
  rintro ⟨k, x, hk, -⟩
  cases (calls_of_resumed h k).symm.trans hk

/-- No call had an event, and none has one after a stop. -/
theorem given_of_stop {w₀ : World} (h : Resumed w₀ w') (hnone : w.unrecorded none = false) (k : ℕ)
    (x : Call) (p : Option Json) (t : Millis) (hx : x.susp = .delivered p t) :
    w'.mem.calls.get? k = some x ↔ w.mem.calls.get? k = some x := by
  constructor
  · intro hk
    cases (calls_of_resumed h k).symm.trans hk
  · intro hk
    exact absurd hx (not_delivered_of_recorded hnone hk p t)

/-- A stop before anything happens to an event. -/
theorem Delivered.stop_mute (h : Delivered id s) {w₀ : World}
    (hres : Resumed w₀ s'.world) (hnone : s.world.unrecorded none = false)
    (hnoted : ∃ id key, Noted id key s.world.db w₀.db) (hsent : s'.sent = s.sent)
    (hserved : s'.served = s.served) : ExactlyOnce s' := by
  obtain ⟨_, _, hnoted⟩ := hnoted
  refine h.exact.congr hsent hserved (hres.events.trans hnoted.events) ?_ ?_
  · intro key e
    refine World.has_congr (fun p row hrow => ?_) (given_of_stop hres hnone)
    rw [hres.steps]
    exact hnoted.heard p row hrow
  · intro k x map due _ hk
    cases (calls_of_resumed hres k).symm.trans hk

/-- Up to its first statement a wait that takes an event has done nothing about events. -/
theorem silent_take_of_took {m : Memory} {id name ty : String} {payload : Option Json}
    {time now : Millis} {n : ℕ} (hn : n ≤ 1) :
    ∀ st ∈ (recordEvent cfg m k x (takeStmts w id ty) name ty payload time now).stmts.take n,
      st.silent = true := by
  have hstmts : ∃ rest, (recordEvent cfg m k x (takeStmts w id ty) name ty payload time now).stmts =
      .setStatus id .waiting w.clock :: rest := by
    simp only [recordEvent]
    split <;> exact ⟨_, rfl⟩
  obtain ⟨rest, hstmts⟩ := hstmts
  rw [hstmts]
  intro st hst
  have hmem : st ∈ (Stmt.setStatus id .waiting w.clock :: rest).take 1 :=
    (List.take_sublist_take_left hn).subset hst
  obtain rfl := List.mem_singleton.mp hmem
  rfl

/-- **The step lemma for stops.** -/
theorem Delivered.stop (h : Delivered id s) (hfree : a.crashFree = false)
    (hok : deliversOnce cfg id s.world a = true) (hobserve : observe cfg id s a = some s') :
    Delivered id s' := by
  obtain ⟨hwithin, hact⟩ := observe_act hobserve
  have hsolo := h.solo.step hwithin hact
  suffices hsuff : (∃ w₀, Resumed w₀ s'.world) ∧ ExactlyOnce s' ∧
      ∀ key e, (key, e) ∈ s'.served → e.instanceId = id by
    obtain ⟨⟨w₀, hres⟩, hexact, hown⟩ := hsuff
    exact ⟨hsolo, keyed_of_no_calls (calls_of_resumed hres),
      registered_of_no_calls (calls_of_resumed hres), hown, hexact⟩
  cases a with
  | op | tick => cases hfree
  | crash again =>
    have hres : Resumed s.world s'.world := by
      obtain heq := Option.some.inj hact
      rw [← heq]
      exact resumed_resumeAfter _ again
    have hnone : s.world.unrecorded none = false := by
      simpa only [deliversOnce, Bool.not_eq_true'] using hok
    obtain ⟨hsent, hserved⟩ := observe_mute hobserve rfl fun st hst => by cases hst
    exact ⟨⟨_, hres⟩, h.stop_mute hres hnone ⟨"", "", noted_of_same rfl rfl⟩ hsent hserved,
      hserved ▸ h.own⟩
  | crashIn o n again =>
    obtain ⟨g, hg, hworld⟩ := Option.map_eq_some_iff.mp hact
    have hran := ran_crashIn n again hg
    have hres : Resumed { s.world with db := execAll s.world.db (g.stmts.take n) } s'.world := by
      rw [← hworld]
      exact resumed_resumeAfter _ again
    refine ⟨⟨_, hres⟩, ?_⟩
    have hmute : (∀ k, o ≠ .eventResume k) →
        (∃ id key, Noted id key s.world.db (execAll s.world.db (g.stmts.take n))) →
        (∀ st ∈ g.stmts.take n, st.inserted = none ∧ ∀ db, st.removed db = none) →
        ExactlyOnce s' ∧ ∀ key e, (key, e) ∈ s'.served → e.instanceId = id := by
      intro ho hnoted hmute
      obtain ⟨hsent, hserved⟩ := observe_mute hobserve rfl (hran ▸ hmute)
      exact ⟨h.stop_mute hres (recorded_of_stop hok ho) hnoted hsent hserved, hserved ▸ h.own⟩
    have hsilent : (∀ k, o ≠ .eventResume k) → (∀ st ∈ g.stmts.take n, st.silent = true) →
        ExactlyOnce s' ∧ ∀ key e, (key, e) ∈ s'.served → e.instanceId = id := by
      intro ho hsilent
      obtain ⟨hevents, hsteps⟩ := execAll_silent s.world.db hsilent
      exact hmute ho ⟨"", "", noted_of_same hevents hsteps⟩ fun st hst =>
        mute_of_silent (hsilent st hst)
    rcases (effect_of_segment h.solo hwithin hg).quiet_or h.keyed h.solo with ⟨hq, -⟩ | he
    · exact hmute hq.apart.resumes (hq.noted n) fun st hst =>
        hq.mute st (List.mem_of_mem_take hst)
    · cases he with
      | timedOut | given =>
        refine hsilent (fun _ h => by cases h) ?_
        intro st hst
        cases List.mem_of_mem_take hst
      | waits =>
        refine hsilent (fun _ h => by cases h) ?_
        intro st hst
        obtain rfl := List.mem_singleton.mp (List.mem_of_mem_take hst)
        rfl
      | ended hr hstmts =>
        exact hsilent (fun _ h => by cases h) fun st hst => hstmts st (List.mem_of_mem_take hst)
      | @posted id' ty payload herr hwaiter =>
        have hid : id' = id := of_decide_eq_true hwithin
        subst hid
        cases n with
        | zero => exact hsilent (fun _ h => by cases h) fun st hst => by cases hst
        | succ n =>
          have htake : ([.insertEvent ⟨id', ty, payload, s.world.clock⟩] : List Stmt).take
              (n + 1) = [.insertEvent ⟨id', ty, payload, s.world.clock⟩] := by simp
          have hnone := recorded_of_stop hok fun _ h => by cases h
          obtain ⟨hsent, hserved⟩ := observe_lists hobserve
          simp only [hran, htake, handed, taken, Action.op?, List.filterMap_cons,
            List.filterMap_nil, Stmt.inserted, List.append_nil, Option.map_none,
            Option.toList_none] at hsent hserved
          simp only [htake] at hres
          have hexact : ExactlyOnce ⟨s'.world, _, _⟩ := h.posted _ _ _ hres.events hres.steps
            (given_of_stop hres hnone) fun k x map ty' _ hk =>
              by cases (calls_of_resumed hres k).symm.trans hk
          rw [← hsent, ← hserved] at hexact
          exact ⟨hexact, hserved ▸ h.own⟩
      | @took k x m name ty timeout e hk hx hmethod hstarts hfirst hm hmem hadmitted =>
        obtain ⟨hid, rfl⟩ := Db.firstEvent_spec hfirst
        have hnone := recorded_of_stop hok fun _ h => by cases h
        simp only [deliversOnce, World.starts_eq hk hx hmethod hstarts, hfirst,
          Option.all_some, Bool.and_eq_true, Bool.or_eq_true, decide_eq_true_eq] at hok
        rcases hok.2 with hn | ⟨hn, hfits⟩
        · refine hsilent (fun _ h => by cases h) ?_
          exact silent_take_of_took hn
        · have hkey : x.key = waitKey name := by rw [Call.key, hmethod]; rfl
          rw [recordEvent_of_fits hfits, ← hkey] at hran
          rw [recordEvent_of_fits hfits, ← hkey] at hres
          have htake := List.take_of_length_le (l :=
            takeStmts s.world x.instanceId e.eventType ++
            [.setStatus x.instanceId .running s.world.clock] ++
              [.cacheStep x.instanceId x.key (some e.recorded) s.world.clock]) (i := n)
            (by exact hn)
          simp only [Seg.settle, htake] at hran hres
          obtain ⟨hsent, hserved⟩ := observe_took hobserve rfl rfl hk hfirst hran
          have hexact : ExactlyOnce ⟨s'.world, _, _⟩ := h.took hk hx
            (.inr ⟨hadmitted.fresh, hadmitted.new⟩) hfirst hres.events _ hres.steps
            (given_of_stop hres hnone)
            fun k x _ _ _ hk => by cases (calls_of_resumed hres k).symm.trans hk
          rw [← hsent, ← hserved] at hexact
          exact ⟨hexact, h.own_append hserved (hid.trans (h.solo.instanceId hk))⟩
      | @resumed k x name ty timeout payload timestamp hk hx hmethod =>
        let e : EventRow := ⟨x.instanceId, ty, payload, timestamp⟩
        have hholds : x.holds e := ⟨rfl, hx, name, timeout, hmethod⟩
        have hkey : x.key = waitKey name := by rw [Call.key, hmethod]; rfl
        simp only [deliversOnce, World.resumes_eq hk hx hmethod, Option.all_some,
          Bool.and_eq_true, Bool.not_eq_true', decide_eq_true_eq] at hok
        obtain ⟨honly, hn, hfits⟩ := hok
        rw [eventResume, recordEvent_of_fits (e := e) hfits, ← hkey] at hran
        rw [eventResume, recordEvent_of_fits (e := e) hfits, ← hkey] at hres
        have htake := List.take_of_length_le
          (l := ([] ++ [.setStatus x.instanceId .running s.world.clock] ++
            [.cacheStep x.instanceId x.key (some e.recorded) s.world.clock] : List Stmt))
          (i := n) (by exact hn)
        simp only [Seg.settle, htake] at hran hres
        obtain ⟨hsent, hserved⟩ := observe_mute hobserve rfl (by
          rw [hran]
          intro st hst
          rcases List.mem_cons.mp hst with rfl | hst
          · exact ⟨rfl, fun _ => rfl⟩
          · obtain rfl := List.mem_singleton.mp hst
            exact ⟨rfl, fun _ => rfl⟩)
        have hexact : ExactlyOnce ⟨s'.world, _, _⟩ := h.resumed hk hholds hres.events _
          hres.steps (fun key e' => ?_)
          fun k x _ _ _ hk => by cases (calls_of_resumed hres k).symm.trans hk
        · rw [← hsent, ← hserved] at hexact
          exact ⟨hexact, hserved ▸ h.own⟩
        · constructor
          · rintro ⟨k', x', hk', rfl, hholds'⟩
            obtain rfl := eq_of_delivered honly hk' hholds'.2.1
            rw [hk, Option.some.injEq] at hk'
            subst hk'
            exact .inl ⟨rfl, (Call.holds_unique hholds hholds').symm⟩
          · rintro (⟨rfl, rfl⟩ | hholding)
            · exact ⟨k, x, hk, rfl, hholds⟩
            · exact absurd hholding (not_holding_of_resumed hres)

/-! ### Runs -/

/-- **The step lemma.** -/
theorem Delivered.step (h : Delivered id s) (hok : deliversOnce cfg id s.world a = true)
    (hobserve : observe cfg id s a = some s') : Delivered id s' := by
  cases a with
  | op o => exact h.op hok hobserve
  | crashIn | crash => exact h.stop rfl hok hobserve
  | tick ms =>
    obtain ⟨hwithin, hact⟩ := observe_act hobserve
    obtain ⟨hsent, hserved⟩ := observe_mute hobserve rfl fun st hst => by cases hst
    have hworld : { s.world with clock := s.world.clock + ms } = s'.world := Option.some.inj hact
    have hexact : ExactlyOnce s' :=
      h.exact.congr hsent hserved (by rw [← hworld]) (fun _ _ => by rw [← hworld]; rfl)
        (fun _ _ _ _ _ hk => by rw [← hworld] at hk; exact hk)
    refine ⟨h.solo.step hwithin hact, ?_, ?_, hserved ▸ h.own, hexact⟩
    · rw [← hworld]
      exact ⟨h.keyed.known, h.keyed.fresh, h.keyed.distinct⟩
    · rw [← hworld]
      exact ⟨h.registered.waiter, h.registered.dropped⟩

/-- At the start no event was sent and no step was called. -/
theorem delivered_start (cfg : Config) (id : String) (params : Option Json) (now : ℕ) :
    Delivered id (Ledger.start cfg id params now) := by
  let w : World := { World.init with clock := now }
  have hcalls : ∀ k, (Ledger.start cfg id params now).world.mem.calls.get? k = none := by
    intro k
    show (create cfg w (some id) params).mem.calls.get? k = none
    rw [create_calls]
    rfl
  have hsilent : ∀ st ∈ (create cfg w (some id) params).stmts, st.silent = true := by
    have hcleanup : ∀ st ∈ cleanupRetentionExpired cfg w.db w.clock, st.silent = true := by
      simp only [cleanupRetentionExpired]
      split
      · exact forall_mem_nil_kind
      · intro st hst
        rcases List.mem_append.mp hst with hst | hst
        · obtain ⟨_, -, rfl⟩ := List.mem_map.mp hst
          rfl
        · obtain rfl := List.mem_singleton.mp hst
          rfl
    rcases create_cases cfg w (some id) params with
      ⟨-, hstmts, -⟩ | ⟨_, row, -, -, -, -, -, hstmts, -⟩
    · rw [hstmts]
      exact hcleanup
    · rw [hstmts]
      intro st hst
      rcases List.mem_append.mp hst with hst | hst
      · exact hcleanup st hst
      · obtain rfl := List.mem_singleton.mp hst
        rfl
  obtain ⟨hevents, hsteps⟩ := execAll_silent w.db hsilent
  have hevents : (Ledger.start cfg id params now).world.db.events = [] := hevents
  have hsteps : (Ledger.start cfg id params now).world.db.steps = .empty := hsteps
  refine ⟨solo_start cfg id params now, keyed_of_no_calls hcalls, registered_of_no_calls hcalls,
    fun _ _ hmem => (by cases hmem), ⟨⟨?_, List.nodup_nil⟩, ?_, ?_⟩⟩
  · intro t
    simp only [Ledger.mailbox, hevents]
    rfl
  · intro key e
    constructor
    · exact fun hmem => by cases hmem
    · rintro (⟨row, hrow, -⟩ | ⟨k, x, hk, -⟩)
      · rw [hsteps] at hrow
        cases hrow
      · cases (hcalls k).symm.trans hk
  · intro k x map ty hk
    cases (hcalls k).symm.trans hk

/-- **Exactly once.** In every run of an instance whose steps meet the condition, with stops of
the process anywhere it allows them, every event of a type is given to at most one wait, in the
order of sending, none is lost, and no wait is pending while an event of its type is in the
table. -/
theorem exactlyOnce_of_reaches (cfg : Config) (id : String) (params : Option Json) (now : ℕ)
    (hreach : Reaches (observe cfg id) (fun s a => deliversOnce cfg id s.world a = true)
      (Ledger.start cfg id params now) s) : ExactlyOnce s := by
  have hinv : Delivered id s :=
    hreach.invariant (delivered_start cfg id params now) fun _ _ _ hI hok hstep => hI.step hok hstep
  exact hinv.exact

/-- One event reaches a pending wait, another one is stored; after a stop the first wait is
replayed from its record and the second one finds its event in the table. -/
theorem exactlyOnce_of_replayed :
    ∃ s, Reaches (observe .defaults "a") (fun s a => deliversOnce .defaults "a" s.world a = true)
        (Ledger.start .defaults "a" none 0) s ∧
      s.served.map Prod.fst = [waitKey "w", waitKey "v"] ∧ ExactlyOnce s := by
  have hrun : (play (restrict (observe .defaults "a")
      fun s a => deliversOnce .defaults "a" s.world a = true) (Ledger.start .defaults "a" none 0)
      [.op (.call 0 (.waitForEvent "w" "go" none)), .op (.enter 0),
        .op (.sendEvent "a" "go" (some "1")), .op (.eventResume 0),
        .op (.sendEvent "a" "go" (some "2")), .crash [],
        .op (.call 0 (.waitForEvent "w" "go" none)), .op (.enter 0),
        .op (.call 0 (.waitForEvent "v" "go" none)), .op (.enter 1)]).any
      (fun s => s.served.map Prod.fst = [waitKey "w", waitKey "v"]) = true := by
    decide
  obtain ⟨s, hreach, hserved⟩ := exists_reaches_of_play hrun
  exact ⟨s, hreach, of_decide_eq_true hserved, exactlyOnce_of_reaches .defaults "a" none 0 hreach⟩

/-- Two waits of one type are pending at once; the second takes the place of the first in the
registry, and the second of two events goes into the table while the first wait is pending. -/
theorem not_exactlyOnce :
    ¬ ∀ s, Reaches (observe .defaults "a") unguarded (Ledger.start .defaults "a" none 0) s →
      ExactlyOnce s := by
  intro hall
  have hrun : (play (restrict (observe .defaults "a") unguarded)
      (Ledger.start .defaults "a" none 0)
      [.op (.call 0 (.waitForEvent "w" "go" none)), .op (.call 0 (.waitForEvent "v" "go" none)),
        .op (.enter 0), .op (.enter 1), .op (.sendEvent "a" "go" none),
        .op (.sendEvent "a" "go" none)]).any
      (fun s => (s.world.mem.calls.get? 0).any (fun x => x.instanceId = "a" && x.waitsIn 0 "go") &&
        s.world.db.eventsOf "a" "go" ≠ []) = true := by
    decide
  obtain ⟨s, hreach, hs⟩ := exists_reaches_of_play hrun
  simp only [Bool.and_eq_true, Option.any_eq_true, decide_eq_true_eq] at hs
  obtain ⟨⟨x, hk, hid, hx⟩, hne⟩ := hs
  exact hne (hid ▸ (hall s hreach).prompt 0 x 0 "go" hk hx)

end Lopata.Workflow
