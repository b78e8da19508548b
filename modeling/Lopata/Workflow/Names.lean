import Lopata.Workflow.Effects

/-!
# Names of Steps and Registered Waiters

Two invariants of the life of one instance. The calls that will record a step have names of
their own, which no row has. A pending wait is the waiter registered for its type, or the
registry has dropped it with its execution and the row is finished.

## Main results

* `Keyed`, `Keyed.step`: the names.
* `Registered`, `Registered.step`: the waiters, as long as no wait is registered over another
  one and none wakes a finished row under the pending waits of its execution.
-/

namespace Lopata.Workflow

variable {cfg : Config} {id : String} {w w' : World} {o : Op} {g : Seg} {k : ℕ} {x : Call}

/-! ### The conditions on a step -/

theorem World.starts_eq {name ty : String} {timeout : Option Duration}
    (hk : w.mem.calls.get? k = some x) (hx : x.susp = .entered)
    (hmethod : x.method = .waitForEvent name ty timeout) (hstarts : x.startsWaiting cfg w = true) :
    w.starts cfg k = some (x, ty, timeout) := by
  simp [World.starts, hk, hmethod, hx, hstarts]

theorem World.resumes_eq {name ty : String} {timeout : Option Duration} {payload : Option Json}
    {timestamp : Millis} (hk : w.mem.calls.get? k = some x)
    (hx : x.susp = .delivered payload timestamp)
    (hmethod : x.method = .waitForEvent name ty timeout) :
    w.resumes k = some ⟨x.instanceId, ty, payload, timestamp⟩ := by
  simp [World.resumes, hk, hmethod, hx]

/-- No wait is woken under a wait that was abandoned. -/
theorem not_abandons_of_wakes (hok : deliversOnce cfg id w (.op o) = true)
    (hwakes : wakes cfg w o ≠ none) : w.abandons id = false := by
  cases o with
  | enter k =>
    obtain ⟨id', hid'⟩ := Option.ne_none_iff_exists'.mp hwakes
    obtain ⟨x, hk, hx⟩ := Option.bind_eq_some_iff.mp hid'
    split at hx
    · next hsusp =>
        split at hx
        · next hstarts =>
            have hmethod : ∃ name ty timeout, x.method = .waitForEvent name ty timeout := by
              simp only [Call.startsWaiting] at hstarts
              split at hstarts
              · next hmethod => exact ⟨_, _, _, hmethod⟩
              · cases hstarts
            obtain ⟨name, ty, timeout, hmethod⟩ := hmethod
            simp only [deliversOnce, World.starts_eq hk hsusp hmethod hstarts,
              Bool.and_eq_true, Bool.not_eq_true'] at hok
            exact hok.1
        · cases hx
    · cases hx
  | eventResume k =>
    obtain ⟨id', hid'⟩ := Option.ne_none_iff_exists'.mp hwakes
    obtain ⟨x, hk, hx⟩ := Option.bind_eq_some_iff.mp hid'
    split at hx
    · next hmethod hsusp =>
        simp only [deliversOnce, World.resumes_eq hk hsusp hmethod, Bool.and_eq_true,
          Bool.not_eq_true'] at hok
        exact hok.1
    · cases hx
  | _ => exact absurd rfl hwakes

/-- An event that fits is recorded. -/
theorem recordEvent_of_fits {m : Memory} {before : List Stmt} {name : String} {e : EventRow}
    (hfits : e.fits cfg = true) (now : Millis) :
    recordEvent cfg m k x before name e.eventType e.payload e.createdAt now =
      Seg.settle m k
        (before ++ [.setStatus x.instanceId .running now] ++
          [.cacheStep x.instanceId (waitKey name) (some e.recorded) now])
        (.value e.recorded) := by
  have hle : ¬ cfg.limits.maxStepOutputBytes < e.recorded.serializedLength := by
    simpa [EventRow.fits] using hfits
  have hcache : cacheStep cfg x.instanceId (waitKey name) (some e.recorded) now =
      .ok [.cacheStep x.instanceId (waitKey name) (some e.recorded) now] := by
    simp [cacheStep, hle]
  simp only [recordEvent]
  rw [show Recorded.event e.payload e.createdAt e.eventType = e.recorded from rfl, hcache]

/-- The oldest event of a type. -/
theorem Db.firstEvent_spec {db : Db} {id ty : String} {e : EventRow}
    (h : db.firstEvent id ty = some e) : e.instanceId = id ∧ e.eventType = ty := by
  have hmem := List.mem_of_mem_head? (Option.mem_def.mpr h)
  simpa using (List.mem_filter.mp hmem).2

/-! ### Names -/

/-- The calls that will record their steps have passed the checks of their names, which differ
and have no row. -/
structure Keyed (w : World) : Prop where
  known : ∀ k x, w.mem.calls.get? k = some x → x.susp.recording = true →
    x.key ∈ w.mem.known x.run
  fresh : ∀ k x, w.mem.calls.get? k = some x → x.susp.recording = true →
    w.db.steps.get? (x.instanceId, x.key) = none
  distinct : ∀ k k' x x', w.mem.calls.get? k = some x → w.mem.calls.get? k' = some x' →
    x.susp.recording = true → x'.susp.recording = true → x.key = x'.key → k = k'

/-- Without calls. -/
theorem keyed_of_no_calls (h : ∀ k, w.mem.calls.get? k = none) : Keyed w where
  known k _ hk := nomatch (h k).symm.trans hk
  fresh k _ hk := nomatch (h k).symm.trans hk
  distinct k _ _ _ hk := nomatch (h k).symm.trans hk

/-- A call that owns its name shares it with no other call that will record its step. -/
theorem Keyed.key_ne (h : Keyed w) (hsolo : Solo id w) {k' : ℕ} {x' : Call}
    (hk : w.mem.calls.get? k = some x) (hk' : w.mem.calls.get? k' = some x')
    (hown : x.Owns w) (hrec : x'.susp.recording = true) (hne : k' ≠ k) : x'.key ≠ x.key := by
  intro hkey
  rcases hown with hx | ⟨-, hnew⟩
  · exact hne (h.distinct _ _ _ _ hk' hk hrec hx hkey)
  · have hknown := h.known k' x' hk' hrec
    rw [hkey, hsolo.same_run hk' hk] at hknown
    exact hnew hknown

/-- A name that is owned has no row. -/
theorem Keyed.fresh_of_owns (h : Keyed w) (hk : w.mem.calls.get? k = some x) (hown : x.Owns w) :
    w.db.steps.get? (x.instanceId, x.key) = none :=
  hown.elim (h.fresh k x hk) fun h => h.1

/-- What the statements of a call do, cut short or not. -/
theorem Keyed.noted (h : Keyed w) (hk : w.mem.calls.get? k = some x) (hnotes : g.Notes w x)
    (n : ℕ) : Noted x.instanceId x.key w.db (execAll w.db (g.stmts.take n)) := by
  rcases hnotes with hsilent | ⟨hown, hnotes⟩
  · obtain ⟨hevents, hsteps⟩ := execAll_silent w.db
      fun s hs => hsilent s (List.mem_of_mem_take hs)
    exact noted_of_same hevents hsteps
  · refine noted_of_notes ?_ fun s hs => hnotes s (List.mem_of_mem_take hs)
    intro row hrow
    rw [h.fresh_of_owns hk hown] at hrow
    cases hrow

/-- After a step the calls that will record are as before, or one of them is new and has
passed the checks; no row has appeared under their names. -/
theorem Keyed.of_calls (h : Keyed w) (hsolo : Solo id w)
    (hknown : ∀ c name, name ∈ w.mem.known c → name ∈ w'.mem.known c)
    (hcalls : ∀ k' x', w'.mem.calls.get? k' = some x' → x'.susp.recording = true →
      ∃ x₀, w.mem.calls.get? k' = some x₀ ∧ x'.method = x₀.method ∧ x'.run = x₀.run ∧
        x'.instanceId = x₀.instanceId ∧
        (x₀.susp.recording = true ∨ k' = k ∧ x₀.Admitted w w'.mem) ∧
        w'.db.steps.get? (x₀.instanceId, x₀.key) = w.db.steps.get? (x₀.instanceId, x₀.key)) :
    Keyed w' := by
  have hkey : ∀ {x' x₀ : Call}, x'.method = x₀.method → x'.key = x₀.key := by
    intro x' x₀ hmethod
    rw [Call.key, hmethod, Call.key]
  refine ⟨?_, ?_, ?_⟩
  · intro k' x' hk' hrec
    obtain ⟨x₀, hk₀, hmethod, hrun, -, hold | ⟨-, hadmitted⟩, -⟩ := hcalls k' x' hk' hrec
    · rw [hkey hmethod, hrun]
      exact hknown _ _ (h.known k' x₀ hk₀ hold)
    · rw [hkey hmethod, hrun]
      exact hadmitted.known
  · intro k' x' hk' hrec
    obtain ⟨x₀, hk₀, hmethod, -, hid, hor, hsteps⟩ := hcalls k' x' hk' hrec
    rw [hkey hmethod, hid, hsteps]
    exact hor.elim (h.fresh k' x₀ hk₀) fun h => h.2.fresh
  · intro k₁ k₂ x₁ x₂ hk₁ hk₂ hrec₁ hrec₂ heq
    obtain ⟨y₁, hy₁, hm₁, -, -, hor₁, -⟩ := hcalls k₁ x₁ hk₁ hrec₁
    obtain ⟨y₂, hy₂, hm₂, -, -, hor₂, -⟩ := hcalls k₂ x₂ hk₂ hrec₂
    rw [hkey hm₁, hkey hm₂] at heq
    by_contra hne
    rcases hor₁ with hrec₁ | ⟨rfl, had₁⟩
    · rcases hor₂ with hrec₂ | ⟨rfl, had₂⟩
      · exact hne (h.distinct _ _ _ _ hy₁ hy₂ hrec₁ hrec₂ heq)
      · exact h.key_ne hsolo hy₂ hy₁ (.inr ⟨had₂.fresh, had₂.new⟩) hrec₁ hne heq
    · rcases hor₂ with hrec₂ | ⟨rfl, -⟩
      · exact h.key_ne hsolo hy₁ hy₂ (.inr ⟨had₁.fresh, had₁.new⟩) hrec₂ (Ne.symm hne) heq.symm
      · exact hne rfl

/-- The calls after a wait is registered. -/
theorem registerWaiter_calls (m : Memory) (ty : String) (ms : Millis) (hid : x.instanceId = id) :
    (registerWaiter w m k x ty ms).calls = m.calls.modify k fun x =>
      { x with susp := .waiting (m.getWaitersForInstance id).1 (timerDue w.clock ms) } := by
  subst hid
  simp only [registerWaiter, Memory.suspend, Memory.calls_getWaitersForInstance]

/-- The names after a wait is registered. -/
theorem registerWaiter_known {m : Memory} {ty : String} {ms : Millis} (c : ℕ) :
    (registerWaiter w m k x ty ms).known c = m.known c := by
  simp only [registerWaiter, Memory.getWaitersForInstance]
  cases m.eventWaiters x.instanceId <;> rfl

/-- The statements of a call record nothing under the names of other calls. -/
theorem Keyed.steps_other (h : Keyed w) (hsolo : Solo id w) {k' : ℕ} {x' : Call}
    (hk : w.mem.calls.get? k = some x) (hnotes : g.Notes w x) (hk' : w.mem.calls.get? k' = some x')
    (hrec : x'.susp.recording = true) (hne : k' ≠ k) :
    (execAll w.db g.stmts).steps.get? (x'.instanceId, x'.key) =
      w.db.steps.get? (x'.instanceId, x'.key) := by
  rcases hnotes with hsilent | ⟨hown, hstmts⟩
  · rw [(execAll_silent _ hsilent).2]
  · have hnoted := h.noted hk (.inr ⟨hown, hstmts⟩) g.stmts.length
    rw [List.take_length] at hnoted
    refine hnoted.others _ ?_
    intro heq
    exact h.key_ne hsolo hk hk' hown hrec hne (Prod.mk.inj heq).2

/-- **The step lemma for names.** -/
theorem Keyed.step (h : Keyed w) (hsolo : Solo id w) (hok : deliversOnce cfg id w (.op o) = true)
    (he : Effect cfg w o g) : Keyed (w.after g) := by
  cases he with
  | idle _ hstmts hcalls hmem =>
    refine h.of_calls hsolo (k := 0) hmem.known ?_
    intro k' x' hk' hrec
    rw [World.after, hcalls] at hk'
    exact ⟨x', hk', rfl, rfl, rfl, .inl hrec, by rw [World.after, (execAll_silent _ hstmts).2]⟩
  | @called x _ _ hx hstmts hcalls hmem =>
    refine h.of_calls hsolo (k := 0) hmem.known ?_
    intro k' x' hk' hrec
    rw [World.after, hcalls] at hk'
    rcases Table.of_get?_insert hk' with ⟨-, rfl⟩ | ⟨-, hk'⟩
    · cases hx.symm.trans hrec
    · exact ⟨x', hk', rfl, rfl, rfl, .inl hrec, by rw [World.after, hstmts]; rfl⟩
  | @settles k x _ _ hk hx hstmts hcalls hmem =>
    refine h.of_calls hsolo (k := k) hmem.known ?_
    intro k' x' hk' hrec
    rw [World.after, hcalls] at hk'
    obtain ⟨hne, hk'⟩ := Table.of_get?_erase hk'
    exact ⟨x', hk', rfl, rfl, rfl, .inl hrec, h.steps_other hsolo hk hstmts hk' hrec hne⟩
  | @parked k x s _ _ hk hx hs hstmts hrecords hcalls hmem =>
    refine h.of_calls hsolo (k := k) hmem.known ?_
    intro k' x' hk' hrec
    rw [World.after, hcalls, Table.get?_modify] at hk'
    split at hk'
    · next heq =>
        subst heq
        rw [hk] at hk'
        obtain rfl := Option.some.inj hk'
        obtain ⟨hsilent, hor⟩ := hrecords hrec
        exact ⟨x, hk, rfl, rfl, rfl, hor.imp_right fun h => ⟨rfl, h⟩,
          by rw [World.after, (execAll_silent _ hsilent).2]⟩
    · next hne =>
        exact ⟨x', hk', rfl, rfl, rfl, .inl hrec, h.steps_other hsolo hk hstmts hk' hrec hne⟩
  | mail he =>
    cases he with
    | @timedOut k x map ty message hk hx =>
      refine h.of_calls hsolo (k := k) (fun _ _ hname => hname) ?_
      intro k' x' hk' hrec
      replace hk' : (w.mem.calls.erase k).get? k' = some x' := hk'
      obtain ⟨-, hk'⟩ := Table.of_get?_erase hk'
      exact ⟨x', hk', rfl, rfl, rfl, .inl hrec, rfl⟩
    | @took k x m name ty timeout e hk hx hmethod hstarts hfirst hm hmem hadmitted =>
      obtain ⟨hid, rfl⟩ := Db.firstEvent_spec hfirst
      have hfits : e.fits cfg = true := by
        simp only [deliversOnce, World.starts_eq hk hx hmethod hstarts, hfirst,
          Bool.and_eq_true] at hok
        exact hok.2
      have hkey : x.key = waitKey name := by rw [Call.key, hmethod]; rfl
      have hcalls : m.calls = w.mem.calls := by
        obtain ⟨i, rfl⟩ := hm
        rfl
      rw [recordEvent_of_fits hfits]
      refine h.of_calls hsolo (k := k) hmem.known ?_
      intro k' x' hk' hrec
      replace hk' : (m.calls.erase k).get? k' = some x' := hk'
      rw [hcalls] at hk'
      obtain ⟨hne, hk'⟩ := Table.of_get?_erase hk'
      have hkey' := h.key_ne hsolo hk hk' (.inr ⟨hadmitted.fresh, hadmitted.new⟩) hrec hne
      refine ⟨x', hk', rfl, rfl, rfl, .inl hrec, Table.get?_insert_of_ne _ _ ?_⟩
      rw [← hkey]
      exact fun heq => hkey' (Prod.mk.inj heq).2
    | @waits k x m name ty timeout ms hk hx hmethod hstarts hnone htimeout hm hmem hadmitted =>
      obtain ⟨i, rfl⟩ := hm
      refine h.of_calls hsolo (k := k) ?_ ?_
      · intro c name hname
        rw [World.after, registerWaiter_known]
        exact hmem.known c name hname
      · intro k' x' hk' hrec
        rw [World.after, registerWaiter_calls _ _ _ rfl, Table.get?_modify] at hk'
        split at hk'
        · next heq =>
            subst heq
            rw [hk] at hk'
            obtain rfl := Option.some.inj hk'
            refine ⟨x, hk, rfl, rfl, rfl, .inr ⟨rfl, hadmitted.new, ?_, hadmitted.fresh⟩, rfl⟩
            rw [World.after, registerWaiter_known]
            exact hadmitted.known
        · exact ⟨x', hk', rfl, rfl, rfl, .inl hrec, rfl⟩
    | @resumed k x name ty timeout payload timestamp hk hx hmethod =>
      let e : EventRow := ⟨x.instanceId, ty, payload, timestamp⟩
      have hfits : e.fits cfg = true := by
        simp only [deliversOnce, World.resumes_eq hk hx hmethod, Bool.and_eq_true] at hok
        exact hok.2
      have hkey : x.key = waitKey name := by rw [Call.key, hmethod]; rfl
      have hrecording : x.susp.recording = true := by rw [hx]; rfl
      rw [eventResume, recordEvent_of_fits (e := e) hfits]
      refine h.of_calls hsolo (k := k) (fun _ _ hname => hname) ?_
      intro k' x' hk' hrec
      replace hk' : (w.mem.calls.erase k).get? k' = some x' := hk'
      obtain ⟨hne, hk'⟩ := Table.of_get?_erase hk'
      have hkey' := h.key_ne hsolo hk hk' (.inl hrecording) hrec hne
      refine ⟨x', hk', rfl, rfl, rfl, .inl hrec, Table.get?_insert_of_ne _ _ ?_⟩
      rw [← hkey]
      exact fun heq => hkey' (Prod.mk.inj heq).2
    | @given id' ty payload map k x herr hwaiter hk hid hx =>
      obtain ⟨_, _, _, -, hsusp⟩ := Call.waitsIn_iff.mp hx
      have hrecording : x.susp.recording = true := by rw [hsusp]; rfl
      refine h.of_calls hsolo (k := k) (fun _ _ hname => hname) ?_
      intro k' x' hk' hrec
      replace hk' : (w.mem.calls.modify k fun x =>
        { x with susp := .delivered payload w.clock }).get? k' = some x' := hk'
      rw [Table.get?_modify] at hk'
      split at hk'
      · next heq =>
          subst heq
          rw [hk] at hk'
          obtain rfl := Option.some.inj hk'
          exact ⟨x, hk, rfl, rfl, rfl, .inl hrecording, rfl⟩
      · exact ⟨x', hk', rfl, rfl, rfl, .inl hrec, rfl⟩
    | posted herr hwaiter =>
      refine h.of_calls hsolo (k := 0) (fun _ _ hname => hname) ?_
      intro k' x' hk' hrec
      exact ⟨x', hk', rfl, rfl, rfl, .inl hrec, rfl⟩
    | ended hr hstmts hmem =>
      refine h.of_calls hsolo (k := 0) (fun c name hname => ?_) ?_
      · rw [World.after, hmem]
        exact hname
      · intro k' x' hk' hrec
        rw [World.after, hmem] at hk'
        exact ⟨x', hk', rfl, rfl, rfl, .inl hrec,
          by rw [World.after, (execAll_silent _ hstmts).2]⟩

/-! ### Segments that are not about events -/

/-- The segment touches no event and starts no wait. -/
structure Quiet (w : World) (o : Op) (g : Seg) : Prop where
  apart : o.Apart w
  given : ∀ k x p t, x.susp = .delivered p t →
    (g.mem.calls.get? k = some x ↔ w.mem.calls.get? k = some x)
  pending : ∀ k x map due, x.susp = .waiting map due → g.mem.calls.get? k = some x →
    w.mem.calls.get? k = some x
  noted : ∀ n, ∃ id key, Noted id key w.db (execAll w.db (g.stmts.take n))
  mute : ∀ s ∈ g.stmts, s.inserted = none ∧ ∀ db, s.removed db = none

theorem mute_of_silent {s : Stmt} (h : s.silent = true) :
    s.inserted = none ∧ ∀ db, s.removed db = none := by
  cases s <;> first | exact ⟨rfl, fun _ => rfl⟩ | cases h

theorem mute_of_notes {s : Stmt} {key : String} (h : s.notes id key = true) :
    s.inserted = none ∧ ∀ db, s.removed db = none := by
  cases s <;> first | exact ⟨rfl, fun _ => rfl⟩ | cases h

theorem Seg.Notes.mute (h : g.Notes w x) :
    ∀ s ∈ g.stmts, s.inserted = none ∧ ∀ db, s.removed db = none := by
  rcases h with hsilent | ⟨-, hnotes⟩
  · exact fun s hs => mute_of_silent (hsilent s hs)
  · exact fun s hs => mute_of_notes (hnotes s hs)

theorem noted_take_of_silent (h : ∀ s ∈ g.stmts, s.silent = true) (n : ℕ) :
    ∃ id key, Noted id key w.db (execAll w.db (g.stmts.take n)) := by
  obtain ⟨hevents, hsteps⟩ := execAll_silent w.db
    fun s hs => h s (List.mem_of_mem_take hs)
  exact ⟨"", "", noted_of_same hevents hsteps⟩

theorem Suspension.recording_of_inWait {s : Suspension} (h : s.inWait = true) :
    s.recording = true := by
  cases s <;> first | rfl | cases h

/-- Started waits are not touched when another call is removed or rewritten. -/
theorem Quiet.of_calls (hapart : o.Apart w)
    (hnoted : ∀ n, ∃ id key, Noted id key w.db (execAll w.db (g.stmts.take n)))
    (hmute : ∀ s ∈ g.stmts, s.inserted = none ∧ ∀ db, s.removed db = none)
    (hcalls : ∀ k x, x.susp.inWait = true →
      (g.mem.calls.get? k = some x ↔ w.mem.calls.get? k = some x)) : Quiet w o g where
  apart := hapart
  given k x p t hx := hcalls k x (by rw [hx]; rfl)
  pending k x map due hx := (hcalls k x (by rw [hx]; rfl)).mp
  noted := hnoted
  mute := hmute

/-- A segment is not about events, or it is one of the segments that are. -/
theorem Effect.quiet_or (h : Keyed w) (hsolo : Solo id w) (he : Effect cfg w o g) :
    Quiet w o g ∧ w.mem.Frame g.mem ∨ EventEffect cfg w o g := by
  cases he with
  | idle hapart hstmts hcalls hmem =>
    refine .inl ⟨.of_calls hapart (noted_take_of_silent hstmts)
      (fun s hs => mute_of_silent (hstmts s hs)) ?_, hmem⟩
    intro k x _
    rw [hcalls]
  | @called x₀ _ hapart hx₀ hstmts hcalls hmem =>
    refine .inl ⟨.of_calls hapart (noted_take_of_silent ?_) ?_ ?_, hmem⟩
    · rw [hstmts]
      exact forall_mem_nil_kind
    · rw [hstmts]
      intro s hs
      cases hs
    · intro k x hx
      rw [hcalls, Table.get?_insert]
      split
      · next hk =>
          subst hk
          constructor
          · intro heq
            obtain rfl := Option.some.inj heq
            cases hx₀.symm.trans (Suspension.recording_of_inWait hx)
          · intro hnext
            exact absurd (hsolo.coherent.linked.fresh _ _ hnext) (lt_irrefl _)
      · exact Iff.rfl
  | @settles k₀ x₀ _ hapart hk₀ hx₀ hstmts hcalls hmem =>
    refine .inl ⟨.of_calls hapart (fun n => ⟨_, _, h.noted hk₀ hstmts n⟩) hstmts.mute ?_, hmem⟩
    intro k x hx
    rw [hcalls, Table.get?_erase]
    split
    · next hk =>
        subst hk
        constructor
        · exact fun heq => by cases heq
        · intro heq
          rw [hk₀, Option.some.injEq] at heq
          subst heq
          cases hx₀.symm.trans hx
    · exact Iff.rfl
  | @parked k₀ x₀ s _ hapart hk₀ hx₀ hs hstmts _ hcalls hmem =>
    refine .inl ⟨.of_calls hapart (fun n => ⟨_, _, h.noted hk₀ hstmts n⟩) hstmts.mute ?_, hmem⟩
    intro k x hx
    rw [hcalls, Table.get?_modify]
    split
    · next hk =>
        subst hk
        rw [hk₀, Option.map_some]
        constructor
        · intro heq
          obtain rfl := Option.some.inj heq
          cases hs.symm.trans hx
        · intro heq
          obtain rfl := Option.some.inj heq
          cases hx₀.symm.trans hx
    · exact Iff.rfl
  | mail he => exact .inr he

/-! ### Registered waiters -/

/-- A pending wait is the registered waiter of its type, or the registry has dropped it and the
row of the instance is finished. -/
structure Registered (id : String) (w : World) : Prop where
  waiter : ∀ k x map ty, w.mem.calls.get? k = some x → x.waitsIn map ty = true →
    w.mem.eventWaiters id = some map → (w.mem.waiterMaps map).get? ty = some k
  dropped : ∀ k x map due, w.mem.calls.get? k = some x → x.susp = .waiting map due →
    w.mem.eventWaiters id ≠ some map → ∃ s, w.db.status id = some s ∧ s.finished = true

theorem registered_of_no_calls (h : ∀ k, w.mem.calls.get? k = none) : Registered id w where
  waiter k _ _ _ hk := nomatch (h k).symm.trans hk
  dropped k _ _ _ hk := nomatch (h k).symm.trans hk

/-- A wait that was dropped counts as abandoned. -/
theorem abandons_of_dropped (hsolo : Solo id w) {map : ℕ} {due : Millis}
    (hk : w.mem.calls.get? k = some x) (hx : x.susp = .waiting map due)
    (hne : w.mem.eventWaiters id ≠ some map) : w.abandons id = true := by
  refine List.any_eq_true.mpr ⟨(k, x), Table.mem_of_get? hk, ?_⟩
  simp [hx, hsolo.instanceId hk, hne]

theorem awaits_of_waitsIn {map : ℕ} {ty : String} (hid : x.instanceId = id)
    (hk : w.mem.calls.get? k = some x) (hx : x.waitsIn map ty = true) : w.awaits id ty = true := by
  obtain ⟨name, timeout, due, hmethod, hsusp⟩ := Call.waitsIn_iff.mp hx
  refine List.any_eq_true.mpr ⟨(k, x), Table.mem_of_get? hk, ?_⟩
  simp [hmethod, hsusp, hid]

/-- While a dropped wait is pending the row stays finished. -/
theorem Registered.finished (h : Registered id w) (hsolo : Solo id w)
    (hwithin : o.within id = true) (hok : deliversOnce cfg id w (.op o) = true)
    (hg : segment cfg w o = some g) {map : ℕ} {due : Millis} (hk : w.mem.calls.get? k = some x)
    (hx : x.susp = .waiting map due) (hne : w.mem.eventWaiters id ≠ some map) :
    ∃ s, (w.after g).db.status id = some s ∧ s.finished = true := by
  obtain ⟨s, hs, hfin⟩ := h.dropped k x map due hk hx hne
  have hwakes : wakes cfg w o = none := by
    by_contra hwakes
    cases (abandons_of_dropped hsolo hk hx hne).symm.trans
      (not_abandons_of_wakes hok hwakes)
  refine hsolo.finished_step hwithin hwakes ?_ hs hfin
  simp only [act, hg, Option.map_some]

/-- The waiters of the pending waits are the same, and no wait is new. -/
theorem Registered.of_maps (h : Registered id w) (hsolo : Solo id w)
    (hwithin : o.within id = true) (hok : deliversOnce cfg id w (.op o) = true)
    (hg : segment cfg w o = some g) (hwaiters : g.mem.eventWaiters = w.mem.eventWaiters)
    (hpending : ∀ k x map due, x.susp = .waiting map due → g.mem.calls.get? k = some x →
      w.mem.calls.get? k = some x)
    (hmaps : ∀ k x map ty, g.mem.calls.get? k = some x → x.waitsIn map ty = true →
      w.mem.eventWaiters id = some map →
      (g.mem.waiterMaps map).get? ty = (w.mem.waiterMaps map).get? ty) :
    Registered id (w.after g) where
  waiter k x map ty hk hx hmap := by
    obtain ⟨_, _, _, -, hsusp⟩ := Call.waitsIn_iff.mp hx
    rw [World.after, hwaiters] at hmap
    rw [World.after, hmaps k x map ty hk hx hmap]
    exact h.waiter k x map ty (hpending k x _ _ hsusp hk) hx hmap
  dropped k x map due hk hx hne := by
    rw [World.after, hwaiters] at hne
    exact h.finished hsolo hwithin hok hg (hpending k x map due hx hk) hx hne

theorem Memory.get?_deleteWaiter (m : Memory) (map map' : ℕ) (ty ty' : String) :
    ((m.deleteWaiter map ty).waiterMaps map').get? ty' =
      if map' = map ∧ ty' = ty then none else (m.waiterMaps map').get? ty' := by
  simp only [Memory.deleteWaiter, Function.update_apply]
  by_cases hmap : map' = map
  · subst hmap
    simp [Table.get?_erase]
  · simp [hmap]

/-- Removing the waiter of one wait leaves those of the others. -/
theorem Registered.get?_deleteWaiter (h : Registered id w) {map : ℕ} {ty : String}
    (hk : w.mem.calls.get? k = some x) (hx : x.waitsIn map ty = true) {k' : ℕ} {x' : Call}
    {map' : ℕ} {ty' : String} (hk' : w.mem.calls.get? k' = some x')
    (hx' : x'.waitsIn map' ty' = true) (hmap : w.mem.eventWaiters id = some map')
    (hne : k' ≠ k) :
    ((w.mem.deleteWaiter map ty).waiterMaps map').get? ty' = (w.mem.waiterMaps map').get? ty' := by
  rw [Memory.get?_deleteWaiter]
  split
  · next heq =>
      obtain ⟨rfl, rfl⟩ := heq
      have hself := h.waiter k' x' map' ty' hk' hx' hmap
      rw [h.waiter k x map' ty' hk hx hmap, Option.some.injEq] at hself
      exact absurd hself.symm hne
  · rfl

/-- The waiter map after a wait is registered: the registered map is that of the instance, and
among its entries only that of the type has changed. -/
theorem registerWaiter_maps {m : Memory} (hm : ∃ i, m = { w.mem with impls := i })
    (hid : x.instanceId = id) (ty : String) (ms : Millis) :
    let map₀ := (m.getWaitersForInstance id).1
    (registerWaiter w m k x ty ms).eventWaiters id = some map₀ ∧
      ((registerWaiter w m k x ty ms).waiterMaps map₀).get? ty = some k ∧
      (w.mem.eventWaiters id = some map₀ ∧ (∀ ty', ty' ≠ ty →
          ((registerWaiter w m k x ty ms).waiterMaps map₀).get? ty' =
            (w.mem.waiterMaps map₀).get? ty') ∨
        w.mem.eventWaiters id = none ∧ map₀ = w.mem.nextMap) := by
  obtain ⟨i, rfl⟩ := hm
  subst hid
  simp only [registerWaiter, Memory.getWaitersForInstance]
  cases hw : w.mem.eventWaiters x.instanceId with
  | some map =>
    simp only [Function.update_self, Table.get?_insert_self, true_and, reduceCtorEq, false_and,
      or_false, Memory.suspend, hw]
    intro ty' hne
    exact Table.get?_insert_of_ne _ _ hne
  | none =>
    simp [Memory.suspend]

/-- **The step lemma for waiters.** -/
theorem Registered.step (h : Registered id w) (hsolo : Solo id w) (hkeyed : Keyed w)
    (hwithin : o.within id = true) (hok : deliversOnce cfg id w (.op o) = true)
    (hg : segment cfg w o = some g) : Registered id (w.after g) := by
  have herase : ∀ {k k' : ℕ} {x' : Call}, (w.mem.calls.erase k).get? k' = some x' →
      k' ≠ k ∧ w.mem.calls.get? k' = some x' := by
    intro k k' x' hk'
    exact Table.of_get?_erase hk'
  rcases (effect_of_segment hsolo hwithin hg).quiet_or hkeyed hsolo with ⟨hquiet, hmem⟩ | he
  · exact h.of_maps hsolo hwithin hok hg hmem.waiters hquiet.pending fun _ _ _ _ _ _ _ => by
      rw [hmem.maps]
  · cases he with
    | @timedOut k x map ty message hk hx =>
      refine h.of_maps hsolo hwithin hok hg rfl ?_ ?_
      · intro k' x' _ _ _ hk'
        exact (herase hk').2
      · intro k' x' map' ty' hk' hx' hmap
        obtain ⟨hne, hk'⟩ := herase hk'
        exact h.get?_deleteWaiter hk hx hk' hx' hmap hne
    | @took k x m name ty timeout e hk hx hmethod hstarts hfirst hm hmem hadmitted =>
      have hcalls : m.calls = w.mem.calls := by
        obtain ⟨i, rfl⟩ := hm
        rfl
      have hsettle : (recordEvent cfg m k x (takeStmts w x.instanceId ty) name ty e.payload
          e.createdAt w.clock).mem = m.settle k := by
        simp only [recordEvent]
        split <;> rfl
      refine h.of_maps hsolo hwithin hok hg ?_ ?_ ?_
      · rw [hsettle]
        exact hmem.waiters
      · intro k' x' _ _ _ hk'
        rw [hsettle, Memory.settle, hcalls] at hk'
        exact (herase hk').2
      · intro k' x' map' ty' _ _ _
        rw [hsettle, Memory.settle, hmem.maps]
    | @waits k x m name ty timeout ms hk hx hmethod hstarts hnone htimeout hm hmem hadmitted =>
      have hid := hsolo.instanceId hk
      have hguard : w.abandons id = false ∧ w.awaits id ty = false := by
        simp only [deliversOnce, World.starts_eq hk hx hmethod hstarts, hnone, htimeout,
          Bool.and_eq_true, Bool.or_eq_true, Bool.not_eq_true'] at hok
        refine ⟨hok.1, hok.2.resolve_left ?_⟩
        exact fun h => by cases h
      obtain ⟨hmap, hself, hothers⟩ :=
        registerWaiter_maps (w := w) (k := k) hm hid ty ms
      have hcalls := registerWaiter_calls (w := w) (k := k) m ty ms hid
      have hm' : m.calls = w.mem.calls := by
        obtain ⟨i, rfl⟩ := hm
        rfl
      generalize (m.getWaitersForInstance id).1 = map₀ at hmap hself hothers hcalls
      have hcases : ∀ {k' x'},
          (registerWaiter w m k x ty ms).calls.get? k' = some x' →
          (k' = k ∧ x'.method = x.method ∧ ∃ due, x'.susp = .waiting map₀ due) ∨
            (k' ≠ k ∧ w.mem.calls.get? k' = some x') := by
        intro k' x' hk'
        rw [hcalls, hm', Table.get?_modify] at hk'
        split at hk'
        · next heq =>
            subst heq
            rw [hk] at hk'
            obtain rfl := Option.some.inj hk'
            exact .inl ⟨rfl, rfl, _, rfl⟩
        · next hne => exact .inr ⟨hne, hk'⟩
      refine ⟨?_, ?_⟩
      · intro k' x' map ty' hk' hx' hmap'
        obtain ⟨name', timeout', due, hmethod', hsusp⟩ := Call.waitsIn_iff.mp hx'
        obtain rfl : map₀ = map := Option.some.inj (hmap.symm.trans hmap')
        rcases hcases hk' with ⟨rfl, hsame, -⟩ | ⟨hne, hold⟩
        · rw [hsame, hmethod] at hmethod'
          obtain ⟨-, rfl, -⟩ := StepCall.waitForEvent.inj hmethod'
          exact hself
        · rcases hothers with ⟨hmap₀, hothers⟩ | ⟨-, rfl⟩
          · have hty : ty' ≠ ty := by
              rintro rfl
              cases hguard.2.symm.trans
                (awaits_of_waitsIn (hsolo.instanceId hold) hold hx')
            rw [World.after, hothers ty' hty]
            exact h.waiter k' x' map₀ ty' hold hx' hmap₀
          · exact absurd (hsolo.coherent.linked.waiting k' x' _ _ hold hsusp) (lt_irrefl _)
      · intro k' x' map due hk' hx' hne
        rcases hcases hk' with ⟨-, -, due', hsusp⟩ | ⟨-, hold⟩
        · rw [hx'] at hsusp
          obtain ⟨rfl, -⟩ := Suspension.waiting.inj hsusp
          exact absurd hmap hne
        · have hne' : w.mem.eventWaiters id ≠ some map := by
            rcases hothers with ⟨hmap₀, -⟩ | ⟨hnone, -⟩
            · rw [hmap₀, ← hmap]
              exact hne
            · rw [hnone]
              exact fun heq => by cases heq
          cases hguard.1.symm.trans (abandons_of_dropped hsolo hold hx' hne')
    | @resumed k x name ty timeout payload timestamp hk hx hmethod =>
      have hsettle : (eventResume cfg w k x name ty payload timestamp).mem =
          w.mem.settle k := by
        simp only [eventResume, recordEvent]
        split <;> rfl
      refine h.of_maps hsolo hwithin hok hg ?_ ?_ ?_
      · rw [hsettle]
        rfl
      · intro k' x' _ _ _ hk'
        rw [hsettle] at hk'
        exact (herase hk').2
      · intro k' x' map' ty' _ _ _
        rw [hsettle]
        rfl
    | @given id' ty payload map k x herr hwaiter hk hid hx =>
      have hne : ∀ {k' x' map' due}, x'.susp = .waiting map' due →
          ((w.mem.deleteWaiter map ty).suspend k (.delivered payload w.clock)).calls.get? k' =
            some x' → k' ≠ k ∧ w.mem.calls.get? k' = some x' := by
        intro k' x' map' due hx' hk'
        simp only [Memory.suspend, Memory.deleteWaiter, Table.get?_modify] at hk'
        split at hk'
        · next heq =>
            subst heq
            rw [hk] at hk'
            obtain rfl := Option.some.inj hk'
            cases hx'
        · next hne => exact ⟨hne, hk'⟩
      refine h.of_maps hsolo hwithin hok hg rfl ?_ ?_
      · intro k' x' _ _ hx' hk'
        exact (hne hx' hk').2
      · intro k' x' map' ty' hk' hx' hmap
        obtain ⟨_, _, _, -, hsusp⟩ := Call.waitsIn_iff.mp hx'
        obtain ⟨hkne, hk'⟩ := hne hsusp hk'
        exact h.get?_deleteWaiter hk hx hk' hx' hmap hkne
    | posted herr hwaiter =>
      exact h.of_maps hsolo hwithin hok hg rfl (fun _ _ _ _ _ hk => hk) fun _ _ _ _ _ _ _ => rfl
    | @ended c r _ hr hstmts hmem =>
      have hrid := hsolo.run c r hr
      have hnone : g.mem.eventWaiters id = none := by
        rw [hmem, Memory.finish, hrid]
        exact Function.update_self ..
      have hact : act cfg w (.op (.runEnds c)) = some (w.after g) := by
        simp only [act, hg, Option.map_some]
      refine ⟨?_, ?_⟩
      · intro k x map ty _ _ hmap
        cases hnone.symm.trans hmap
      · intro k x map due _ _ _
        exact hsolo.finished_of_ended hact

end Lopata.Workflow
