import Mathlib.Algebra.GroupWithZero.Nat
import Mathlib.Data.List.Basic
import Lopata.D1.Connection
import Lopata.Lib.Machine

/-!
# The Lock of a D1 Connection

Each call joins a chain of promises when it is issued: it waits for the promise of the call before
it, and resolves its own on every exit. A batch awaits each of its statements while it has an open
transaction; calls that are issued meanwhile wait.

## Main results

* `serial_of_step`: the settled calls come first, and have settled as if executed one by one.
* `serializable`: contents and results in every run, and that every call settles.
-/

namespace Lopata.D1

variable {C S V R : Type*}

/-- Where a call stands. -/
inductive Phase (V R : Type*)
  /-- In `acquireDbLock`. -/
  | waiting
  /-- In the loop of a batch. -/
  | batching (statements : List (Statement V)) (results : List (D1Result R))
  /-- A statement of the batch has failed. -/
  | failing (error : String)
  /-- It has settled and resolved its promise. -/
  | settled (outcome : Outcome V R)

def Phase.isSettled : Phase V R → Bool
  | .settled _ => true
  | _ => false

structure Ticket (V R : Type*) where
  call : Call V
  /-- The call whose promise it waits for; none is a promise that is resolved. -/
  ready : Option ℕ
  phase : Phase V R := .waiting

/-- The calls of a connection in the order in which they are issued. -/
structure State (C S V R : Type*) where
  conn : Conn C S
  tickets : List (Ticket V R) := []
  /-- `dbLocks.get(db)`: the call whose promise comes last in the chain. -/
  dbLocks : Option ℕ := none

/-- A call is issued; a call goes on to its next `await`, or to its end. -/
inductive Label (V : Type*)
  | issue (call : Call V)
  | proceed (n : ℕ)

namespace State

variable (db : Sqlite C S V R) (s : State C S V R)

def resolved (n : ℕ) : Bool := (s.tickets[n]?).any fun t => t.phase.isSettled

/-- What a call does once it has the lock. -/
def start (c : Conn C S) (call : Call V) : Phase V R × Conn C S :=
  match call with
  | .batch statements =>
      match c.begin db with
      | (.error e, c') => (.settled (.error e), c')
      | (.ok _, c') => (.batching statements [], c')
  | call => (.settled (perform db c call).1, (perform db c call).2)

/-- A piece of code without an `await`; `ready` is true if the promise it waits for is resolved. -/
def advance (ready : Bool) (t : Ticket V R) (c : Conn C S) : Option (Phase V R × Conn C S) :=
  match t.phase with
  | .waiting => if ready then some (start db c t.call) else none
  | .batching (stmt :: statements) results =>
      match c.allUnlocked db stmt with
      | (.error e, c') => some (.failing e, c')
      | (.ok result, c') => some (.batching statements (results ++ [result]), c')
  | .batching [] results =>
      some (.settled (c.finishBatch db (.ok results)).1, (c.finishBatch db (.ok results)).2)
  | .failing e => some (.settled (.error e), c.rollback)
  | .settled _ => none

def step : Label V → Option (State C S V R)
  | .issue call =>
      some { s with
        tickets := s.tickets ++ [{ call := call, ready := s.dbLocks }]
        dbLocks := some s.tickets.length }
  | .proceed n =>
      (s.tickets[n]?).bind fun t =>
        (advance db (t.ready.all s.resolved) t s.conn).map fun (phase, conn) =>
          { s with conn := conn, tickets := s.tickets.set n { t with phase := phase } }

end State

/-! ### The invariant -/

/-- What a call that has the lock still does. -/
def Ticket.finish (db : Sqlite C S V R) (t : Ticket V R) (c : Conn C S) : Outcome V R × Conn C S :=
  match t.phase with
  | .waiting => perform db c t.call
  | .batching statements results =>
      (Conn.members db statements results c).2.finishBatch db
        (Conn.members db statements results c).1
  | .failing e => (.error e, c.rollback)
  | .settled outcome => (outcome, c)

/-- From the connection `c₀` the tickets lead to the connection `c`: those that have settled come
first, each as if executed by itself; the next may have the lock; the others wait. -/
inductive Serial (db : Sqlite C S V R) : Conn C S → List (Ticket V R) → Conn C S → Prop
  | idle {c : Conn C S} : Serial db c [] c
  | settled {t : Ticket V R} {ts : List (Ticket V R)} {c₀ c₁ c : Conn C S} {outcome : Outcome V R}
      (hphase : t.phase = .settled outcome) (hperform : perform db c₀ t.call = (outcome, c₁))
      (hrest : Serial db c₁ ts c) : Serial db c₀ (t :: ts) c
  | running {t : Ticket V R} {ts : List (Ticket V R)} {c₀ c : Conn C S}
      (hphase : t.phase.isSettled = false) (hfinish : t.finish db c = perform db c₀ t.call)
      (hwait : t.phase = .waiting → c = c₀) (hdurable : c.durable = c₀.content)
      (hopen : ∀ statements results, t.phase = .batching statements results → c.saved.isSome)
      (hrest : ∀ u ∈ ts, u.phase = .waiting) : Serial db c₀ (t :: ts) c

variable {db : Sqlite C S V R} {c₀ c c' : Conn C S} {t : Ticket V R} {ts : List (Ticket V R)}
  {s s' : State C S V R}

/-- Calls that wait. -/
theorem Serial.of_waiting (h : c.saved = none) (hwait : ∀ u ∈ ts, u.phase = .waiting) :
    Serial db c ts c := by
  cases ts with
  | nil => exact .idle
  | cons t ts =>
    have ht := hwait t List.mem_cons_self
    refine .running ?_ ?_ (fun _ => rfl) ?_ ?_ fun u hu => hwait u (List.mem_cons_of_mem t hu)
    · rw [ht]
      rfl
    · rw [Ticket.finish, ht]
    · rw [Conn.durable, h]
      rfl
    · intro statements results hbatching
      cases ht.symm.trans hbatching

/-- **A call is issued.** -/
theorem Serial.issue (hserial : Serial db c₀ ts c) (h : c₀.saved = none)
    (ht : t.phase = .waiting) : Serial db c₀ (ts ++ [t]) c := by
  induction hserial with
  | idle => exact .of_waiting h fun u hu => List.mem_singleton.mp hu ▸ ht
  | @settled u _ c₀ _ _ _ hphase hperform _ ih =>
    refine .settled hphase hperform (ih ?_)
    have hsaved := (perform_grows db h u.call).1
    rwa [hperform] at hsaved
  | running hphase hfinish hwait hdurable hopen hrest =>
    refine .running hphase hfinish hwait hdurable hopen fun u hu => ?_
    rcases List.mem_append.mp hu with hu | hu
    · exact hrest u hu
    · exact List.mem_singleton.mp hu ▸ ht

variable (db) in
theorem start_finish (call : Call V) (ready : Option ℕ) :
    (⟨call, ready, (State.start db c call).1⟩ : Ticket V R).finish db (State.start db c call).2 =
      perform db c call := by
  cases call with
  | batch statements =>
    rw [State.start, perform, Conn.runBatch]
    rcases c.begin db with ⟨_ | _, c'⟩ <;> rfl
  | _ => rfl

/-- **The call that has the lock** goes on, and does what is left of it. -/
theorem advance_finish {ready : Bool} {phase : Phase V R}
    (hadvance : State.advance db ready t c = some (phase, c')) :
    ({ t with phase := phase } : Ticket V R).finish db c' = t.finish db c := by
  obtain ⟨call, before, old⟩ := t
  cases old with
  | waiting =>
    obtain ⟨-, hstart⟩ := Option.ite_none_right_eq_some.mp hadvance
    have hstart := Option.some.inj hstart
    have hfinish := start_finish db (c := c) call before
    rw [hstart] at hfinish
    exact hfinish
  | batching statements results =>
    cases statements with
    | nil =>
      cases hadvance
      rfl
    | cons stmt statements =>
      unfold State.advance at hadvance
      dsimp only at hadvance
      unfold Ticket.finish
      dsimp only
      rw [Conn.members]
      rcases hall : c.allUnlocked db stmt with ⟨_ | _, c₁⟩ <;> rw [hall] at hadvance <;>
        cases hadvance <;> rfl
  | failing e =>
    cases hadvance
    rfl
  | settled outcome => cases hadvance

/-- It leaves the file as it is until it has settled. -/
theorem advance_open {ready : Bool} {phase : Phase V R}
    (hopen : ∀ statements results, t.phase = .batching statements results → c.saved.isSome)
    (hadvance : State.advance db ready t c = some (phase, c')) :
    phase.isSettled = true ∨ (phase ≠ .waiting ∧ c'.durable = c.durable ∧
      ∀ statements results, phase = .batching statements results → c'.saved.isSome) := by
  obtain ⟨call, before, old⟩ := t
  cases old with
  | waiting =>
    obtain ⟨-, hstart⟩ := Option.ite_none_right_eq_some.mp hadvance
    have hstart := Option.some.inj hstart
    cases call with
    | batch statements =>
      unfold State.start Conn.begin at hstart
      dsimp only at hstart
      by_cases hsome : c.saved.isSome = true
      · rw [if_pos hsome] at hstart
        cases hstart
        exact .inl rfl
      · rw [if_neg hsome] at hstart
        have hnone : c.saved = none := by simpa using hsome
        cases hbegin : db.beginError c.content c.session with
        | some message =>
          rw [hbegin] at hstart
          cases hstart
          exact .inl rfl
        | none =>
          rw [hbegin] at hstart
          cases hstart
          refine .inr ⟨fun hfalse => (by cases hfalse), ?_, fun _ _ _ => rfl⟩
          rw [Conn.durable, Conn.durable, hnone]
          rfl
    | _ =>
      cases hstart
      exact .inl rfl
  | batching statements results =>
    cases statements with
    | nil =>
      cases hadvance
      exact .inl rfl
    | cons stmt statements =>
      have hsome := hopen _ _ rfl
      obtain ⟨hdurable, hok⟩ := members_cases db [stmt] results hsome
      unfold State.advance at hadvance
      dsimp only at hadvance
      rw [Conn.members] at hdurable hok
      rcases hall : c.allUnlocked db stmt with ⟨_ | result, c₁⟩ <;>
        rw [hall] at hadvance hdurable hok <;> cases hadvance
      · refine .inr ⟨fun hfalse => (by cases hfalse), hdurable, ?_⟩
        intro _ _ hfalse
        cases hfalse
      · refine .inr ⟨fun hfalse => (by cases hfalse), hdurable, fun _ _ _ => ?_⟩
        have hsaved : c'.saved = c.saved := (hok ⟨_, rfl⟩).1
        exact hsaved ▸ hsome
  | failing e =>
    cases hadvance
    exact .inl rfl
  | settled outcome => cases hadvance

/-- **A call goes on.** If it waited, the call before it has settled. -/
theorem Serial.advance {ready : Bool} {phase : Phase V R} {n : ℕ} (hserial : Serial db c₀ ts c)
    (h : c₀.saved = none) (hget : ts[n]? = some t)
    (hfirst : t.phase = .waiting → n ≠ 0 → ∃ u, ts[n - 1]? = some u ∧ u.phase.isSettled = true)
    (hadvance : State.advance db ready t c = some (phase, c')) :
    Serial db c₀ (ts.set n { t with phase := phase }) c' := by
  induction hserial generalizing n with
  | idle => cases hget
  | @settled u us c₀ c₁ c outcome hphase hperform hrest ih =>
    cases n with
    | zero =>
      obtain rfl := Option.some.inj hget
      unfold State.advance at hadvance
      rw [hphase] at hadvance
      cases hadvance
    | succ n =>
      have hsaved := (perform_grows db h u.call).1
      rw [hperform] at hsaved
      refine .settled hphase hperform (ih hsaved hget (fun hwaiting hne => ?_) hadvance)
      obtain ⟨v, hv, hsettled⟩ := hfirst hwaiting (Nat.succ_ne_zero n)
      obtain ⟨m, rfl⟩ := Nat.exists_eq_succ_of_ne_zero hne
      exact ⟨v, hv, hsettled⟩
  | @running u us c₀ c hphase hfinish hwait hdurable hopen hrest =>
    cases n with
    | zero =>
      obtain rfl := Option.some.inj hget
      have hfinish' := (advance_finish hadvance).trans hfinish
      cases phase with
      | settled outcome =>
        have hperform : perform db c₀ u.call = (outcome, c') := hfinish'.symm
        have hsaved := (perform_grows db h u.call).1
        rw [hperform] at hsaved
        exact .settled rfl hperform (.of_waiting hsaved hrest)
      | _ =>
        rcases advance_open hopen hadvance with hfalse | ⟨hne, hkept, hopen'⟩
        · cases hfalse
        · exact .running rfl hfinish' (fun hwaiting => absurd hwaiting hne)
            (hkept.trans hdurable) hopen' hrest
    | succ n =>
      -- A call behind the one that has the lock waits for a call that has not settled.
      have hwaiting := hrest t (List.mem_of_getElem? hget)
      obtain ⟨v, hv, hsettled⟩ := hfirst hwaiting (Nat.succ_ne_zero n)
      cases n with
      | zero =>
        obtain rfl := Option.some.inj hv
        cases hphase.symm.trans hsettled
      | succ n =>
        have hv := hrest v (List.mem_of_getElem? hv)
        rw [hv] at hsettled
        cases hsettled

/-- The promises are chained in the order of the calls. -/
structure Chained (s : State C S V R) : Prop where
  ready : ∀ n t, s.tickets[n]? = some t → t.ready = if n = 0 then none else some (n - 1)
  last : s.dbLocks = if s.tickets.length = 0 then none else some (s.tickets.length - 1)

theorem chained_of_step {a : Label V} (h : Chained s) (hstep : s.step db a = some s') :
    Chained s' := by
  cases a with
  | issue call =>
    obtain rfl := Option.some.inj hstep
    refine ⟨fun n t ht => ?_, ?_⟩
    · rcases Nat.lt_or_ge n s.tickets.length with hlt | hge
      · rw [List.getElem?_append_left hlt] at ht
        exact h.ready n t ht
      · rw [List.getElem?_append_right hge] at ht
        have hn : n = s.tickets.length := by
          have := (List.getElem?_eq_some_iff.mp ht).1
          simp only [List.length_singleton] at this
          omega
        rw [hn, Nat.sub_self] at ht
        obtain rfl := Option.some.inj ht
        rw [hn]
        exact h.last
    · simp
  | proceed n =>
    obtain ⟨t, ht, hmap⟩ := Option.bind_eq_some_iff.mp hstep
    obtain ⟨⟨phase, conn⟩, -, rfl⟩ := Option.map_eq_some_iff.mp hmap
    refine ⟨fun m u hu => ?_, ?_⟩
    · rw [List.getElem?_set] at hu
      split at hu
      · next heq =>
          subst heq
          split at hu
          · obtain rfl := Option.some.inj hu
            exact h.ready n t ht
          · cases hu
      · exact h.ready m u hu
    · simpa using h.last

/-- **One step** keeps the calls in order. -/
theorem serial_of_step {a : Label V} (hsaved : c₀.saved = none) (hchained : Chained s)
    (h : Serial db c₀ s.tickets s.conn) (hstep : s.step db a = some s') :
    Serial db c₀ s'.tickets s'.conn := by
  cases a with
  | issue call =>
    obtain rfl := Option.some.inj hstep
    exact h.issue hsaved rfl
  | proceed n =>
    obtain ⟨t, ht, hmap⟩ := Option.bind_eq_some_iff.mp hstep
    obtain ⟨⟨phase, conn⟩, hadvance, rfl⟩ := Option.map_eq_some_iff.mp hmap
    refine h.advance hsaved ht (fun hwaiting hne => ?_) hadvance
    unfold State.advance at hadvance
    rw [hwaiting] at hadvance
    obtain ⟨hready, -⟩ := Option.ite_none_right_eq_some.mp hadvance
    rw [hchained.ready n t ht, if_neg hne] at hready
    have hready : (s.tickets[n - 1]?).any (fun t => t.phase.isSettled) = true := hready
    cases hv : s.tickets[n - 1]? with
    | none =>
      rw [hv] at hready
      cases hready
    | some v =>
      rw [hv] at hready
      exact ⟨v, rfl, hready⟩

/-! ### Every call settles -/

/-- What is left of a call, in steps. -/
def Ticket.work (t : Ticket V R) : ℕ :=
  match t.phase with
  | .waiting =>
      match t.call with
      | .batch statements => statements.length + 3
      | _ => 1
  | .batching statements _ => statements.length + 2
  | .failing _ => 1
  | .settled _ => 0

def State.work (s : State C S V R) : ℕ := (s.tickets.map Ticket.work).sum

theorem advance_work {ready : Bool} {phase : Phase V R}
    (hadvance : State.advance db ready t c = some (phase, c')) :
    ({ t with phase := phase } : Ticket V R).work < t.work := by
  obtain ⟨call, before, old⟩ := t
  cases old with
  | waiting =>
    obtain ⟨-, hstart⟩ := Option.ite_none_right_eq_some.mp hadvance
    have hstart := Option.some.inj hstart
    cases call with
    | batch statements =>
      unfold State.start at hstart
      dsimp only at hstart
      rcases hbegin : c.begin db with ⟨_ | _, c₁⟩ <;> rw [hbegin] at hstart <;> cases hstart <;>
        simp [Ticket.work]
    | _ =>
      cases hstart
      exact Nat.zero_lt_one
  | batching statements results =>
    cases statements with
    | nil =>
      cases hadvance
      exact Nat.zero_lt_succ _
    | cons stmt statements =>
      unfold State.advance at hadvance
      dsimp only at hadvance
      rcases hall : c.allUnlocked db stmt with ⟨_ | _, c₁⟩ <;> rw [hall] at hadvance <;>
        cases hadvance <;> simp [Ticket.work]
  | failing e =>
    cases hadvance
    exact Nat.zero_lt_one
  | settled outcome => cases hadvance

theorem work_set {u : Ticket V R} {n : ℕ} (hget : ts[n]? = some t) (hlt : u.work < t.work) :
    ((ts.set n u).map Ticket.work).sum < (ts.map Ticket.work).sum := by
  induction ts generalizing n with
  | nil => cases hget
  | cons v ts ih =>
    cases n with
    | zero =>
      obtain rfl := Option.some.inj hget
      simp only [List.set_cons_zero, List.map_cons, List.sum_cons]
      omega
    | succ n =>
      have := ih hget
      simp only [List.set_cons_succ, List.map_cons, List.sum_cons]
      omega

theorem work_of_step {n : ℕ} (hstep : s.step db (.proceed n) = some s') : s'.work < s.work := by
  obtain ⟨t, ht, hmap⟩ := Option.bind_eq_some_iff.mp hstep
  obtain ⟨⟨phase, conn⟩, hadvance, rfl⟩ := Option.map_eq_some_iff.mp hmap
  exact work_set ht (advance_work hadvance)

variable (db) in
/-- A call can go on, unless it waits for a promise or has settled. -/
theorem exists_advance {ready : Bool} (hready : t.phase = .waiting → ready = true)
    (hphase : t.phase.isSettled = false) : (State.advance db ready t c).isSome = true := by
  obtain ⟨call, before, old⟩ := t
  cases old with
  | waiting =>
    unfold State.advance
    dsimp only
    rw [if_pos (hready rfl)]
    rfl
  | batching statements results =>
    cases statements with
    | nil => rfl
    | cons stmt statements =>
      unfold State.advance
      dsimp only
      rcases c.allUnlocked db stmt with ⟨_ | _, c₁⟩ <;> rfl
  | failing e => rfl
  | settled outcome => cases hphase

/-! ### Runs -/

/-- The calls of a run: `done` have settled, `rest` have not. -/
structure Serializable (db : Sqlite C S V R) (c₀ : Conn C S) (s : State C S V R)
    (done rest : List (Ticket V R)) : Prop where
  issued : s.tickets = done ++ rest
  /-- The results are those of the calls one after another. -/
  outcomes : done.map Ticket.phase =
    (sequential db c₀ (done.map Ticket.call)).1.map Phase.settled
  /-- So is the content of the file. -/
  content : s.conn.durable = (sequential db c₀ (done.map Ticket.call)).2.content
  /-- One call at most has the lock. -/
  pending : ∀ t ∈ rest, t.phase.isSettled = false
  waiting : ∀ t ∈ rest.tail, t.phase = .waiting
  /-- When none has it, the connection is as after the calls one after another. -/
  quiet : (∀ t ∈ rest, t.phase = .waiting) → s.conn = (sequential db c₀ (done.map Ticket.call)).2
  atomic : ∀ before statements after, done.map Ticket.call = before ++ .batch statements :: after →
    Atomic db (sequential db c₀ before).2 statements
  /-- What the file held after a call has been changed by statements only. -/
  survives : ∀ before after, done.map Ticket.call = before ++ after →
    Grows db (sequential db c₀ before).2.content s.conn.durable
  /-- The next call can go on. -/
  released : rest ≠ [] → (s.step db (.proceed done.length)).isSome = true

/-- The calls of a serial list, apart. -/
theorem Serial.split (hserial : Serial db c₀ ts c) (h : c₀.saved = none) :
    ∃ done rest, ts = done ++ rest ∧
      done.map Ticket.phase = (sequential db c₀ (done.map Ticket.call)).1.map Phase.settled ∧
      c.durable = (sequential db c₀ (done.map Ticket.call)).2.content ∧
      (∀ t ∈ rest, t.phase.isSettled = false) ∧ (∀ t ∈ rest.tail, t.phase = .waiting) ∧
      ((∀ t ∈ rest, t.phase = .waiting) → c = (sequential db c₀ (done.map Ticket.call)).2) := by
  induction hserial with
  | @idle c =>
    refine ⟨[], [], rfl, rfl, ?_, ?_, ?_, fun _ => rfl⟩
    · rw [Conn.durable, h]
      rfl
    · exact fun _ hfalse => by cases hfalse
    · exact fun _ hfalse => by cases hfalse
  | @settled u us c₀ c₁ c outcome hphase hperform _ ih =>
    have hsaved := (perform_grows db h u.call).1
    rw [hperform] at hsaved
    obtain ⟨done, rest, rfl, houtcomes, hcontent, hpending, hwaiting, hquiet⟩ := ih hsaved
    refine ⟨u :: done, rest, rfl, ?_, ?_, hpending, hwaiting, ?_⟩
    · rw [List.map_cons, List.map_cons, sequential, hperform, houtcomes, hphase]
      rfl
    · rw [List.map_cons, sequential, hperform]
      exact hcontent
    · rw [List.map_cons, sequential, hperform]
      exact hquiet
  | @running u us c₀ c hphase hfinish hwait hdurable hopen hrest =>
    refine ⟨[], u :: us, rfl, rfl, hdurable, ?_, hrest, ?_⟩
    · intro v hv
      rcases List.mem_cons.mp hv with rfl | hv
      · exact hphase
      · rw [hrest v hv]
        rfl
    · exact fun hall => hwait (hall u List.mem_cons_self)

theorem serial_of_reaches (hsaved : c₀.saved = none)
    (hrun : Reaches (State.step db) unguarded { conn := c₀ } s) :
    Chained s ∧ Serial db c₀ s.tickets s.conn := by
  refine hrun.invariant (I := fun s => Chained s ∧ Serial db c₀ s.tickets s.conn) ⟨⟨?_, rfl⟩, .idle⟩
    ?_
  · intro n t ht
    cases ht
  · rintro x a y ⟨hchained, hserial⟩ - hstep
    exact ⟨chained_of_step hchained hstep, serial_of_step hsaved hchained hserial hstep⟩

/-- The first call that has not settled can go on. -/
theorem released_of_split {done rest : List (Ticket V R)} (hchained : Chained s)
    (hissued : s.tickets = done ++ rest) (hdone : ∀ t ∈ done, t.phase.isSettled = true)
    (hpending : ∀ t ∈ rest, t.phase.isSettled = false) (hrest : rest ≠ []) :
    (s.step db (.proceed done.length)).isSome = true := by
  obtain ⟨t, rest, rfl⟩ := List.exists_cons_of_ne_nil hrest
  have hget : s.tickets[done.length]? = some t := by
    rw [hissued]
    simp
  have hready : t.ready.all s.resolved = true := by
    rw [hchained.ready _ t hget]
    split
    · rfl
    · next hne =>
        have hlt : done.length - 1 < done.length := by omega
        show s.resolved (done.length - 1) = true
        rw [State.resolved, hissued, List.getElem?_append_left hlt, List.getElem?_eq_getElem hlt]
        exact hdone _ (List.getElem_mem hlt)
  have hadvance := exists_advance db (c := s.conn) (t := t) (fun _ => hready)
    (hpending t List.mem_cons_self)
  obtain ⟨result, hresult⟩ := Option.isSome_iff_exists.mp hadvance
  unfold State.step
  dsimp only
  rw [hget, Option.bind_some, hresult]
  rfl

theorem serializable_of_reaches (hsaved : c₀.saved = none)
    (hrun : Reaches (State.step db) unguarded { conn := c₀ } s) :
    ∃ done rest, Serializable db c₀ s done rest := by
  obtain ⟨hchained, hserial⟩ := serial_of_reaches hsaved hrun
  obtain ⟨done, rest, hissued, houtcomes, hcontent, hpending, hwaiting, hquiet⟩ :=
    hserial.split hsaved
  refine ⟨done, rest, hissued, houtcomes, hcontent, hpending, hwaiting, hquiet, ?_, ?_, ?_⟩
  · exact fun before statements _ _ => batch_atomic (sequential_grows hsaved before).1 statements
  · intro before after hcalls
    rw [hcontent, hcalls, sequential_append]
    exact (sequential_grows (sequential_grows hsaved before).1 after).2
  · refine released_of_split hchained hissued (fun t ht => ?_) hpending
    have hmem := List.mem_map_of_mem (f := Ticket.phase) ht
    rw [houtcomes] at hmem
    obtain ⟨outcome, -, houtcome⟩ := List.mem_map.mp hmem
    rw [← houtcome]
    rfl

/-- Only calls that have been issued go on. -/
def Label.isProceed : Label V → Bool
  | .issue _ => false
  | .proceed _ => true

theorem work_of_play {as : List (Label V)} (has : ∀ a ∈ as, a.isProceed = true)
    (hplay : play (State.step db) s as = some s') : s'.work + as.length ≤ s.work := by
  induction as generalizing s with
  | nil =>
    obtain rfl := Option.some.inj hplay
    exact Nat.le_refl _
  | cons a as ih =>
    obtain ⟨m, hm, hplay⟩ := Option.bind_eq_some_iff.mp hplay
    have hrest := ih (fun b hb => has b (List.mem_cons_of_mem a hb)) hplay
    cases a with
    | issue call => cases has _ List.mem_cons_self
    | proceed n =>
      have := work_of_step hm
      rw [List.length_cons]
      omega

/-- **Serializability.** In every run, with calls issued at any time, the calls settle in the order
in which they are issued, and contents and results are those of the calls one after another.
Without further calls at most `work` steps are left, and when no step is possible all have
settled. -/
theorem serializable (db : Sqlite C S V R) {c₀ : Conn C S} (hsaved : c₀.saved = none)
    {s : State C S V R} (hrun : Reaches (State.step db) unguarded { conn := c₀ } s) :
    (∃ done rest, Serializable db c₀ s done rest) ∧
      (∀ as s', (∀ a ∈ as, a.isProceed = true) → play (State.step db) s as = some s' →
        as.length ≤ s.work) ∧
      ((∀ n, s.step db (.proceed n) = none) → ∀ t ∈ s.tickets, t.phase.isSettled = true) := by
  refine ⟨serializable_of_reaches hsaved hrun, ?_, ?_⟩
  · intro as s' has hplay
    have := work_of_play has hplay
    omega
  · intro hstuck t ht
    obtain ⟨done, rest, h⟩ := serializable_of_reaches hsaved hrun
    have hnil : rest = [] := by
      by_contra hne
      have hsome := h.released hne
      rw [hstuck] at hsome
      cases hsome
    have hmem : t ∈ done := by
      rw [h.issued, hnil, List.append_nil] at ht
      exact ht
    have hphase := List.mem_map_of_mem (f := Ticket.phase) hmem
    rw [h.outcomes] at hphase
    obtain ⟨outcome, -, houtcome⟩ := List.mem_map.mp hphase
    rw [← houtcome]
    rfl

/-- A table of numbers: `INSERT` appends one, other statements fail with `OR ROLLBACK`. -/
def numbers : Sqlite (List ℕ) Unit ℕ (List ℕ) where
  execute := fun _ stmt _ content _ =>
    if stmt.sql = "INSERT".toList then .done (content ++ stmt.params) () []
    else .rolledBack () "constraint failed"
  columnNames := fun _ _ => []
  beginError := fun _ _ => none
  commitError := fun _ _ => none
  changes := fun _ => 1
  lastInsertRowid := fun _ => 1
  pageCount := List.length
  pageSize := fun _ => 4096
  column := fun _ _ => none

/-- A batch that fails after its first statement, and a statement issued in between. -/
theorem serializable_overlap : ∃ s : State (List ℕ) Unit ℕ (List ℕ),
    Reaches (State.step numbers) unguarded { conn := { content := [], session := () } } s ∧
      s.conn.content = [2] ∧
        (∃ done rest, Serializable numbers { content := [], session := () } s done rest) ∧
          (∀ as s', (∀ a ∈ as, a.isProceed = true) → play (State.step numbers) s as = some s' →
            as.length ≤ s.work) ∧
          ((∀ n, s.step numbers (.proceed n) = none) →
            ∀ t ∈ s.tickets, t.phase.isSettled = true) := by
  have hrun : (play (restrict (State.step numbers) unguarded)
      { conn := { content := [], session := () } }
      [.issue (.batch [⟨"INSERT".toList, [1]⟩, ⟨"UPDATE".toList, []⟩]), .proceed 0, .proceed 0,
        .issue (.run ⟨"INSERT".toList, [2]⟩), .proceed 0, .proceed 0, .proceed 1]).any
      (fun s => decide (s.conn.content = [2])) = true := by decide
  obtain ⟨s, hs, hcontent⟩ := exists_reaches_of_play hrun
  exact ⟨s, hs, of_decide_eq_true hcontent, serializable numbers rfl hs⟩

end Lopata.D1
