import Lopata.DurableObject.Storage
import Lopata.Lib.Machine

/-!
# Transactions on a Shared Connection

`transaction()` queues on a lock of its connection, opens a real transaction, awaits its
closure and then commits or rolls back. The other methods run their statements at once and do
not look at the lock, so a write of another request or another object that arrives during the
closure runs inside the open transaction.

The lock is a chain of promises: a call waits for the promise of the call before it. Calls are
numbered in the order in which they joined the chain. A label is one uninterrupted piece of
code. The last two fields of the state are bookkeeping no step reads: the writes that were
reported as done, in the order in which they ran.

## Main results

* `Serial.step`: the lock keeps transactions apart, so a `BEGIN` never meets an open one.
* `durable_throughout_iff`: every write reported as done outside a transaction survives all
  rollbacks of a run exactly when each rollback finds no outside write to lose.
* `not_durable`: a write during the closure of a transaction that fails is lost.
-/

namespace Lopata.DurableObject

/-- The life of one `transaction()` call. -/
inductive Txn
  /-- Suspended in `acquireDbTxnLock`. -/
  | queued
  /-- `BEGIN` has run, the closure is pending. -/
  | active
  /-- The lock is released. -/
  | released
  deriving DecidableEq, Repr

/-- How the closure of a transaction ends. -/
inductive Outcome
  /-- Its promise resolves and `COMMIT` succeeds. -/
  | resolved
  /-- Its promise rejects. -/
  | rejected
  /-- Its promise resolves and `COMMIT` fails. -/
  | commitFails
  deriving DecidableEq, Repr

/-- Whose code calls a storage method. -/
inductive Origin
  /-- Code outside any `transaction()`. -/
  | outside
  /-- The closure of a transaction. -/
  | inside (txn : ℕ)
  deriving DecidableEq, Repr

/-- A database connection and the calls under way on it. -/
structure Connection where
  /-- The tables as a statement sees them. -/
  db : Db
  /-- The tables a rollback of the open transaction restores. -/
  opened : Option Db
  /-- The `transaction()` calls, in the order of the lock. -/
  txns : List Txn
  /-- The writes that count for good: outside ones and those of committed transactions. -/
  history : List (Obj × Write)
  /-- The writes since `BEGIN`, marked if they came from outside. -/
  pending : List (Bool × Obj × Write)

namespace Connection

/-- A connection as it is opened. -/
def init (db : Db) : Connection := ⟨db, none, [], [], []⟩

/-- The promise `acquireDbTxnLock` awaits is resolved. -/
def ready (c : Connection) (t : ℕ) : Bool :=
  t = 0 || c.txns[t - 1]? = some .released

/-- The outside writes since `BEGIN`. -/
def outside (c : Connection) : List (Obj × Write) :=
  (c.pending.filter Prod.fst).map Prod.snd

/-- A write that was reported as done is booked. -/
def book (c : Connection) (isOutside : Bool) (o : Obj) (w : Write) : Connection :=
  match c.opened with
  | none => { c with history := c.history ++ [(o, w)] }
  | some _ => { c with pending := c.pending ++ [(isOutside, o, w)] }

/-- A storage method that writes, called outside of `transaction()` or in a closure. -/
def write (c : Connection) (isOutside : Bool) (o : Obj) (w : Write) : Connection :=
  let (db, reply) := w.run o c.db
  if reply = .failed then { c with db } else { c with db }.book isOutside o w

/-- `transaction` when the lock is its own. -/
def begins (c : Connection) (t : ℕ) : Connection :=
  match c.opened with
  | none => { c with opened := some c.db, txns := c.txns.set t .active }
  -- BEGIN within a transaction is refused, the lock is released
  | some _ => { c with txns := c.txns.set t .released }

/-- `COMMIT` and the release of the lock. -/
def commit (c : Connection) (t : ℕ) : Connection :=
  { c with
    opened := none
    txns := c.txns.set t .released
    history := c.history ++ c.pending.map Prod.snd
    pending := [] }

/-- `ROLLBACK` and the release of the lock. -/
def rollback (c : Connection) (t : ℕ) : Connection :=
  { c with
    db := c.opened.getD c.db
    opened := none
    txns := c.txns.set t .released
    history := c.history ++ c.outside
    pending := [] }

/-- `transactionSync`: the writes of its callback, which throws or not. -/
def transactionSync (c : Connection) (ws : List (Obj × Write)) (throws : Bool) : Connection :=
  match c.opened with
  -- BEGIN IMMEDIATE within a transaction is refused
  | some _ => c
  | none =>
      if throws then c
      else
        { c with
          db := ws.foldl (fun db w => (w.2.run w.1 db).1) c.db
          history := c.history ++ ws.filter fun w => w.2.accepted }

end Connection

/-- One uninterrupted piece of code. -/
inductive StorageAction
  /-- A call of a storage method that writes. -/
  | write (origin : Origin) (o : Obj) (w : Write)
  /-- A call of `transaction`. -/
  | transaction
  /-- A transaction goes on after `acquireDbTxnLock`. -/
  | begins (txn : ℕ)
  /-- The closure of a transaction ends. -/
  | settles (txn : ℕ) (outcome : Outcome)
  /-- A call of `transactionSync`. -/
  | transactionSync (ws : List (Obj × Write)) (throws : Bool)
  deriving DecidableEq, Repr

/-- The step of a connection. -/
def storageStep (c : Connection) : StorageAction → Option Connection
  | .write .outside o w => some (c.write true o w)
  | .write (.inside t) o w =>
      if c.txns[t]? = some .active then some (c.write false o w) else none
  | .transaction => some { c with txns := c.txns ++ [.queued] }
  | .begins t =>
      if c.txns[t]? = some .queued ∧ c.ready t then some (c.begins t) else none
  | .settles t outcome =>
      if c.txns[t]? = some .active then
        some (if outcome = .resolved then c.commit t else c.rollback t)
      else none
  | .transactionSync ws throws => some (c.transactionSync ws throws)

/-! ### The lock -/

/-- What the lock guarantees: calls are served in order, one at a time. -/
structure Serial (c : Connection) : Prop where
  /-- A call that was served comes after calls that are over. -/
  served : ∀ (i j : ℕ) (txn : Txn), i < j → c.txns[j]? = some txn → txn ≠ .queued →
    c.txns[i]? = some .released
  /-- A transaction is open exactly while a closure is pending. -/
  open_iff : c.opened.isSome = true ↔ ∃ t : ℕ, c.txns[t]? = some .active

theorem serial_init (db : Db) : Serial (.init db) where
  served _ _ _ _ h := nomatch h
  open_iff := by
    constructor
    · exact nofun
    · rintro ⟨t, ht⟩
      cases ht

namespace Serial

variable {c c' : Connection}

/-- No two closures are pending. -/
theorem active_unique (h : Serial c) {i j : ℕ} (hi : c.txns[i]? = some .active)
    (hj : c.txns[j]? = some .active) : i = j := by
  rcases Nat.lt_trichotomy i j with hlt | heq | hgt
  · have := h.served i j .active hlt hj (by decide)
    rw [hi] at this
    cases this
  · exact heq
  · have := h.served j i .active hgt hi (by decide)
    rw [hj] at this
    cases this

/-- All calls before one whose turn it is are over. -/
theorem over_of_ready (h : Serial c) {i t : ℕ} (hready : c.ready t = true) (hit : i < t) :
    c.txns[i]? = some .released := by
  have hlast : t = 0 ∨ c.txns[t - 1]? = some .released := by
    simpa [Connection.ready] using hready
  have hprev : c.txns[t - 1]? = some .released := hlast.resolve_left (by omega)
  rcases Nat.lt_or_ge i (t - 1) with hlt | hge
  · exact h.served i (t - 1) .released hlt hprev (by decide)
  · obtain rfl : i = t - 1 := by omega
    exact hprev

/-- **Mutual exclusion.** A call whose turn it is finds no transaction open: its `BEGIN`
succeeds. -/
theorem opened_of_ready (h : Serial c) {t : ℕ} (hqueued : c.txns[t]? = some .queued)
    (hready : c.ready t = true) : c.opened = none := by
  rw [← Option.not_isSome_iff_eq_none, h.open_iff]
  rintro ⟨i, hi⟩
  rcases Nat.lt_trichotomy i t with hlt | rfl | hgt
  · have := h.over_of_ready hready hlt
    rw [hi] at this
    cases this
  · rw [hqueued] at hi
    cases hi
  · have := h.served t i .active hgt hi (by decide)
    rw [hqueued] at this
    cases this

/-- Steps that leave the calls and the transaction alone. -/
theorem congr (h : Serial c) (htxns : c'.txns = c.txns)
    (hopened : c'.opened = c.opened) : Serial c' where
  served := by
    rw [htxns]
    exact h.served
  open_iff := by
    rw [htxns, hopened]
    exact h.open_iff

end Serial

theorem Connection.txns_write (c : Connection) (isOutside : Bool) (o : Obj) (w : Write) :
    (c.write isOutside o w).txns = c.txns ∧ (c.write isOutside o w).opened = c.opened := by
  simp only [Connection.write, Connection.book]
  split
  · exact ⟨rfl, rfl⟩
  · split <;> exact ⟨rfl, rfl⟩

theorem Connection.txns_transactionSync (c : Connection) (ws : List (Obj × Write))
    (throws : Bool) : (c.transactionSync ws throws).txns = c.txns ∧
      (c.transactionSync ws throws).opened = c.opened := by
  simp only [Connection.transactionSync]
  split
  · exact ⟨rfl, rfl⟩
  · split <;> exact ⟨rfl, rfl⟩

namespace Serial

variable {c c' : Connection}

/-- One more call waits. -/
theorem enqueue (h : Serial c) : Serial { c with txns := c.txns ++ [.queued] } := by
  have hnew : ∀ {i : ℕ} {txn : Txn}, (c.txns ++ [.queued])[i]? = some txn → txn ≠ .queued →
      c.txns[i]? = some txn := by
    intro i txn hi hne
    rw [List.getElem?_append] at hi
    split at hi
    · exact hi
    · obtain rfl := List.mem_singleton.mp (List.mem_of_getElem? hi)
      exact absurd rfl hne
  have hold : ∀ {i : ℕ} {txn : Txn}, c.txns[i]? = some txn →
      (c.txns ++ [.queued])[i]? = some txn := by
    intro i txn hi
    obtain ⟨hlt, -⟩ := List.getElem?_eq_some_iff.mp hi
    exact (List.getElem?_append_left hlt).trans hi
  constructor
  · intro i j txn hij hj hne
    exact hold (h.served i j txn hij (hnew hj hne) hne)
  · refine h.open_iff.trans ⟨?_, ?_⟩
    · rintro ⟨t, ht⟩
      exact ⟨t, hold ht⟩
    · rintro ⟨t, ht⟩
      exact ⟨t, hnew ht (by decide)⟩

/-- The next call opens its transaction. -/
theorem begins (h : Serial c) {t : ℕ} (hqueued : c.txns[t]? = some .queued)
    (hready : c.ready t = true) : Serial (c.begins t) := by
  have hclosed := h.opened_of_ready hqueued hready
  have hset : (c.txns.set t .active)[t]? = some .active := by
    obtain ⟨hlt, -⟩ := List.getElem?_eq_some_iff.mp hqueued
    exact List.getElem?_set_self hlt
  rw [Connection.begins, hclosed]
  constructor
  · intro i j txn hij hj hne
    have hover : c.txns[i]? = some .released := by
      by_cases hjt : t = j
      · exact h.over_of_ready hready (hjt ▸ hij)
      · exact h.served i j txn hij ((List.getElem?_set_ne hjt).symm.trans hj) hne
    have hit : t ≠ i := by
      rintro rfl
      rw [hqueued] at hover
      cases hover
    exact (List.getElem?_set_ne hit).trans hover
  · exact ⟨fun _ => ⟨t, hset⟩, fun _ => rfl⟩

/-- The pending closure ends and the lock is released. -/
theorem release (h : Serial c) {t : ℕ} (hactive : c.txns[t]? = some .active)
    (htxns : c'.txns = c.txns.set t .released) (hclosed : c'.opened = none) : Serial c' := by
  have hset : (c.txns.set t .released)[t]? = some .released := by
    obtain ⟨hlt, -⟩ := List.getElem?_eq_some_iff.mp hactive
    exact List.getElem?_set_self hlt
  constructor
  · intro i j txn hij hj hne
    rw [htxns] at hj ⊢
    by_cases hit : t = i
    · exact hit ▸ hset
    · rw [List.getElem?_set_ne hit]
      by_cases hjt : t = j
      · exact h.served i t .active (hjt ▸ hij) hactive (by decide)
      · exact h.served i j txn hij ((List.getElem?_set_ne hjt).symm.trans hj) hne
  · rw [hclosed, htxns]
    refine ⟨nofun, ?_⟩
    rintro ⟨i, hi⟩
    by_cases hit : t = i
    · subst hit
      rw [hset] at hi
      cases hi
    · rw [List.getElem?_set_ne hit] at hi
      exact absurd (h.active_unique hactive hi) hit

/-- The lock keeps its guarantee whatever the calls do. -/
theorem step {a : StorageAction} (h : Serial c) (hstep : storageStep c a = some c') :
    Serial c' := by
  cases a with
  | write origin o w =>
    cases origin with
    | outside =>
      obtain rfl := Option.some.inj hstep
      exact h.congr (c.txns_write true o w).1 (c.txns_write true o w).2
    | inside t =>
      obtain ⟨-, rfl⟩ := Option.ite_some_none_eq_some.mp hstep
      exact h.congr (c.txns_write false o w).1 (c.txns_write false o w).2
  | transaction =>
    obtain rfl := Option.some.inj hstep
    exact h.enqueue
  | begins t =>
    obtain ⟨⟨hqueued, hready⟩, rfl⟩ := Option.ite_some_none_eq_some.mp hstep
    exact h.begins hqueued hready
  | settles t outcome =>
    obtain ⟨hactive, rfl⟩ := Option.ite_some_none_eq_some.mp hstep
    split <;> exact h.release hactive rfl rfl
  | transactionSync ws throws =>
    obtain rfl := Option.some.inj hstep
    exact h.congr (c.txns_transactionSync ws throws).1 (c.txns_transactionSync ws throws).2

end Serial

/-! ### What is never undone -/

/-- The contents after some accepted writes. -/
def replay (ws : List (Obj × Write)) (c : Contents) : Contents :=
  ws.foldl (fun c w => w.2.apply w.1 c) c

theorem replay_append (ws ws' : List (Obj × Write)) (c : Contents) :
    replay (ws ++ ws') c = replay ws' (replay ws c) :=
  List.foldl_append

/-- Running writes replays the accepted ones. -/
theorem contents_foldl_run (ws : List (Obj × Write)) (db : Db) :
    (ws.foldl (fun db w => (w.2.run w.1 db).1) db).contents =
      replay (ws.filter fun w => w.2.accepted) db.contents := by
  induction ws generalizing db with
  | nil => rfl
  | cons w ws ih =>
    rw [List.foldl_cons, ih, Write.contents_run, List.filter_cons]
    split <;> rfl

/-- Every write that was reported as done is in the tables, apart from those of transactions
that were rolled back: the contents are what those writes make of the first contents. -/
def Durable (db₀ : Db) (c : Connection) : Prop :=
  c.db.contents = replay (c.history ++ c.pending.map Prod.snd) db₀.contents

/-- What a rollback would restore, and that nothing is pending without a transaction. -/
structure Anchored (db₀ : Db) (c : Connection) : Prop where
  /-- Writes are pending only in a transaction. -/
  closed : c.opened = none → c.pending = []
  /-- The tables a rollback restores hold everything that counted for good at `BEGIN`. -/
  restored : ∀ db, c.opened = some db → db.contents = replay c.history db₀.contents

/-- The step is a rollback that has no outside write to lose: those since `BEGIN`, run on the
contents of that moment, change nothing. -/
def harmless (c : Connection) : StorageAction → Prop
  | .settles _ outcome => outcome ≠ .resolved → ∀ db, c.opened = some db →
      replay c.outside db.contents = db.contents
  | _ => True

variable {db₀ : Db} {c c' : Connection}

theorem durable_init (db : Db) : Durable db (.init db) := rfl

theorem anchored_init (db : Db) : Anchored db (.init db) := ⟨fun _ => rfl, nofun⟩

/-- A storage method keeps the first contents and everything booked in step. -/
theorem Durable.write (hdur : Durable db₀ c) (hanc : Anchored db₀ c) (isOutside : Bool) (o : Obj)
    (w : Write) : Durable db₀ (c.write isOutside o w) ∧ Anchored db₀ (c.write isOutside o w) := by
  have hcontents := w.contents_run o c.db
  have hreply := w.reply_run_eq_failed_iff o c.db
  simp only [Connection.write]
  split
  · next hfailed =>
      rw [hreply.mp hfailed] at hcontents
      exact ⟨hcontents.trans hdur, hanc.closed, hanc.restored⟩
  · next hdone =>
      have hacc : w.accepted = true := by
        rw [← Bool.not_eq_false]
        exact fun h => hdone (hreply.mpr h)
      rw [if_pos hacc] at hcontents
      cases hopen : c.opened with
      | none =>
        have hnone := hanc.closed hopen
        simp only [Connection.book]
        refine ⟨?_, fun _ => hnone, nofun⟩
        rw [Durable, hcontents, hdur, hnone]
        simp [replay]
      | some db =>
        simp only [Connection.book]
        refine ⟨?_, nofun, ?_⟩
        · rw [Durable, hcontents, hdur]
          simp [replay]
        · intro db' hdb'
          exact hanc.restored db' (hopen.trans hdb')

/-- What a transaction means to the bookkeeping: `BEGIN` anchors it, and every step but a
rollback keeps the books; a rollback keeps them exactly if it is harmless. -/
theorem Durable.step {a : StorageAction} (hdur : Durable db₀ c) (hanc : Anchored db₀ c)
    (hstep : storageStep c a = some c') :
    Anchored db₀ c' ∧ (Durable db₀ c' ↔ harmless c a) := by
  cases a with
  | write origin o w =>
    cases origin with
    | outside =>
      obtain rfl := Option.some.inj hstep
      obtain ⟨hdur', hanc'⟩ := hdur.write hanc true o w
      exact ⟨hanc', fun _ => trivial, fun _ => hdur'⟩
    | inside t =>
      obtain ⟨-, rfl⟩ := Option.ite_some_none_eq_some.mp hstep
      obtain ⟨hdur', hanc'⟩ := hdur.write hanc false o w
      exact ⟨hanc', fun _ => trivial, fun _ => hdur'⟩
  | transaction =>
    obtain rfl := Option.some.inj hstep
    exact ⟨⟨hanc.closed, hanc.restored⟩, fun _ => trivial, fun _ => hdur⟩
  | begins t =>
    obtain ⟨-, rfl⟩ := Option.ite_some_none_eq_some.mp hstep
    cases hopen : c.opened with
    | none =>
      have hnone := hanc.closed hopen
      have hnow : c.db.contents = replay c.history db₀.contents := by
        rw [hdur, hnone, List.map_nil, List.append_nil]
      simp only [Connection.begins, hopen]
      refine ⟨⟨nofun, ?_⟩, fun _ => trivial, fun _ => hdur⟩
      rintro db hdb
      obtain rfl := Option.some.inj hdb
      exact hnow
    | some db =>
      simp only [Connection.begins, hopen]
      refine ⟨⟨nofun, ?_⟩, fun _ => trivial, fun _ => hdur⟩
      intro db' hdb'
      exact hanc.restored db' (hopen.trans hdb')
  | settles t outcome =>
    obtain ⟨-, rfl⟩ := Option.ite_some_none_eq_some.mp hstep
    split
    · next hresolved =>
        refine ⟨⟨fun _ => rfl, nofun⟩, fun _ hne => absurd hresolved hne, fun _ => ?_⟩
        have hbooks : (c.commit t).history ++ (c.commit t).pending.map Prod.snd =
            c.history ++ c.pending.map Prod.snd := List.append_nil _
        rw [Durable, hbooks]
        exact hdur
    · next hne =>
        refine ⟨⟨fun _ => rfl, nofun⟩, ?_⟩
        cases hopen : c.opened with
        | none =>
          have hnone := hanc.closed hopen
          refine ⟨fun _ _ db hdb => ?_, fun _ => ?_⟩
          · rw [hopen] at hdb
            cases hdb
          · have hout : c.outside = [] := by rw [Connection.outside, hnone]; rfl
            rw [Durable, Connection.rollback, hopen, hout]
            simpa [Durable, hnone] using hdur
        | some db =>
          have hdb := hanc.restored db hopen
          have hback : (c.rollback t).db = db := by
            rw [Connection.rollback, hopen]
            rfl
          have hbooks : (c.rollback t).history ++ (c.rollback t).pending.map Prod.snd =
              c.history ++ c.outside := List.append_nil _
          rw [Durable, hback, hbooks, replay_append, ← hdb]
          constructor
          · rintro hsame - db' hdb'
            obtain rfl : db = db' := Option.some.inj (hopen.symm.trans hdb')
            exact hsame.symm
          · intro hok
            exact (hok hne db hopen).symm
  | transactionSync ws throws =>
    obtain rfl := Option.some.inj hstep
    cases hopen : c.opened with
    | some db =>
      simp only [Connection.transactionSync, hopen]
      exact ⟨hanc, fun _ => trivial, fun _ => hdur⟩
    | none =>
      have hnone := hanc.closed hopen
      simp only [Connection.transactionSync, hopen]
      split
      · exact ⟨hanc, fun _ => trivial, fun _ => hdur⟩
      · refine ⟨⟨fun _ => hnone, ?_⟩, fun _ => trivial, fun _ => ?_⟩
        · intro db hdb
          cases hdb
        · rw [Durable, contents_foldl_run, hdur, hnone]
          simp [replay_append]

/-! ### The results -/

/-- **Writes outside of transactions last.** In a run every write that was reported as done
outside a transaction is kept throughout exactly when every rollback is harmless. -/
theorem durable_throughout_iff (db₀ : Db) (as : List StorageAction) :
    Throughout storageStep (Durable db₀) (.init db₀) as ↔
      Along storageStep harmless (.init db₀) as :=
  throughout_iff_along (anchored_init db₀) (durable_init db₀)
    (fun _ _ _ hanc hdur hstep => (hdur.step hanc hstep).1)
    (fun _ _ _ hanc hdur hstep => (hdur.step hanc hstep).2)

/-- A put that runs while the closure of somebody else's transaction is pending. -/
def putDuringTransaction : List StorageAction :=
  [.transaction, .begins 0, .write .outside ⟨"Counter", "b"⟩ (.put "k" (some "1")),
    .settles 0 .rejected]

/-- The rollback takes the put with it. -/
theorem not_durable : ¬ ∀ c, Reaches storageStep unguarded (.init .empty) c →
    Durable .empty c := by
  intro hall
  have hrun : (play (restrict storageStep unguarded) (.init .empty) putDuringTransaction).any
      (fun c => c.db.contents.value ⟨"Counter", "b"⟩ "k" = none ∧ c.pending = [] ∧
        c.history = [(⟨"Counter", "b"⟩, .put "k" (some "1"))]) = true := by
    decide
  obtain ⟨c, hreach, hc⟩ := exists_reaches_of_play hrun
  obtain ⟨hnone, hpending, hhistory⟩ := of_decide_eq_true hc
  have hdur := hall c hreach
  rw [Durable, hpending, hhistory] at hdur
  have hvalue := congrArg (fun c => c.value ⟨"Counter", "b"⟩ "k") hdur
  rw [hnone] at hvalue
  exact absurd hvalue (by decide)

end Lopata.DurableObject
