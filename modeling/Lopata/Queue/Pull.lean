import Lopata.Queue.Store

/-!
# The Pull Consumer

`QueuePullConsumer`: `pull` leases due messages and returns them, `ack` settles messages through
their leases. The writes of a call run in one transaction, so an error leaves the tables as they
were before it, except for the expired leases `pull` has deleted.

## Main definitions

* `pull`, `ack`: the two methods.

## Main results

* `leaseRow_ok`: what one turn of `pull` does.
* `tame_pull`, `tame_ack`: neither makes a settled message pending.
* `mem_validRows_of_pull`: what `pull` returns.
-/

namespace Lopata.Queue

/-- `PullRequest`. -/
structure PullRequest where
  batchSize : Option ℤ := none
  visibilityTimeoutMs : Option ℤ := none
  deriving DecidableEq, Repr

/-- `PullMessage`. -/
structure PullMessage (V : Type) where
  leaseId : String
  id : String
  timestamp : ℤ
  body : V
  attempts : ℕ

/-- `AckRequest`: lease ids, those of the retries with their `delay_seconds`. -/
structure AckRequest where
  acks : Option (List String) := none
  retries : Option (List (String × Option ℤ)) := none
  deriving DecidableEq, Repr

variable {V : Type}

/-- One turn of the loop of `pull`: lease the row, count an attempt, decode the body. -/
def leaseRow (rt : Codec V) (queue : String) (expiresAt : ℤ) (uuid : ℕ → String)
    (s : Db × List (PullMessage V)) (p : (String × Message) × ℕ) :
    Except String (Db × List (PullMessage V)) :=
  match s.1.insertLease (uuid p.2) ⟨p.1.1, queue, expiresAt⟩ with
  | none => .error "UNIQUE constraint failed: queue_leases.lease_id"
  | some db =>
      match decodeBody rt p.1.2.body p.1.2.contentType with
      | .error e => .error e
      | .ok body =>
          .ok (db.update p.1.1 Message.claimed,
            s.2 ++ [⟨uuid p.2, p.1.1, p.1.2.createdAt, body, p.1.2.attempts + 1⟩])

/-- `validRows`: the rows `pull` leases. -/
def validRows (db : Db) (now : ℤ) (queue : String) (options : PullRequest) :
    List (String × Message) :=
  (db.pullable now queue (options.batchSize.getD 10)).filter fun p => p.2.contentType ≠ .v8

/-- `pull`; `uuid` are the lease ids it draws, in order. -/
def pull (rt : Codec V) (db : Db) (now : ℤ) (queue : String) (options : PullRequest)
    (uuid : ℕ → String) : Db × Except String (List (PullMessage V)) :=
  let db := db.deleteExpired now queue
  let expiresAt := now + options.visibilityTimeoutMs.getD 30000
  match (validRows db now queue options).zipIdx.foldlM (leaseRow rt queue expiresAt uuid)
      (db, []) with
  | .ok (db, messages) => (db, .ok messages)
  -- the transaction is rolled back
  | .error e => (db, .error e)

/-- One turn of the first loop of `ack`. -/
def ackLease (now : ℤ) (queue : String) (s : Db × ℕ) (leaseId : String) : Db × ℕ :=
  match s.1.findLease now leaseId queue with
  | none => s
  | some l => ((s.1.update l.messageId (·.acked now)).deleteLease leaseId, s.2 + 1)

/-- One turn of the second loop of `ack`. -/
def retryLease (now : ℤ) (queue : String) (s : Db × ℕ) (p : String × Option ℤ) : Db × ℕ :=
  match s.1.findLease now p.1 queue with
  | none => s
  | some l =>
      ((s.1.update l.messageId (·.postponed (now + p.2.getD 0 * 1000))).deleteLease p.1, s.2 + 1)

/-- `ack`: the tables and the numbers of acked and retried messages. -/
def ack (db : Db) (now : ℤ) (queue : String) (request : AckRequest) : Db × ℕ × ℕ :=
  let (db, acked) := (request.acks.getD []).foldl (ackLease now queue) (db, 0)
  let (db, retried) := (request.retries.getD []).foldl (retryLease now queue) (db, 0)
  (db, acked, retried)

/-! ### What a call does to the messages -/

section Messages

variable {rt : Codec V} {db : Db} {now expiresAt : ℤ} {queue : String} {uuid : ℕ → String}
  {s s' : Db × List (PullMessage V)} {p : (String × Message) × ℕ}

/-- One turn of `pull` leases its row under a fresh lease id and returns it. -/
theorem leaseRow_ok (h : leaseRow rt queue expiresAt uuid s p = .ok s') :
    ∃ db x, s.1.insertLease (uuid p.2) ⟨p.1.1, queue, expiresAt⟩ = some db ∧
      s'.1 = db.update p.1.1 Message.claimed ∧ s'.2 = s.2 ++ [x] ∧ x.id = p.1.1 ∧
      x.leaseId = uuid p.2 := by
  simp only [leaseRow] at h
  cases hlease : s.1.insertLease (uuid p.2) ⟨p.1.1, queue, expiresAt⟩ with
  | none =>
    rw [hlease] at h
    cases h
  | some db =>
    rw [hlease] at h
    cases hbody : decodeBody rt p.1.2.body p.1.2.contentType with
    | error e =>
      rw [hbody] at h
      cases h
    | ok body =>
      rw [hbody] at h
      obtain rfl := Except.ok.inj h
      exact ⟨db, _, rfl, rfl, rfl, rfl, rfl⟩

/-- A lease is inserted under an id that is free. -/
theorem insertLease_eq_some {db' : Db} {leaseId : String} {l : Lease}
    (h : db.insertLease leaseId l = some db') :
    db.leases.get? leaseId = none ∧
      db' = { db with leases := db.leases.insert leaseId l } := by
  simp only [Db.insertLease] at h
  cases hfree : db.leases.get? leaseId with
  | some _ =>
    rw [hfree] at h
    cases h
  | none =>
    rw [hfree] at h
    exact ⟨rfl, (Option.some.inj h).symm⟩

theorem tame_leaseRow (h : leaseRow rt queue expiresAt uuid s p = .ok s') : Tame s.1 s'.1 := by
  obtain ⟨db, x, hlease, hdb, -, -, -⟩ := leaseRow_ok h
  obtain ⟨-, hinsert⟩ := insertLease_eq_some hlease
  have hmessages : Tame s.1 db := tame_of_messages_eq (by rw [hinsert])
  rw [hdb]
  exact hmessages.trans tame_claimed

/-- What every turn of the loop of `pull` keeps, the loop keeps. -/
theorem foldlM_leaseRow {P : Db × List (PullMessage V) → Prop}
    {rows : List ((String × Message) × ℕ)} (hs : P s)
    (hkeep : ∀ s s', ∀ p ∈ rows, P s → leaseRow rt queue expiresAt uuid s p = .ok s' → P s')
    (h : rows.foldlM (leaseRow rt queue expiresAt uuid) s = .ok s') : P s' := by
  induction rows generalizing s with
  | nil =>
    obtain rfl := Except.ok.inj h
    exact hs
  | cons p rows ih =>
    rw [List.foldlM_cons] at h
    cases hturn : leaseRow rt queue expiresAt uuid s p with
    | error e =>
      rw [hturn] at h
      cases h
    | ok t =>
      rw [hturn] at h
      refine ih (hkeep s t p List.mem_cons_self hs hturn) ?_ h
      exact fun s s' p hp => hkeep s s' p (List.mem_cons_of_mem _ hp)

/-- A call of `pull` leases all its rows or none. -/
theorem pull_cases (rt : Codec V) (db : Db) (now : ℤ) (queue : String) (options : PullRequest)
    (uuid : ℕ → String) :
    (∃ s, (validRows (db.deleteExpired now queue) now queue options).zipIdx.foldlM
        (leaseRow rt queue (now + options.visibilityTimeoutMs.getD 30000) uuid)
        (db.deleteExpired now queue, []) = .ok s ∧
      pull rt db now queue options uuid = (s.1, .ok s.2)) ∨
    ∃ e, pull rt db now queue options uuid = (db.deleteExpired now queue, .error e) := by
  rw [pull]
  cases (validRows (db.deleteExpired now queue) now queue options).zipIdx.foldlM
    (leaseRow rt queue (now + options.visibilityTimeoutMs.getD 30000) uuid)
    (db.deleteExpired now queue, []) with
  | ok s => exact .inl ⟨s, rfl, rfl⟩
  | error e => exact .inr ⟨e, rfl⟩

theorem tame_pull (options : PullRequest) :
    Tame db (pull rt db now queue options uuid).1 := by
  have hexpired : Tame db (db.deleteExpired now queue) := tame_of_messages_eq rfl
  rcases pull_cases rt db now queue options uuid with ⟨s, hrows, hpull⟩ | ⟨e, hpull⟩
  · rw [hpull]
    exact hexpired.trans (foldlM_leaseRow (P := fun s => Tame (db.deleteExpired now queue) s.1)
      (Tame.refl _) (fun _ _ _ _ hs hturn => hs.trans (tame_leaseRow hturn)) hrows)
  · rw [hpull]
    exact hexpired

/-- What `pull` returns are rows its query found. -/
theorem mem_validRows_of_pull {options : PullRequest} {messages : List (PullMessage V)}
    {x : PullMessage V} (h : (pull rt db now queue options uuid).2 = .ok messages)
    (hx : x ∈ messages) :
    ∃ m, (x.id, m) ∈ validRows (db.deleteExpired now queue) now queue options := by
  rcases pull_cases rt db now queue options uuid with ⟨s, hrows, hpull⟩ | ⟨e, hpull⟩
  · rw [hpull] at h
    obtain rfl := Except.ok.inj h
    refine foldlM_leaseRow (P := fun s => ∀ x ∈ s.2,
      ∃ m, (x.id, m) ∈ validRows (db.deleteExpired now queue) now queue options) ?_ ?_ hrows x hx
    · exact fun x hx => nomatch hx
    · intro s s' p hp hs hturn x hx
      obtain ⟨_, y, -, -, hs', hid, -⟩ := leaseRow_ok hturn
      rw [hs'] at hx
      rcases List.mem_append.mp hx with hx | hx
      · exact hs x hx
      · obtain rfl := List.mem_singleton.mp hx
        exact ⟨p.1.2, hid ▸ List.fst_mem_of_mem_zipIdx hp⟩
  · rw [hpull] at h
    cases h

theorem tame_ackLease (s : Db × ℕ) (leaseId : String) :
    Tame s.1 (ackLease now queue s leaseId).1 := by
  simp only [ackLease]
  split
  · exact Tame.refl _
  · exact tame_acked.trans (tame_of_messages_eq rfl)

theorem tame_retryLease (s : Db × ℕ) (p : String × Option ℤ) :
    Tame s.1 (retryLease now queue s p).1 := by
  simp only [retryLease]
  split
  · exact Tame.refl _
  · exact tame_postponed.trans (tame_of_messages_eq rfl)

/-- A loop of tame turns is tame. -/
theorem tame_foldl {α : Type} {f : Db × ℕ → α → Db × ℕ} (hf : ∀ s a, Tame s.1 (f s a).1)
    (l : List α) (s : Db × ℕ) : Tame s.1 (l.foldl f s).1 := by
  induction l generalizing s with
  | nil => exact Tame.refl _
  | cons a l ih => exact (hf s a).trans (ih _)

theorem tame_ack (request : AckRequest) : Tame db (ack db now queue request).1 :=
  (tame_foldl tame_ackLease _ (db, 0)).trans (tame_foldl tame_retryLease _ (_, 0))

end Messages

end Lopata.Queue
