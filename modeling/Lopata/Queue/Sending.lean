import Lopata.Queue.Store

/-!
# A Batch and Its Messages One by One

`sendBatch` checks and encodes all its messages before it inserts the first one, and inserts them in
one transaction. `send` checks, encodes and inserts one message.

## Main definitions

* `Producer.sendTo`, `Producer.sendBatchTo`: the two methods, run on the tables.
* `Producer.sendEach`: the messages of a batch, sent one after the other.

## Main results

* `sendBatchTo_cases`: a batch is stored like its messages one by one, or not at all.
-/

namespace Lopata.Queue

variable {V : Type}

namespace Producer

variable (p : Producer) (rt : Codec V) (now : ℤ)

/-- `send` on the tables; `id` is what `randomUUIDv7` draws. -/
def sendTo (db : Db) (message : V) (options : SendOptions) (id : String) : Db × Except String Unit :=
  match p.send now rt message options with
  | .error e => (db, .error e)
  | .ok m =>
      match db.insertMessage id m with
      | none => (db, .error "UNIQUE constraint failed: queue_messages.id")
      | some db => (db, .ok ())

/-- `sendBatch` on the tables; `uuid` are the ids it draws, in order. -/
def sendBatchTo (db : Db) (messages : List (BatchMessage V)) (options : SendOptions)
    (uuid : ℕ → String) : Db × Except String Unit :=
  match p.sendBatch now rt messages options with
  | .error e => (db, .error e)
  | .ok rows =>
      match db.insertMessages (rows.zipIdx.map fun r => (uuid r.2, r.1)) with
      -- the transaction is rolled back
      | none => (db, .error "UNIQUE constraint failed: queue_messages.id")
      | some db => (db, .ok ())

/-- The options a message of a batch has: its own, then those of the batch. -/
def optionsOf (options : SendOptions) (msg : BatchMessage V) : SendOptions where
  contentType := msg.options.contentType.or options.contentType
  delaySeconds := msg.options.delaySeconds.or options.delaySeconds

/-- One call of `send` for each message, up to the first that throws; the ids are those from `k`
on. -/
def sendEach (options : SendOptions) (uuid : ℕ → String) :
    Db → List (BatchMessage V) → ℕ → Db × Except String Unit
  | db, [], _ => (db, .ok ())
  | db, msg :: messages, k =>
      match p.sendTo rt now db msg.body (optionsOf options msg) (uuid k) with
      | (db, .ok ()) => sendEach options uuid db messages (k + 1)
      | (db, .error e) => (db, .error e)

variable {p rt now} {options : SendOptions} {uuid : ℕ → String} {messages : List (BatchMessage V)}
  {rows : List Message} {db db' : Db} {k : ℕ}

/-- The rows of a batch are the rows of its messages. -/
theorem send_of_sendBatch (h : p.sendBatch now rt messages options = .ok rows) :
    List.Forall₂ (fun msg m => p.send now rt msg.body (optionsOf options msg) = .ok m)
      messages rows := by
  have hrows : messages.mapM (fun msg => p.send now rt msg.body (optionsOf options msg)) =
      .ok rows := by
    simp only [sendBatch, bind, Except.bind] at h
    split at h
    · cases h
    · cases henc : messages.mapM (fun msg => p.send now rt msg.body (optionsOf options msg)) with
      | error e =>
        simp only [send, optionsOf] at henc
        rw [henc] at h
        cases h
      | ok encoded =>
        simp only [send, optionsOf] at henc
        rw [henc] at h
        dsimp only at h
        split at h
        · cases h
        · exact h
  clear h
  induction messages generalizing rows with
  | nil =>
    obtain rfl := Except.ok.inj hrows
    exact .nil
  | cons msg messages ih =>
    rw [List.mapM_cons] at hrows
    cases hmsg : p.send now rt msg.body (optionsOf options msg) with
    | error e =>
      rw [hmsg] at hrows
      cases hrows
    | ok m =>
      rw [hmsg] at hrows
      cases hrest : messages.mapM
          (fun msg => p.send now rt msg.body (optionsOf options msg)) with
      | error e =>
        rw [hrest] at hrows
        cases hrows
      | ok rest =>
        rw [hrest] at hrows
        obtain rfl := Except.ok.inj hrows
        exact .cons hmsg (ih hrest)

/-- Inserting the rows of a batch is sending its messages one by one. -/
theorem sendEach_of_insertMessages
    (hrows : List.Forall₂ (fun msg m => p.send now rt msg.body (optionsOf options msg) = .ok m)
      messages rows)
    (h : db.insertMessages ((rows.zipIdx k).map fun r => (uuid r.2, r.1)) = some db') :
    p.sendEach rt now options uuid db messages k = (db', .ok ()) := by
  induction hrows generalizing db k with
  | nil =>
    obtain rfl := Option.some.inj h
    rfl
  | @cons msg m messages rows hmsg _ ih =>
    rw [List.zipIdx_cons, List.map_cons, Db.insertMessages] at h
    obtain ⟨db₁, hinsert, hrest⟩ := Option.bind_eq_some_iff.mp h
    rw [sendEach, sendTo, hmsg]
    simp only [hinsert]
    exact ih hrest

end Producer

/-- **A batch is atomic.** `sendBatch` throws and leaves the tables as they are, or it leaves them
as the calls of `send` for its messages do, all of which succeed. -/
theorem sendBatchTo_cases (p : Producer) (rt : Codec V) (now : ℤ) (db : Db)
    (messages : List (BatchMessage V)) (options : SendOptions) (uuid : ℕ → String) :
    (∃ e, p.sendBatchTo rt now db messages options uuid = (db, .error e)) ∨
      ∃ db', p.sendBatchTo rt now db messages options uuid = (db', .ok ()) ∧
        p.sendEach rt now options uuid db messages 0 = (db', .ok ()) := by
  rw [Producer.sendBatchTo]
  cases hbatch : p.sendBatch now rt messages options with
  | error e => exact .inl ⟨e, rfl⟩
  | ok rows =>
      cases hinsert : db.insertMessages (rows.zipIdx.map fun r => (uuid r.2, r.1)) with
      | none => exact .inl ⟨"UNIQUE constraint failed: queue_messages.id", by simp only [hinsert]⟩
      | some db' =>
          refine .inr ⟨db', by simp only [hinsert], ?_⟩
          exact Producer.sendEach_of_insertMessages (Producer.send_of_sendBatch hbatch) hinsert

end Lopata.Queue
