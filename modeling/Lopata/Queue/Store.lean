import Lopata.Lib.Ranking
import Lopata.Lib.Table
import Mathlib.Algebra.GroupWithZero.Nat
import Mathlib.Data.Int.Notation

/-!
# The Queue Database

The tables `queue_messages` and `queue_leases` that `bindings/queue.ts` keeps in SQLite, the
statements it runs against them, the encoding of message bodies and the producer that inserts
messages.

Times and delays are integers, times in milliseconds. `JSON` and the text codecs belong to the
runtime and are the parameter `Codec`; a call that throws is an `Except.error` with its message.

## Main definitions

* `Db`: the tables; `Db.due`, `Db.pullable`: the two polling queries.
* `Message.acked`, `Message.failed`, `Message.movedTo`, `Message.postponed`, `Message.claimed`:
  the `UPDATE` statements on one message.
* `Producer.send`, `Producer.sendBatch`: the rows a producer inserts.
-/

namespace Lopata.Queue

/-- The contents of a `BLOB`. -/
abbrev Bytes := List UInt8

/-- The values of the `content_type` column; any other text is read as JSON. -/
inductive ContentType
  | json
  | text
  | bytes
  | v8
  | other (name : String)
  deriving DecidableEq, Repr

/-- The values of the `status` column. -/
inductive Status
  | pending
  | acked
  | failed
  deriving DecidableEq, Repr

/-! ### Bodies -/

/-- What the runtime makes of message bodies, for the values `V` of the program. -/
structure Codec (V : Type) where
  /-- The bytes of an `ArrayBuffer` or a view of one. -/
  view : V → Option Bytes
  /-- `new TextEncoder().encode(String(value))`. -/
  string : V → Except String Bytes
  /-- `new TextEncoder().encode(JSON.stringify(value))`. -/
  stringify : V → Except String Bytes
  /-- `raw.buffer.slice(...)`. -/
  slice : Bytes → V
  /-- `new TextDecoder().decode(raw)`. -/
  text : Bytes → V
  /-- `JSON.parse(new TextDecoder().decode(raw))`. -/
  parse : Bytes → Except String V

variable {V : Type}

/-- `encodeBody`. -/
def encodeBody (rt : Codec V) (message : V) : ContentType → Except String Bytes
  | .bytes =>
      match rt.view message with
      | some raw => .ok raw
      | none => .error "bytes content type requires ArrayBuffer or Uint8Array"
  | .text => rt.string message
  | .v8 | .json | .other _ => rt.stringify message

/-- `decodeBody`. -/
def decodeBody (rt : Codec V) (raw : Bytes) : ContentType → Except String V
  | .bytes => .ok (rt.slice raw)
  | .text => .ok (rt.text raw)
  | .v8 | .json | .other _ => rt.parse raw

/-! ### Rows -/

/-- A row of `queue_messages`, under its id. -/
structure Message where
  queue : String
  body : Bytes
  contentType : ContentType
  attempts : ℕ
  status : Status
  visibleAt : ℤ
  createdAt : ℤ
  completedAt : Option ℤ
  deriving DecidableEq, Repr

/-- A row of `queue_leases`, under its lease id. -/
structure Lease where
  messageId : String
  queue : String
  expiresAt : ℤ
  deriving DecidableEq, Repr

/-- The tables. -/
structure Db where
  messages : Table String Message
  leases : Table String Lease

namespace Message

variable (m : Message) (now : ℤ)

/-- `decodeBody` of the row does not throw. -/
def decodes (rt : Codec V) : Bool :=
  (decodeBody rt m.body m.contentType).isOk

/-- `queue = ? AND status = 'pending' AND visible_at <= ?`. -/
def due (queue : String) : Bool :=
  m.queue = queue && m.status = .pending && m.visibleAt ≤ now

/-- `SET attempts = attempts + 1`. -/
def claimed : Message := { m with attempts := m.attempts + 1 }

/-- `SET status = 'acked', completed_at = ?`. -/
def acked : Message := { m with status := .acked, completedAt := some now }

/-- `SET status = 'failed', completed_at = ?`. -/
def failed : Message := { m with status := .failed, completedAt := some now }

/-- `SET queue = ?, visible_at = ?, status = 'pending'`. -/
def movedTo (queue : String) : Message := { m with queue, visibleAt := now, status := .pending }

/-- `SET visible_at = ?`. -/
def postponed : Message := { m with visibleAt := now }

/-- The message will not be delivered any more. -/
def settled : Bool := m.status ≠ .pending

@[simp] theorem claimed_queue : m.claimed.queue = m.queue := rfl
@[simp] theorem claimed_status : m.claimed.status = m.status := rfl
@[simp] theorem claimed_visibleAt : m.claimed.visibleAt = m.visibleAt := rfl
@[simp] theorem claimed_attempts : m.claimed.attempts = m.attempts + 1 := rfl
@[simp] theorem acked_queue : (m.acked now).queue = m.queue := rfl
@[simp] theorem acked_status : (m.acked now).status = .acked := rfl
@[simp] theorem failed_queue : (m.failed now).queue = m.queue := rfl
@[simp] theorem failed_status : (m.failed now).status = .failed := rfl
@[simp] theorem postponed_queue : (m.postponed now).queue = m.queue := rfl
@[simp] theorem postponed_status : (m.postponed now).status = m.status := rfl
@[simp] theorem movedTo_queue (q : String) : (m.movedTo now q).queue = q := rfl
@[simp] theorem movedTo_status (q : String) : (m.movedTo now q).status = .pending := rfl

end Message

namespace Db

variable (db : Db) (id : String) (now : ℤ)

/-- The tables without rows. -/
def empty : Db := ⟨.empty, .empty⟩

/-- An `UPDATE queue_messages ... WHERE id = ?`. -/
def update (f : Message → Message) : Db :=
  { db with messages := db.messages.modify id f }

/-- `UPDATE queue_messages SET attempts = attempts + 1 WHERE id IN (...)`. -/
def claim (ids : List String) : Db :=
  { db with messages := db.messages.mapRows fun id m => if id ∈ ids then m.claimed else m }

/-- `DELETE FROM queue_messages WHERE queue = ? AND created_at < ?`. -/
def deleteCreatedBefore (queue : String) (time : ℤ) : Db :=
  { db with messages := db.messages.filter fun _ m => !(m.queue = queue && m.createdAt < time) }

/-- `INSERT INTO queue_messages`; the primary key refuses an id that is taken. -/
def insertMessage (m : Message) : Option Db :=
  match db.messages.get? id with
  | some _ => none
  | none => some { db with messages := db.messages.insert id m }

/-- The inserts of a batch, in one transaction. -/
def insertMessages : Db → List (String × Message) → Option Db
  | db, [] => some db
  | db, (id, m) :: rows => (db.insertMessage id m).bind fun db => insertMessages db rows

/-- `... WHERE queue = ? AND status = 'pending' AND visible_at <= ? ORDER BY visible_at LIMIT ?`. -/
def due (queue : String) (n : ℤ) : List (String × Message) :=
  firstBy (fun p => p.2.visibleAt) n (db.messages.rows.filter fun p => p.2.due now queue)

/-- `id IN (SELECT message_id FROM queue_leases WHERE queue = ? AND expires_at > ?)`. -/
def leased (queue : String) : Bool :=
  db.leases.rows.any fun p => p.2.messageId = id && p.2.queue = queue && now < p.2.expiresAt

/-- The query of `pull`: the due messages without an unexpired lease. -/
def pullable (queue : String) (n : ℤ) : List (String × Message) :=
  firstBy (fun p => p.2.visibleAt) n
    (db.messages.rows.filter fun p => p.2.due now queue && !db.leased p.1 now queue)

/-- `DELETE FROM queue_leases WHERE queue = ? AND expires_at <= ?`. -/
def deleteExpired (queue : String) : Db :=
  { db with leases := db.leases.filter fun _ l => !(l.queue = queue && l.expiresAt ≤ now) }

/-- `INSERT INTO queue_leases`; the primary key refuses an id that is taken. -/
def insertLease (leaseId : String) (l : Lease) : Option Db :=
  match db.leases.get? leaseId with
  | some _ => none
  | none => some { db with leases := db.leases.insert leaseId l }

/-- `SELECT message_id FROM queue_leases WHERE lease_id = ? AND queue = ? AND expires_at > ?`. -/
def findLease (leaseId queue : String) : Option Lease :=
  (db.leases.get? leaseId).filter fun l => l.queue = queue && now < l.expiresAt

/-- `DELETE FROM queue_leases WHERE lease_id = ?`. -/
def deleteLease (leaseId : String) : Db :=
  { db with leases := db.leases.erase leaseId }

end Db

/-! ### Lookups after a statement -/

section Lookups

variable {db db' : Db} {id id' queue : String} {now : ℤ} {m : Message}

@[simp] theorem get?_claim (ids : List String) :
    (db.claim ids).messages.get? id =
      (db.messages.get? id).map fun m => if id ∈ ids then m.claimed else m := by
  rw [Db.claim, Table.get?_mapRows]

@[simp] theorem get?_deleteCreatedBefore (time : ℤ) :
    (db.deleteCreatedBefore queue time).messages.get? id =
      (db.messages.get? id).filter fun m => !(m.queue = queue && m.createdAt < time) := by
  rw [Db.deleteCreatedBefore, Table.get?_filter]

theorem get?_update (f : Message → Message) :
    (db.update id' f).messages.get? id =
      if id = id' then (db.messages.get? id).map f else db.messages.get? id := by
  rw [Db.update, Table.get?_modify]

/-- An insert under a fresh id. -/
theorem get?_insertMessage (h : db.insertMessage id' m = some db') :
    db.messages.get? id' = none ∧
      ∀ id, db'.messages.get? id = if id = id' then some m else db.messages.get? id := by
  simp only [Db.insertMessage] at h
  cases hfree : db.messages.get? id' with
  | some _ =>
    rw [hfree] at h
    cases h
  | none =>
    rw [hfree] at h
    obtain rfl := Option.some.inj h
    exact ⟨rfl, Table.get?_insert _ _ _⟩

/-- A message the polling query finds is due, and it is in the table. -/
theorem Db.of_mem_due {n : ℤ} (h : (id, m) ∈ db.due now queue n) :
    db.messages.get? id = some m ∧ m.due now queue = true := by
  obtain ⟨hmem, hdue⟩ := List.mem_filter.mp (mem_of_mem_firstBy h)
  exact ⟨Table.mem_rows_iff.mp hmem, hdue⟩

/-- What is found by `pull` is due and not leased. -/
theorem Db.of_mem_pullable {n : ℤ} (h : (id, m) ∈ db.pullable now queue n) :
    db.messages.get? id = some m ∧ m.due now queue = true ∧ db.leased id now queue = false := by
  obtain ⟨hmem, hq⟩ := List.mem_filter.mp (mem_of_mem_firstBy h)
  obtain ⟨hdue, hfree⟩ := Bool.and_eq_true_iff.mp hq
  exact ⟨Table.mem_rows_iff.mp hmem, hdue, by simpa using hfree⟩

theorem Message.due_iff :
    m.due now queue = true ↔ m.queue = queue ∧ m.status = .pending ∧ m.visibleAt ≤ now := by
  simp [Message.due, and_assoc]

/-- The ids of the selected rows are distinct. -/
theorem nodup_ids_firstBy {t : Table String Message} {n : ℤ} (q : String × Message → Bool) :
    ((firstBy (fun p => p.2.visibleAt) n (t.rows.filter q)).map Prod.fst).Nodup := by
  have hrows : (t.rows.filter q).Nodup :=
    List.filter_sublist.nodup (List.Nodup.of_map _ t.nodup)
  refine (nodup_firstBy hrows).map_on ?_
  rintro ⟨id, m⟩ hm ⟨id', m'⟩ hm' (rfl : id = id')
  have hm := Table.mem_rows_iff.mp (List.mem_of_mem_filter (mem_of_mem_firstBy hm))
  have hm' := Table.mem_rows_iff.mp (List.mem_of_mem_filter (mem_of_mem_firstBy hm'))
  rw [Option.some.inj (hm.symm.trans hm')]

end Lookups

/-! ### Statements that leave a message where it is -/

/-- No message is added, moved to another queue or made pending, and no attempt is taken back. -/
structure Tame (db db' : Db) : Prop where
  row : ∀ id m', db'.messages.get? id = some m' → ∃ m, db.messages.get? id = some m ∧
    m'.queue = m.queue ∧ m.attempts ≤ m'.attempts ∧
      (m'.status = m.status ∨ m'.status = .acked)

section Tame

variable {db db' db'' : Db} {id : String} {now : ℤ}

theorem Tame.refl (db : Db) : Tame db db :=
  ⟨fun _ m hm => ⟨m, hm, rfl, le_rfl, .inl rfl⟩⟩

theorem Tame.trans (h : Tame db db') (h' : Tame db' db'') : Tame db db'' := by
  refine ⟨fun id m'' hm'' => ?_⟩
  obtain ⟨m', hm', hqueue', hle', hstatus'⟩ := h'.row id m'' hm''
  obtain ⟨m, hm, hqueue, hle, hstatus⟩ := h.row id m' hm'
  refine ⟨m, hm, hqueue'.trans hqueue, hle.trans hle', ?_⟩
  rcases hstatus' with heq | hacked
  · exact hstatus.imp heq.trans heq.trans
  · exact .inr hacked

theorem tame_of_messages_eq (h : db'.messages = db.messages) : Tame db db' :=
  ⟨fun _ m hm => ⟨m, h ▸ hm, rfl, le_rfl, .inl rfl⟩⟩

/-- Statements that keep or delete rows. -/
theorem tame_of_sub (h : ∀ id m, db'.messages.get? id = some m → db.messages.get? id = some m) :
    Tame db db' :=
  ⟨fun id m hm => ⟨m, h id m hm, rfl, le_rfl, .inl rfl⟩⟩

theorem tame_deleteCreatedBefore (queue : String) (time : ℤ) :
    Tame db (db.deleteCreatedBefore queue time) := by
  refine tame_of_sub fun id m hm => ?_
  rw [get?_deleteCreatedBefore, Option.filter_eq_some_iff] at hm
  exact hm.1

theorem tame_claim (ids : List String) : Tame db (db.claim ids) := by
  refine ⟨fun id m' hm' => ?_⟩
  rw [get?_claim] at hm'
  obtain ⟨m, hm, rfl⟩ := Option.map_eq_some_iff.mp hm'
  refine ⟨m, hm, ?_⟩
  split <;> simp

/-- An update of one row that is tame on the row. -/
theorem tame_update {f : Message → Message} (hqueue : ∀ m, (f m).queue = m.queue)
    (hattempts : ∀ m, m.attempts ≤ (f m).attempts)
    (hstatus : ∀ m, (f m).status = m.status ∨ (f m).status = .acked) :
    Tame db (db.update id f) := by
  refine ⟨fun id' m' hm' => ?_⟩
  rw [get?_update] at hm'
  split at hm'
  · obtain ⟨m, hm, rfl⟩ := Option.map_eq_some_iff.mp hm'
    exact ⟨m, hm, hqueue m, hattempts m, hstatus m⟩
  · exact ⟨m', hm', rfl, le_rfl, .inl rfl⟩

theorem tame_claimed : Tame db (db.update id Message.claimed) :=
  tame_update (fun _ => rfl) (fun _ => Nat.le_succ _) fun _ => .inl rfl

theorem tame_acked : Tame db (db.update id (·.acked now)) :=
  tame_update (fun _ => rfl) (fun _ => le_rfl) fun _ => .inr rfl

theorem tame_postponed : Tame db (db.update id (·.postponed now)) :=
  tame_update (fun _ => rfl) (fun _ => le_rfl) fun _ => .inl rfl

end Tame

/-! ### The producer -/

/-- `QueueLimits`, with `QUEUE_DEFAULTS`. -/
structure QueueLimits where
  maxMessageSize : ℕ := 128 * 1024
  maxBatchMessages : ℕ := 100
  maxBatchSize : ℕ := 256 * 1024
  maxDelaySeconds : ℤ := 43200
  deriving DecidableEq, Repr

/-- `SendOptions`. -/
structure SendOptions where
  contentType : Option ContentType := none
  delaySeconds : Option ℤ := none
  deriving DecidableEq, Repr

/-- `BatchMessage`. -/
structure BatchMessage (V : Type) where
  body : V
  options : SendOptions := {}

/-- `SqliteQueueProducer`. -/
structure Producer where
  queueName : String
  defaultDelay : ℤ := 0
  limits : QueueLimits := {}
  deriving DecidableEq, Repr

namespace Producer

variable (p : Producer) (now : ℤ)

/-- The checks and the row of one message: the same in `send` and in the loop of `sendBatch`. -/
def row (rt : Codec V) (message : V) (contentType : ContentType) (delaySeconds : ℤ) :
    Except String Message := do
  if delaySeconds < 0 ∨ p.limits.maxDelaySeconds < delaySeconds then
    .error s!"delaySeconds must be between 0 and {p.limits.maxDelaySeconds}"
  let encoded ← encodeBody rt message contentType
  if p.limits.maxMessageSize < encoded.length then
    .error s!"Message exceeds max size of {p.limits.maxMessageSize} bytes"
  return {
    queue := p.queueName
    body := encoded
    contentType
    attempts := 0
    status := .pending
    visibleAt := now + delaySeconds * 1000
    createdAt := now
    completedAt := none }

/-- `send`: the row it inserts. -/
def send (rt : Codec V) (message : V) (options : SendOptions) : Except String Message :=
  p.row now rt message (options.contentType.getD .json) (options.delaySeconds.getD p.defaultDelay)

/-- `sendBatch`: the rows it inserts. -/
def sendBatch (rt : Codec V) (messages : List (BatchMessage V)) (options : SendOptions) :
    Except String (List Message) := do
  if p.limits.maxBatchMessages < messages.length then
    .error s!"Batch exceeds max message count of {p.limits.maxBatchMessages}"
  let encoded ← messages.mapM fun msg =>
    p.row now rt msg.body
      ((msg.options.contentType.or options.contentType).getD .json)
      ((msg.options.delaySeconds.or options.delaySeconds).getD p.defaultDelay)
  if p.limits.maxBatchSize < (encoded.map fun m => m.body.length).sum then
    .error s!"Batch exceeds max total size of {p.limits.maxBatchSize} bytes"
  return encoded

variable {p now} {rt : Codec V} {m : Message}

/-- A new message is pending in the queue of its producer, without attempts. -/
structure New (p : Producer) (m : Message) : Prop where
  queue : m.queue = p.queueName
  status : m.status = .pending
  attempts : m.attempts = 0

theorem new_of_row {message : V} {contentType : ContentType} {delaySeconds : ℤ}
    (h : p.row now rt message contentType delaySeconds = .ok m) : p.New m := by
  simp only [row] at h
  split at h
  · cases h
  · cases henc : encodeBody rt message contentType with
    | error e =>
      rw [henc] at h
      cases h
    | ok encoded =>
      rw [henc] at h
      simp only [bind, Except.bind, pure, Except.pure] at h
      split at h
      · cases h
      · obtain rfl := Except.ok.inj h
        exact ⟨rfl, rfl, rfl⟩

end Producer

end Lopata.Queue
