import Lopata.Queue.Store

/-!
# One Delivery of a Queue Consumer

A poll of `QueueConsumer` deletes what is beyond retention, selects the due messages, counts an
attempt on each, decodes their bodies and calls the handler with the batch. When the handler and
its `waitUntil` promises have settled, it writes one outcome for each message. A body that cannot
be decoded makes the poll reject after the attempts were counted and before the handler is
called.

Here the delivery is taken as a whole; `Lopata.Queue.Consumer` takes the same steps one at a
time, with other parties in between.

## Main results

* `Handled.decision_eq_rule`: the decision the code looks up is that of the rule: a handler error
  means retry, otherwise the last call on the message, otherwise the last call on the batch,
  otherwise ack.
* `rule_followed_iff`: each claimed message ends with exactly the outcome of the rule, and the
  decodable ones are handed out and settled, exactly when the body of every claimed message can
  be decoded.
* `undecodable_blocks`: one empty JSON body keeps the message next to it from its handler.
-/

namespace Lopata.Queue

/-- `ConsumerConfig`. -/
structure ConsumerConfig where
  queue : String
  maxBatchSize : ℤ := 10
  maxRetries : ℤ := 3
  deadLetterQueue : Option String := none
  maxConcurrency : Option ℤ := none
  retryDelay : Option ℤ := none
  retentionPeriodSeconds : Option ℤ := none
  deriving DecidableEq, Repr

/-- `if (this.config.deadLetterQueue)`: the empty name is none. -/
def ConsumerConfig.deadLetter (cfg : ConsumerConfig) : Option String :=
  cfg.deadLetterQueue.filter (· ≠ "")

/-- `retentionMs`. -/
def ConsumerConfig.retentionMs (cfg : ConsumerConfig) : ℤ :=
  cfg.retentionPeriodSeconds.getD 345600 * 1000

/-! ### Decisions -/

/-- `Decision`. -/
inductive Decision
  | ack
  | retry (delaySeconds : Option ℤ)
  deriving DecidableEq, Repr

/-- A call on a message or on the batch. -/
inductive Call
  | ack (id : String)
  | retry (id : String) (delaySeconds : Option ℤ)
  | ackAll
  | retryAll (delaySeconds : Option ℤ)
  deriving DecidableEq, Repr

/-- What a handler and its `waitUntil` promises do: their calls in order, and whether the
handler throws. -/
structure Handled where
  calls : List Call
  throws : Bool
  deriving DecidableEq, Repr

/-- `messageDecisions`, `batchDecision` and `handlerError`. -/
structure Decisions where
  message : Table String Decision
  batch : Option Decision
  handlerError : Bool

namespace Decisions

/-- The body of a call. -/
def call (d : Decisions) : Call → Decisions
  | .ack id => { d with message := d.message.insert id .ack }
  | .retry id delaySeconds => { d with message := d.message.insert id (.retry delaySeconds) }
  | .ackAll => { d with batch := some .ack }
  | .retryAll delaySeconds => { d with batch := some (.retry delaySeconds) }

/-- The decision on a message, `null` if there is none. -/
def get (d : Decisions) (id : String) : Option Decision :=
  if d.handlerError then some (.retry none) else (d.message.get? id).or d.batch

end Decisions

/-- The decisions when the handler is done. -/
def Handled.decisions (h : Handled) : Decisions :=
  { h.calls.foldl Decisions.call ⟨.empty, none, false⟩ with handlerError := h.throws }

/-- What a call decides on one message. -/
def Call.onMessage (id : String) : Call → Option Decision
  | .ack id' => if id' = id then some .ack else none
  | .retry id' delaySeconds => if id' = id then some (.retry delaySeconds) else none
  | .ackAll | .retryAll _ => none

/-- What a call decides on the batch. -/
def Call.onBatch : Call → Option Decision
  | .ackAll => some .ack
  | .retryAll delaySeconds => some (.retry delaySeconds)
  | .ack _ | .retry .. => none

/-- The rule: a handler error means retry; otherwise the last decision on the message counts,
otherwise the last one on the batch, otherwise the message is acked. -/
def Handled.rule (h : Handled) (id : String) : Decision :=
  if h.throws then .retry none
  else
    (((h.calls.filterMap (Call.onMessage id)).getLast?).or
      (h.calls.filterMap Call.onBatch).getLast?).getD .ack

/-! ### Outcomes -/

/-- The outcome of a delivery for one message. -/
inductive Outcome
  | acked
  | retried (delay : ℤ)
  | deadLettered (queue : String)
  | failed
  deriving DecidableEq, Repr

/-- The branches that choose the `UPDATE` of a message. -/
def outcome (cfg : ConsumerConfig) (currentAttempts : ℕ) : Option Decision → Outcome
  | none | some .ack => .acked
  | some (.retry delaySeconds) =>
      let delay := (delaySeconds.or cfg.retryDelay).getD 0
      if cfg.maxRetries ≤ currentAttempts then
        match cfg.deadLetter with
        | some queue => .deadLettered queue
        | none => .failed
      else .retried delay

/-- The `UPDATE` of an outcome. -/
def Outcome.apply (now : ℤ) : Outcome → Message → Message
  | .acked, m => m.acked now
  | .retried delay, m => m.postponed (now + delay * 1000)
  | .deadLettered queue, m => m.movedTo now queue
  | .failed, m => m.failed now

/-- The outcome of a claimed row; its `attempts` is the one before the claim. -/
def Decisions.outcome (d : Decisions) (cfg : ConsumerConfig) (id : String) (m : Message) :
    Outcome :=
  Queue.outcome cfg (m.attempts + 1) (d.get id)

/-! ### The delivery -/

/-- What the claim of a poll came to. -/
inductive Claim
  /-- Nothing is due. -/
  | idle
  /-- A body cannot be decoded, the poll rejects. -/
  | undecodable
  /-- The handler is called with the batch. -/
  | batch (rows : List (String × Message))

variable {V : Type}

/-- A poll up to the call of the handler. -/
def poll (rt : Codec V) (cfg : ConsumerConfig) (db : Db) (now : ℤ) : Db × Claim :=
  let db := db.deleteCreatedBefore cfg.queue (now - cfg.retentionMs)
  let rows := db.due now cfg.queue cfg.maxBatchSize
  if rows = [] then (db, .idle)
  else
    let db := db.claim (rows.map Prod.fst)
    if rows.all fun p => p.2.decodes rt then (db, .batch rows) else (db, .undecodable)

/-- The tables after a delivery, the messages the handler was called with and the outcomes
written, in order. -/
structure Report where
  db : Db
  handed : List String
  outcomes : List (String × Outcome)

/-- One turn of the loop over the claimed rows. -/
def Report.settle (cfg : ConsumerConfig) (d : Decisions) (clock : String → ℤ) (r : Report)
    (p : String × Message) : Report :=
  let o := d.outcome cfg p.1 p.2
  { r with
    db := r.db.update p.1 (o.apply (clock p.1))
    outcomes := r.outcomes ++ [(p.1, o)] }

/-- A whole delivery: the poll, the handler and the outcomes. `clock` is the time at which the
outcome of a message is written. -/
def deliver (rt : Codec V) (cfg : ConsumerConfig) (db : Db) (now : ℤ) (h : Handled)
    (clock : String → ℤ) : Report :=
  match poll rt cfg db now with
  | (db, .batch rows) =>
      rows.foldl (Report.settle cfg h.decisions clock) ⟨db, rows.map Prod.fst, []⟩
  | (db, .idle) | (db, .undecodable) => ⟨db, [], []⟩

/-- The messages a poll claims. -/
def claimed (cfg : ConsumerConfig) (db : Db) (now : ℤ) : List (String × Message) :=
  (db.deleteCreatedBefore cfg.queue (now - cfg.retentionMs)).due now cfg.queue cfg.maxBatchSize

/-! ### The decisions follow the rule -/

section Decisions

variable {cfg : ConsumerConfig} {d : Decisions} {h : Handled} {id : String}

theorem get?_call (c : Call) :
    (d.call c).message.get? id = (c.onMessage id).or (d.message.get? id) := by
  cases c with
  | ack id' =>
    by_cases hid : id' = id
    · simp [Decisions.call, Call.onMessage, hid]
    · simp [Decisions.call, Call.onMessage, hid, Table.get?_insert_of_ne _ _ (Ne.symm hid)]
  | retry id' delaySeconds =>
    by_cases hid : id' = id
    · simp [Decisions.call, Call.onMessage, hid]
    · simp [Decisions.call, Call.onMessage, hid, Table.get?_insert_of_ne _ _ (Ne.symm hid)]
  | ackAll => rfl
  | retryAll delaySeconds => rfl

theorem batch_call (c : Call) : (d.call c).batch = c.onBatch.or d.batch := by
  cases c <;> rfl

/-- The last of some texts, put in front of an earlier one. -/
theorem getLast?_filterMap_cons {α β : Type} (f : α → Option β) (a : α) (l : List α)
    (o : Option β) :
    ((l.filterMap f).getLast?).or ((f a).or o) = (((a :: l).filterMap f).getLast?).or o := by
  cases hf : f a with
  | none => rw [List.filterMap_cons_none hf, Option.none_or]
  | some b =>
    rw [List.filterMap_cons_some hf, List.getLast?_cons]
    cases (l.filterMap f).getLast? <;> rfl

/-- The last call on a message counts. -/
theorem get?_foldl_call (calls : List Call) :
    (calls.foldl Decisions.call d).message.get? id =
      ((calls.filterMap (Call.onMessage id)).getLast?).or (d.message.get? id) := by
  induction calls generalizing d with
  | nil => rfl
  | cons c calls ih => rw [List.foldl_cons, ih, get?_call, getLast?_filterMap_cons]

/-- The last call on the batch counts. -/
theorem batch_foldl_call (calls : List Call) :
    (calls.foldl Decisions.call d).batch =
      ((calls.filterMap Call.onBatch).getLast?).or d.batch := by
  induction calls generalizing d with
  | nil => rfl
  | cons c calls ih => rw [List.foldl_cons, ih, batch_call, getLast?_filterMap_cons]

/-- The decision the code looks up is that of the rule. -/
theorem Handled.decision_eq_rule : (h.decisions.get id).getD .ack = h.rule id := by
  simp only [Decisions.get, Handled.rule]
  cases hthrows : h.throws with
  | true => simp [Handled.decisions, hthrows]
  | false => simp [Handled.decisions, hthrows, get?_foldl_call, batch_foldl_call]

/-- No decision means ack. -/
theorem outcome_getD (o : Option Decision) (n : ℕ) :
    outcome cfg n (some (o.getD .ack)) = outcome cfg n o := by
  cases o <;> rfl

/-- The outcome written for a claimed message is that of the rule. -/
theorem Handled.outcome_eq_rule (m : Message) :
    h.decisions.outcome cfg id m = outcome cfg (m.attempts + 1) (some (h.rule id)) := by
  rw [← Handled.decision_eq_rule, outcome_getD]
  rfl

end Decisions

/-! ### The outcomes of a batch -/

section Outcomes

variable {cfg : ConsumerConfig} {d : Decisions} {clock : String → ℤ} {r : Report}
  {rows : List (String × Message)} {id : String} {m : Message}

/-- The loop writes one outcome for each row, in order. -/
theorem outcomes_foldl_settle :
    (rows.foldl (Report.settle cfg d clock) r).outcomes =
      r.outcomes ++ rows.map fun p => (p.1, d.outcome cfg p.1 p.2) := by
  induction rows generalizing r with
  | nil => simp
  | cons p rows ih => rw [List.foldl_cons, ih]; simp [Report.settle]

theorem handed_foldl_settle :
    (rows.foldl (Report.settle cfg d clock) r).handed = r.handed := by
  induction rows generalizing r with
  | nil => rfl
  | cons p rows ih => rw [List.foldl_cons, ih]; rfl

/-- The loop touches the rows of the batch only. -/
theorem get?_foldl_settle_of_notMem (hid : id ∉ rows.map Prod.fst) :
    (rows.foldl (Report.settle cfg d clock) r).db.messages.get? id =
      r.db.messages.get? id := by
  induction rows generalizing r with
  | nil => rfl
  | cons p rows ih =>
    rw [List.map_cons, List.mem_cons, not_or] at hid
    rw [List.foldl_cons, ih hid.2, Report.settle, get?_update, if_neg hid.1]

/-- The loop applies to each row its outcome, once. -/
theorem get?_foldl_settle (hnd : (rows.map Prod.fst).Nodup) (hmem : (id, m) ∈ rows) :
    (rows.foldl (Report.settle cfg d clock) r).db.messages.get? id =
      (r.db.messages.get? id).map ((d.outcome cfg id m).apply (clock id)) := by
  induction rows generalizing r with
  | nil => cases hmem
  | cons p rows ih =>
    obtain ⟨hp, hnd⟩ := List.nodup_cons.mp hnd
    rw [List.foldl_cons]
    rcases List.mem_cons.mp hmem with rfl | hmem
    · rw [get?_foldl_settle_of_notMem hp, Report.settle, get?_update, if_pos rfl]
    · have hne : id ≠ p.1 := by
        rintro rfl
        exact hp (List.mem_map.mpr ⟨_, hmem, rfl⟩)
      rw [ih hnd hmem, Report.settle, get?_update, if_neg hne]

/-- Exactly one of the outcomes written is that of a given message. -/
theorem filter_outcomes (hnd : (rows.map Prod.fst).Nodup) (hmem : (id, m) ∈ rows) :
    (rows.map fun p => (p.1, d.outcome cfg p.1 p.2)).filter (fun p => p.1 = id) =
      [(id, d.outcome cfg id m)] := by
  induction rows with
  | nil => cases hmem
  | cons p rows ih =>
    obtain ⟨hp, hnd⟩ := List.nodup_cons.mp hnd
    rw [List.map_cons]
    rcases List.mem_cons.mp hmem with rfl | hmem
    · have hrest : (rows.map fun p => (p.1, d.outcome cfg p.1 p.2)).filter
          (fun p => p.1 = id) = [] := by
        rw [List.filter_eq_nil_iff]
        intro q hq heq
        obtain ⟨p, hp', rfl⟩ := List.mem_map.mp hq
        have heq : p.1 = id := by simpa using heq
        exact hp (List.mem_map.mpr ⟨p, hp', heq⟩)
      rw [List.filter_cons_of_pos (by simp), hrest]
    · have hne : p.1 ≠ id := by
        rintro rfl
        exact hp (List.mem_map.mpr ⟨_, hmem, rfl⟩)
      rw [List.filter_cons_of_neg (by simpa using hne), ih hnd hmem]

end Outcomes

/-! ### The result -/

/-- A delivery follows the rule: each claimed message has one outcome, the one of the rule; its
row is the claimed one after that outcome; the other rows are as they were; and a message with a
body that can be decoded was handed to the handler. -/
structure FollowsRule (rt : Codec V) (cfg : ConsumerConfig) (h : Handled) (clock : String → ℤ)
    (db : Db) (rows : List (String × Message)) (r : Report) : Prop where
  outcome : ∀ id m, (id, m) ∈ rows →
    r.outcomes.filter (fun p => p.1 = id) =
      [(id, outcome cfg (m.attempts + 1) (some (h.rule id)))]
  row : ∀ id m, (id, m) ∈ rows → r.db.messages.get? id =
    some ((Queue.outcome cfg (m.attempts + 1) (some (h.rule id))).apply (clock id) m.claimed)
  others : ∀ id, id ∉ rows.map Prod.fst → r.db.messages.get? id = db.messages.get? id
  handed : ∀ id m, (id, m) ∈ rows → m.decodes rt = true → id ∈ r.handed

section Deliver

variable {rt : Codec V} {cfg : ConsumerConfig} {db : Db} {now : ℤ}

theorem nodup_claimed : ((claimed cfg db now).map Prod.fst).Nodup :=
  nodup_ids_firstBy _

theorem poll_of_nil (hnil : claimed cfg db now = []) :
    poll rt cfg db now =
      (db.deleteCreatedBefore cfg.queue (now - cfg.retentionMs), .idle) :=
  if_pos hnil

/-- A batch whose bodies can all be decoded is handed out. -/
theorem poll_of_decodes (hne : claimed cfg db now ≠ [])
    (hall : ∀ p ∈ claimed cfg db now, p.2.decodes rt = true) :
    poll rt cfg db now =
      ((db.deleteCreatedBefore cfg.queue (now - cfg.retentionMs)).claim
        ((claimed cfg db now).map Prod.fst), .batch (claimed cfg db now)) :=
  (if_neg hne).trans (if_pos (List.all_eq_true.mpr hall))

/-- A batch with a body that cannot be decoded is claimed and dropped. -/
theorem poll_of_not_decodes (hall : ¬ ∀ p ∈ claimed cfg db now, p.2.decodes rt = true) :
    poll rt cfg db now =
      ((db.deleteCreatedBefore cfg.queue (now - cfg.retentionMs)).claim
        ((claimed cfg db now).map Prod.fst), .undecodable) := by
  have hne : claimed cfg db now ≠ [] := by
    intro hnil
    rw [hnil] at hall
    exact hall fun p hp => nomatch hp
  exact (if_neg hne).trans (if_neg fun h => hall (List.all_eq_true.mp h))

/-- **The rule is followed exactly by the batches that can be decoded.** For every table,
configuration and handler, each claimed message ends with exactly one outcome, the one of the
rule, and every message that can be decoded is handed out, if and only if the bodies of all
claimed messages can be decoded. -/
theorem rule_followed_iff (rt : Codec V) (cfg : ConsumerConfig) (db : Db) (now : ℤ) (h : Handled)
    (clock : String → ℤ) :
    FollowsRule rt cfg h clock (db.deleteCreatedBefore cfg.queue (now - cfg.retentionMs))
        (claimed cfg db now) (deliver rt cfg db now h clock) ↔
      ∀ p ∈ claimed cfg db now, p.2.decodes rt = true := by
  constructor
  · -- without the handler there are no outcomes
    intro hrule
    by_contra hall
    have hreport : (deliver rt cfg db now h clock).outcomes = [] := by
      rw [deliver, poll_of_not_decodes hall]
    obtain ⟨⟨id, m⟩, hp, -⟩ : ∃ p ∈ claimed cfg db now, ¬ p.2.decodes rt = true := by
      simpa only [not_forall, exists_prop] using hall
    have hout := hrule.outcome id m hp
    rw [hreport] at hout
    cases hout
  · intro hall
    by_cases hnil : claimed cfg db now = []
    · rw [deliver, poll_of_nil hnil, hnil]
      exact ⟨fun _ _ h => (nomatch h), fun _ _ h => (nomatch h), fun _ _ => rfl,
        fun _ _ h => (nomatch h)⟩
    · rw [deliver, poll_of_decodes hnil hall]
      refine ⟨?_, ?_, ?_, ?_⟩
      · intro id m hmem
        simp only [outcomes_foldl_settle, List.nil_append]
        rw [filter_outcomes nodup_claimed hmem, Handled.outcome_eq_rule]
      · intro id m hmem
        have hids : id ∈ (claimed cfg db now).map Prod.fst := List.mem_map.mpr ⟨_, hmem, rfl⟩
        simp only [get?_foldl_settle nodup_claimed hmem, get?_claim, (Db.of_mem_due hmem).1,
          Option.map_some, if_pos hids, Handled.outcome_eq_rule]
      · intro id hid
        simp only [get?_foldl_settle_of_notMem hid, get?_claim, if_neg hid, Option.map_id']
      · intro id m hmem _
        simp only [handed_foldl_settle]
        exact List.mem_map.mpr ⟨_, hmem, rfl⟩

end Deliver

/-! ### A body that cannot be decoded -/

/-- A runtime for which a value is its JSON text: the empty text is not JSON. -/
def jsonText : Codec Bytes where
  view := some
  string := .ok
  stringify := .ok
  slice := fun raw => raw
  text := fun raw => raw
  parse := fun raw => if raw = [] then .error "JSON Parse error: Unexpected EOF" else .ok raw

/-- Two messages, the first with an empty body: `JSON.stringify(undefined)` is not a text, and
`TextEncoder` encodes it as no bytes. -/
def emptyBody : Db where
  messages :=
    (Table.empty.insert "m1" ⟨"jobs", [], .json, 0, .pending, 0, 0, none⟩).insert "m2"
      ⟨"jobs", [0x31], .json, 0, .pending, 0, 0, none⟩
  leases := .empty

/-- The second message is neither handed out nor settled. -/
theorem undecodable_blocks :
    ¬ ∀ (rt : Codec Bytes) (cfg : ConsumerConfig) (db : Db) (now : ℤ) (h : Handled)
      (clock : String → ℤ),
      FollowsRule rt cfg h clock (db.deleteCreatedBefore cfg.queue (now - cfg.retentionMs))
        (claimed cfg db now) (deliver rt cfg db now h clock) := by
  intro hall
  have hrule := hall jsonText { queue := "jobs" } emptyBody 0 ⟨[.ackAll], false⟩ fun _ => 0
  have hclaimed : ("m2", (⟨"jobs", [0x31], .json, 0, .pending, 0, 0, none⟩ : Message)) ∈
      claimed { queue := "jobs" } emptyBody 0 := by
    decide
  have hhanded := hrule.handed _ _ hclaimed (by decide)
  have hnone : (deliver jsonText { queue := "jobs" } emptyBody 0 ⟨[.ackAll], false⟩
      fun _ => 0).handed = [] := by
    decide
  rw [hnone] at hhanded
  cases hhanded

end Lopata.Queue
