import Lopata.Lib.Machine
import Lopata.Queue.Batch
import Lopata.Queue.Pull

/-!
# Consumers at Work on One Database

Any number of push consumers, the pull endpoint and producers share the queue tables. A step is
a piece of code that runs without an `await` in between: a poll up to the call of the handler,
the handler's end, the outcome of one message, a call of `pull`, `ack`, `send` or `sendBatch`.
Between two steps of one party all others may take theirs, and the clock may show any time.

Message ids are drawn by `randomUUIDv7`, which gives no id twice: the ids drawn so far are part
of the state, and an id that is not new is no step.

## Main definitions

* `World`, `Action`, `act`: the machine.
* `World.inFlight`: the messages a consumer has handed to its handler and not settled.

## Main results

* `act_cases`: what a step does to the tables and to the deliveries, for every action.
-/

namespace Lopata.Queue

/-- A delivery from the call of the handler on. -/
structure Delivery where
  /-- The claimed rows without an outcome. -/
  rows : List (String × Message)
  /-- The decisions, once the handler is done. -/
  decisions : Option Decisions

/-- The database, the clock and the consumers. -/
structure World where
  db : Db
  clock : ℤ
  /-- The delivery of each consumer that is polling. -/
  deliveries : ℕ → Option Delivery
  /-- The message ids drawn so far. -/
  issued : List String

/-- One step, with what its environment chose. -/
inductive Action (V : Type)
  /-- The clock shows another time. -/
  | clock (time : ℤ)
  /-- `send`. -/
  | send (p : Producer) (message : V) (options : SendOptions) (id : String)
  /-- `sendBatch`. -/
  | sendBatch (p : Producer) (messages : List (BatchMessage V)) (options : SendOptions)
      (ids : List String)
  /-- `poll` of a consumer, up to the call of its handler. -/
  | poll (c : ℕ)
  /-- The handler of a consumer and its `waitUntil` promises have settled. -/
  | handled (c : ℕ) (h : Handled)
  /-- A consumer writes the outcome of the next message of its batch. -/
  | settle (c : ℕ)
  /-- `pull`. -/
  | pull (queue : String) (options : PullRequest) (uuid : ℕ → String)
  /-- `ack`. -/
  | ack (queue : String) (request : AckRequest)

namespace World

variable (w : World)

/-- A database, nobody polling. -/
def start (db : Db) (now : ℤ) : World :=
  ⟨db, now, fun _ => none, db.messages.rows.map Prod.fst⟩

/-- `_activeDeliveries`. -/
def activeDeliveries (c : ℕ) : ℤ :=
  if (w.deliveries c).isSome then 1 else 0

/-- The checks at the start of `poll`: it is polling, or it has reached `maxConcurrency`. -/
def busy (cfg : ℕ → ConsumerConfig) (c : ℕ) : Bool :=
  (w.deliveries c).isSome ||
    (cfg c).maxConcurrency.any fun n => n ≠ 0 && n ≤ w.activeDeliveries c

/-- A consumer has handed the message to its handler and not written its outcome. -/
def inFlight (c : ℕ) (id : String) : Prop :=
  ∃ d, w.deliveries c = some d ∧ id ∈ d.rows.map Prod.fst

/-- The message whose outcome a consumer writes next, as it was claimed, and the decision on it. -/
def next (c : ℕ) : Option (String × Message × Option Decision) :=
  match w.deliveries c with
  | some ⟨(id, m) :: _, some d⟩ => some (id, m, d.get id)
  | _ => none

/-- The delivery of a consumer goes on as `d`. -/
def setDelivery (c : ℕ) (d : Option Delivery) : World :=
  { w with deliveries := Function.update w.deliveries c d }

theorem deliveries_setDelivery (c c' : ℕ) (d : Option Delivery) :
    (w.setDelivery c d).deliveries c' = if c' = c then d else w.deliveries c' :=
  Function.update_apply ..

/-- New messages are inserted under new ids. -/
def insert (rows : List (String × Message)) : Option World :=
  if (rows.map Prod.fst).Nodup ∧ ∀ id ∈ rows.map Prod.fst, id ∉ w.issued then
    (w.db.insertMessages rows).map fun db =>
      { w with db, issued := rows.map Prod.fst ++ w.issued }
  else none

end World

variable {V : Type}

/-- What a step does, `none` if it cannot be taken. -/
def act (rt : Codec V) (cfg : ℕ → ConsumerConfig) (w : World) : Action V → Option World
  | .clock time => some { w with clock := time }
  | .send p message options id =>
      match p.send w.clock rt message options with
      | .error _ => some w
      | .ok m => w.insert [(id, m)]
  | .sendBatch p messages options ids =>
      match p.sendBatch w.clock rt messages options with
      | .error _ => some w
      | .ok ms => if ids.length = ms.length then w.insert (ids.zip ms) else none
  | .poll c =>
      if w.busy cfg c then some w
      else
        match poll rt (cfg c) w.db w.clock with
        | (db, .batch rows) => some ({ w with db }.setDelivery c (some ⟨rows, none⟩))
        | (db, .idle) | (db, .undecodable) => some { w with db }
  | .handled c h =>
      match w.deliveries c with
      | some ⟨rows, none⟩ => some (w.setDelivery c (some ⟨rows, some h.decisions⟩))
      | _ => none
  | .settle c =>
      match w.deliveries c with
      | some ⟨(id, m) :: rows, some d⟩ =>
          let db := w.db.update id ((d.outcome (cfg c) id m).apply w.clock)
          some ({ w with db }.setDelivery c (if rows = [] then none else some ⟨rows, some d⟩))
      | _ => none
  | .pull queue options uuid => some { w with db := (pull rt w.db w.clock queue options uuid).1 }
  | .ack queue request => some { w with db := (ack w.db w.clock queue request).1 }

/-! ### What a step gives away and writes -/

/-- The messages a step hands to a handler. -/
def handed (rt : Codec V) (cfg : ℕ → ConsumerConfig) (w : World) : Action V → List String
  | .poll c =>
      if w.busy cfg c then []
      else
        match poll rt (cfg c) w.db w.clock with
        | (_, .batch rows) => rows.map Prod.fst
        | (_, .idle) | (_, .undecodable) => []
  | _ => []

/-- The messages a step returns from `pull`. -/
def pulled (rt : Codec V) (w : World) : Action V → List String
  | .pull queue options uuid =>
      match (pull rt w.db w.clock queue options uuid).2 with
      | .ok messages => messages.map PullMessage.id
      | .error _ => []
  | _ => []

/-- The outcome a step writes, with the message as it was claimed. -/
def written (cfg : ℕ → ConsumerConfig) (w : World) : Action V → Option (String × Message × Outcome)
  | .settle c =>
      match w.deliveries c with
      | some ⟨(id, m) :: _, some d⟩ => some (id, m, d.outcome (cfg c) id m)
      | _ => none
  | _ => none

/-- The message a step moves to a dead-letter queue. -/
def moved (cfg : ℕ → ConsumerConfig) (w : World) (a : Action V) : Option String :=
  match written cfg w a with
  | some (id, _, .deadLettered _) => if (w.db.messages.get? id).isSome then some id else none
  | _ => none

/-! ### The cases of a step -/

/-- What a step does, by cases. -/
inductive Did (rt : Codec V) (cfg : ℕ → ConsumerConfig) (w : World) : Action V → World → Prop
  /-- The messages stay where they are and the deliveries as they are. -/
  | tame {a w'} (hdb : Tame w.db w'.db) (hdeliveries : w'.deliveries = w.deliveries)
      (hissued : w'.issued = w.issued) (hhanded : handed rt cfg w a = [])
      (hwritten : written cfg w a = none) : Did rt cfg w a w'
  /-- New messages are inserted. -/
  | inserts {a w'} (rows : List (String × Message))
      (hfresh : ∀ id ∈ rows.map Prod.fst, id ∉ w.issued)
      (hnew : ∀ p ∈ rows, p.2.status = .pending ∧ p.2.attempts = 0)
      (hdb : ∀ id m, w'.db.messages.get? id = some m →
        (id, m) ∈ rows ∨ w.db.messages.get? id = some m)
      (hkept : ∀ id m, w.db.messages.get? id = some m → w'.db.messages.get? id = some m)
      (hleases : w'.db.leases = w.db.leases) (hclock : w'.clock = w.clock)
      (hdeliveries : w'.deliveries = w.deliveries)
      (hissued : w'.issued = rows.map Prod.fst ++ w.issued) (hhanded : handed rt cfg w a = [])
      (hwritten : written cfg w a = none) : Did rt cfg w a w'
  /-- A batch is claimed and handed to the handler. -/
  | hands (c : ℕ) (hidle : w.deliveries c = none)
      (hne : claimed (cfg c) w.db w.clock ≠ [])
      (hhanded : handed rt cfg w (.poll c) = (claimed (cfg c) w.db w.clock).map Prod.fst)
      (hdecodes : ∀ p ∈ claimed (cfg c) w.db w.clock, p.2.decodes rt = true) :
      Did rt cfg w (.poll c)
        (World.setDelivery
          { w with
            db := (w.db.deleteCreatedBefore (cfg c).queue (w.clock - (cfg c).retentionMs)).claim
              ((claimed (cfg c) w.db w.clock).map Prod.fst) }
          c (some ⟨claimed (cfg c) w.db w.clock, none⟩))
  /-- A handler is done. -/
  | handles (c : ℕ) (h : Handled) (rows : List (String × Message))
      (hc : w.deliveries c = some ⟨rows, none⟩) :
      Did rt cfg w (.handled c h) (w.setDelivery c (some ⟨rows, some h.decisions⟩))
  /-- The outcome of a message is written. -/
  | settles (c : ℕ) (id : String) (m : Message) (rows : List (String × Message)) (d : Decisions)
      (hc : w.deliveries c = some ⟨(id, m) :: rows, some d⟩)
      (hwritten : written (V := V) cfg w (.settle c) = some (id, m, d.outcome (cfg c) id m)) :
      Did rt cfg w (.settle c)
        (World.setDelivery
          { w with db := w.db.update id ((d.outcome (cfg c) id m).apply w.clock) }
          c (if rows = [] then none else some ⟨rows, some d⟩))

section Cases

variable {rt : Codec V} {cfg : ℕ → ConsumerConfig} {w w' : World} {a : Action V}

/-- Inserted rows are in the table, and the others are still there. -/
theorem get?_insertMessages {db db' : Db} {rows : List (String × Message)}
    (h : db.insertMessages rows = some db') :
    (∀ id m, db'.messages.get? id = some m → (id, m) ∈ rows ∨ db.messages.get? id = some m) ∧
      (∀ id m, db.messages.get? id = some m → db'.messages.get? id = some m) ∧
        db'.leases = db.leases := by
  induction rows generalizing db with
  | nil =>
    obtain rfl := Option.some.inj h
    exact ⟨fun _ _ => .inr, fun _ _ => id, rfl⟩
  | cons p rows ih =>
    obtain ⟨db₁, hp, h⟩ := Option.bind_eq_some_iff.mp h
    obtain ⟨hrows, hkept, hleases⟩ := ih h
    refine ⟨fun id m hm => ?_, fun id m hm => ?_, ?_⟩
    · rcases hrows id m hm with hmem | hm
      · exact .inl (List.mem_cons_of_mem p hmem)
      · rw [(get?_insertMessage hp).2] at hm
        split at hm
        · next heq =>
            obtain rfl := Option.some.inj hm
            exact .inl (heq ▸ List.mem_cons_self)
        · exact .inr hm
    · refine hkept id m ?_
      have hne : id ≠ p.1 := by
        rintro rfl
        cases (get?_insertMessage hp).1.symm.trans hm
      rw [(get?_insertMessage hp).2, if_neg hne, hm]
    · rw [hleases]
      simp only [Db.insertMessage] at hp
      split at hp
      · cases hp
      · obtain rfl := Option.some.inj hp
        rfl

theorem did_insert {rows : List (String × Message)} (h : w.insert rows = some w')
    (hnew : ∀ p ∈ rows, p.2.status = .pending ∧ p.2.attempts = 0)
    (hhanded : handed rt cfg w a = []) (hwritten : written cfg w a = none) :
    Did rt cfg w a w' := by
  simp only [World.insert] at h
  split at h
  · next hguard =>
      obtain ⟨db, hdb, rfl⟩ := Option.map_eq_some_iff.mp h
      obtain ⟨hrows, hkept, hleases⟩ := get?_insertMessages hdb
      exact .inserts rows hguard.2 hnew hrows hkept hleases rfl rfl rfl hhanded hwritten
  · cases h

/-- What a fallible function returns for the elements of a list, one after the other. -/
theorem mem_of_mapM_ok {α β : Type} {f : α → Except String β} {l : List α} {bs : List β} {b : β}
    (h : l.mapM f = .ok bs) (hb : b ∈ bs) : ∃ a ∈ l, f a = .ok b := by
  induction l generalizing bs with
  | nil =>
    obtain rfl := Except.ok.inj h
    cases hb
  | cons a l ih =>
    rw [List.mapM_cons] at h
    cases ha : f a with
    | error e =>
      rw [ha] at h
      cases h
    | ok b' =>
      cases hl : l.mapM f with
      | error e =>
        rw [ha, hl] at h
        cases h
      | ok bs' =>
        rw [ha, hl] at h
        obtain rfl := Except.ok.inj h
        rcases List.mem_cons.mp hb with rfl | hb
        · exact ⟨a, List.mem_cons_self, ha⟩
        · obtain ⟨a', ha', hfa⟩ := ih hl hb
          exact ⟨a', List.mem_cons_of_mem a ha', hfa⟩

/-- The rows of a batch are as new as those of single messages. -/
theorem new_of_sendBatch {p : Producer} {now : ℤ} {messages : List (BatchMessage V)}
    {options : SendOptions} {ms : List Message}
    (h : p.sendBatch now rt messages options = .ok ms) : ∀ m ∈ ms, p.New m := by
  simp only [Producer.sendBatch] at h
  split at h
  · cases h
  · cases hms : messages.mapM fun msg =>
        p.row now rt msg.body
          ((msg.options.contentType.or options.contentType).getD .json)
          ((msg.options.delaySeconds.or options.delaySeconds).getD p.defaultDelay) with
    | error e =>
      simp only [bind, Except.bind, hms] at h
      cases h
    | ok encoded =>
      simp only [bind, Except.bind, pure, Except.pure, hms] at h
      split at h
      · cases h
      · obtain rfl := Except.ok.inj h
        intro m hm
        obtain ⟨msg, -, hrow⟩ := mem_of_mapM_ok hms hm
        exact Producer.new_of_row hrow

/-- **The cases of a step.** -/
theorem act_cases (h : act rt cfg w a = some w') : Did rt cfg w a w' := by
  cases a with
  | clock time =>
    obtain rfl := Option.some.inj h
    exact .tame (Tame.refl _) rfl rfl rfl rfl
  | send p message options id =>
    simp only [act] at h
    split at h
    · obtain rfl := Option.some.inj h
      exact .tame (Tame.refl _) rfl rfl rfl rfl
    · next m hm =>
        refine did_insert h ?_ rfl rfl
        intro q hq
        obtain rfl := List.mem_singleton.mp hq
        have hnew := Producer.new_of_row hm
        exact ⟨hnew.status, hnew.attempts⟩
  | sendBatch p messages options ids =>
    simp only [act] at h
    split at h
    · obtain rfl := Option.some.inj h
      exact .tame (Tame.refl _) rfl rfl rfl rfl
    · next ms hms =>
        split at h
        · refine did_insert h ?_ rfl rfl
          rintro ⟨id, m⟩ hq
          have hnew := new_of_sendBatch hms m (List.of_mem_zip hq).2
          exact ⟨hnew.status, hnew.attempts⟩
        · cases h
  | poll c =>
    simp only [act] at h
    split at h
    · next hbusy =>
        obtain rfl := Option.some.inj h
        exact .tame (Tame.refl _) rfl rfl (by simp [handed, hbusy]) rfl
    · next hbusy =>
        have hidle : w.deliveries c = none := by
          simp only [World.busy, Bool.or_eq_true, not_or, Bool.not_eq_true,
            Option.isSome_eq_false_iff, Option.isNone_iff_eq_none] at hbusy
          exact hbusy.1
        have hclean : Tame w.db (w.db.deleteCreatedBefore (cfg c).queue
            (w.clock - (cfg c).retentionMs)) := tame_deleteCreatedBefore _ _
        by_cases hnil : claimed (cfg c) w.db w.clock = []
        · rw [poll_of_nil hnil] at h
          obtain rfl := Option.some.inj h
          exact .tame hclean rfl rfl (by simp [handed, poll_of_nil hnil]) rfl
        · by_cases hall : ∀ p ∈ claimed (cfg c) w.db w.clock, p.2.decodes rt = true
          · rw [poll_of_decodes hnil hall] at h
            obtain rfl := Option.some.inj h
            exact .hands c hidle hnil (by simp [handed, hbusy, poll_of_decodes hnil hall]) hall
          · rw [poll_of_not_decodes hall] at h
            obtain rfl := Option.some.inj h
            exact .tame (hclean.trans (tame_claim _)) rfl rfl
              (by simp [handed, poll_of_not_decodes hall]) rfl
  | handled c hd =>
    simp only [act] at h
    split at h
    · next rows hc =>
        obtain rfl := Option.some.inj h
        exact .handles c hd rows hc
    · cases h
  | settle c =>
    simp only [act] at h
    split at h
    · next id m rows d hc =>
        obtain rfl := Option.some.inj h
        exact .settles c id m rows d hc (by simp [written, hc])
    · cases h
  | pull queue options uuid =>
    obtain rfl := Option.some.inj h
    exact .tame (tame_pull options) rfl rfl rfl rfl
  | ack queue request =>
    obtain rfl := Option.some.inj h
    exact .tame (tame_ack request) rfl rfl rfl rfl

end Cases

end Lopata.Queue
