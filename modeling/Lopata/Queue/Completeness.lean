import Lopata.Queue.Batch
import Lopata.Queue.Pull

/-!
# What a Pull Hands Out

The query of `pull` takes the first rows of the queue that are pending, visible and not leased, and
only then `pull` drops the rows of content type `v8`, which it cannot return. Those rows are neither
leased nor settled: they are at the head of the queue for the next call as well.

## Main definitions

* `Db.eligible`: the messages a pull consumer may be handed.
* `PullsAll`: a pull returns the first eligible messages, as many as it is asked for.

## Main results

* `pullsAll_iff`: it does exactly when the rows its limit counts are eligible, or no eligible
  message stands behind them.
* `not_pullsAll`: a `v8` message hides the one behind it.
-/

namespace Lopata.Queue

/-- The message is under a lease that has not expired. -/
def Db.underLease (db : Db) (id : String) (now : ℤ) : Bool :=
  db.leases.rows.any fun p => p.2.messageId = id && now < p.2.expiresAt

/-- Pending in the queue, visible, not under an unexpired lease and not of content type `v8`. -/
def Db.eligible (db : Db) (now : ℤ) (queue : String) (p : String × Message) : Bool :=
  p.2.due now queue && !db.underLease p.1 now && p.2.contentType ≠ .v8

/-- The messages in delivery order. -/
def Db.inOrder (db : Db) : List (String × Message) :=
  db.messages.rows.insertionSort fun p q => p.2.visibleAt ≤ q.2.visibleAt

/-- The first `n` eligible messages. -/
def Db.nextEligible (db : Db) (now : ℤ) (queue : String) (n : ℕ) : List (String × Message) :=
  (db.inOrder.filter (db.eligible now queue)).take n

/-- The messages that are pending, visible and not leased by a consumer of the queue. -/
def Db.waiting (db : Db) (now : ℤ) (queue : String) : List (String × Message) :=
  db.inOrder.filter fun p => p.2.due now queue && !db.leased p.1 now queue

variable {V : Type}

/-- What a pull consumer is shown of a row. -/
structure Shows (rt : Codec V) (p : String × Message) (x : PullMessage V) : Prop where
  id : x.id = p.1
  timestamp : x.timestamp = p.2.createdAt
  body : decodeBody rt p.2.body p.2.contentType = .ok x.body
  attempts : x.attempts = p.2.attempts + 1

/-- The pull returns the first `n` eligible messages, or all of them if there are fewer. -/
def PullsAll (rt : Codec V) (db : Db) (now : ℤ) (queue : String) (n : ℕ) (timeout : Option ℤ)
    (uuid : ℕ → String) : Prop :=
  ∃ messages, (pull rt db now queue ⟨some n, timeout⟩ uuid).2 = .ok messages ∧
    List.Forall₂ (Shows rt) (db.nextEligible now queue n) messages

/-- Nothing among the first `n` waiting messages is in the way of an eligible one. -/
structure Db.Unhidden (db : Db) (rt : Codec V) (now : ℤ) (queue : String) (n : ℕ) : Prop where
  /-- What is not of content type `v8` is not leased by another queue either, and decodes. -/
  returnable : ∀ p ∈ (db.waiting now queue).take n, p.2.contentType ≠ .v8 →
    db.underLease p.1 now = false ∧ p.2.decodes rt = true
  /-- There is no `v8` message among them, or no eligible message behind them. -/
  front : (∀ p ∈ (db.waiting now queue).take n, p.2.contentType ≠ .v8) ∨
    ∀ p ∈ (db.waiting now queue).drop n, db.eligible now queue p = false

section Rows

variable {rt : Codec V} {db : Db} {now expiresAt : ℤ} {queue : String} {uuid : ℕ → String}
  {s s' : Db × List (PullMessage V)} {p : (String × Message) × ℕ} {n : ℕ} {timeout : Option ℤ}
  {x : String × Message}

theorem Message.decodes_iff {m : Message} :
    m.decodes rt = true ↔ ∃ body, decodeBody rt m.body m.contentType = .ok body := by
  rw [Message.decodes]
  cases decodeBody rt m.body m.contentType with
  | error e => simp [Except.isOk, Except.toBool]
  | ok body => simp [Except.isOk, Except.toBool]

/-- A turn whose lease id is free and whose body decodes. -/
theorem leaseRow_of_decodes (hfree : s.1.leases.get? (uuid p.2) = none)
    (hbody : p.1.2.decodes rt = true) :
    ∃ s', leaseRow rt queue expiresAt uuid s p = .ok s' := by
  obtain ⟨body, hbody⟩ := Message.decodes_iff.mp hbody
  rw [leaseRow, Db.insertLease, hfree, hbody]
  exact ⟨_, rfl⟩

/-- One turn shows its row. -/
theorem shows_of_leaseRow (h : leaseRow rt queue expiresAt uuid s p = .ok s') :
    ∃ x, s'.2 = s.2 ++ [x] ∧ Shows rt p.1 x := by
  simp only [leaseRow] at h
  cases hlease : s.1.insertLease (uuid p.2) ⟨p.1.1, queue, expiresAt⟩ with
  | none =>
    rw [hlease] at h
    cases h
  | some db =>
    rw [hlease] at h
    cases hbody : decodeBody rt p.1.2.body p.1.2.contentType with
    | error e =>
      rw [hbody] at h
      cases h
    | ok body =>
      rw [hbody] at h
      obtain rfl := Except.ok.inj h
      exact ⟨_, rfl, rfl, rfl, hbody, rfl⟩

/-- One turn takes no other lease id. -/
theorem leases_leaseRow_of_ne {k : String} (h : leaseRow rt queue expiresAt uuid s p = .ok s')
    (hk : k ≠ uuid p.2) : s'.1.leases.get? k = s.1.leases.get? k := by
  obtain ⟨db, x, hlease, hdb, -, -, -⟩ := leaseRow_ok h
  obtain ⟨-, rfl⟩ := insertLease_eq_some hlease
  rw [hdb]
  exact Table.get?_insert_of_ne _ _ hk

/-- The loop shows its rows, all of which decode. -/
theorem shows_of_leaseRows {rows : List (String × Message)} {k : ℕ}
    (h : (rows.zipIdx k).foldlM (leaseRow rt queue expiresAt uuid) s = .ok s') :
    ∃ messages, s'.2 = s.2 ++ messages ∧ List.Forall₂ (Shows rt) rows messages := by
  induction rows generalizing s k with
  | nil =>
    obtain rfl := Except.ok.inj h
    exact ⟨[], (List.append_nil _).symm, .nil⟩
  | cons p rows ih =>
    rw [List.zipIdx_cons, List.foldlM_cons] at h
    cases hturn : leaseRow rt queue expiresAt uuid s (p, k) with
    | error e =>
      rw [hturn] at h
      cases h
    | ok t =>
      rw [hturn] at h
      obtain ⟨x, ht, hx⟩ := shows_of_leaseRow hturn
      obtain ⟨messages, hs', hmessages⟩ := ih h
      refine ⟨x :: messages, ?_, .cons hx hmessages⟩
      rw [hs', ht, List.append_assoc, List.singleton_append]

/-- Fresh lease ids and rows that decode: the loop goes through. -/
theorem leaseRows_of_decodes {rows : List (String × Message)} {k : ℕ}
    (huuid : Function.Injective uuid) (hfree : ∀ i, k ≤ i → s.1.leases.get? (uuid i) = none)
    (hrows : ∀ p ∈ rows, p.2.decodes rt = true) :
    ∃ s', (rows.zipIdx k).foldlM (leaseRow rt queue expiresAt uuid) s = .ok s' := by
  induction rows generalizing s k with
  | nil => exact ⟨s, rfl⟩
  | cons p rows ih =>
    obtain ⟨t, hturn⟩ : ∃ t, leaseRow rt queue expiresAt uuid s (p, k) = .ok t :=
      leaseRow_of_decodes (hfree k le_rfl) (hrows p List.mem_cons_self)
    rw [List.zipIdx_cons, List.foldlM_cons, hturn]
    refine ih (fun i hi => ?_) fun q hq => hrows q (List.mem_cons_of_mem _ hq)
    rw [leases_leaseRow_of_ne hturn (huuid.ne (by omega : i ≠ k)), hfree i (by omega)]

/-- The expired leases `pull` deletes do not count. -/
theorem leased_deleteExpired (id : String) :
    (db.deleteExpired now queue).leased id now queue = db.leased id now queue := by
  simp only [Db.leased, Db.deleteExpired, Table.filter, List.any_filter]
  refine congrArg db.leases.rows.any (funext fun p => ?_)
  by_cases hlt : now < p.2.expiresAt
  · simp [hlt]
  · simp [hlt]

/-- The rows `pull` leases. -/
theorem validRows_eq :
    validRows (db.deleteExpired now queue) now queue ⟨some n, timeout⟩ =
      ((db.waiting now queue).take n).filter fun p => p.2.contentType ≠ .v8 := by
  have hn : ¬ (n : ℤ) < 0 := by omega
  simp only [validRows, Db.pullable, firstBy, limit, Option.getD_some, if_neg hn, Int.toNat_natCast,
    insertionSort_filter, leased_deleteExpired]
  rfl

/-- A lease of the queue is a lease. -/
theorem underLease_of_leased {id : String} (h : db.leased id now queue = true) :
    db.underLease id now = true := by
  obtain ⟨p, hp, hlease⟩ := List.any_eq_true.mp h
  refine List.any_eq_true.mpr ⟨p, hp, ?_⟩
  simp only [Bool.and_eq_true, decide_eq_true_eq] at hlease ⊢
  exact ⟨hlease.1.1, hlease.2⟩

/-- The eligible messages are waiting. -/
theorem nextEligible_eq :
    db.nextEligible now queue n =
      ((db.waiting now queue).filter fun p =>
        !db.underLease p.1 now && p.2.contentType ≠ .v8).take n := by
  rw [Db.nextEligible, Db.waiting, List.filter_filter]
  refine congrArg (List.take n) (List.filter_congr fun p _ => ?_)
  rw [Db.eligible]
  cases hlease : db.leased p.1 now queue with
  | false => cases p.2.due now queue <;> simp
  | true => simp [underLease_of_leased hlease]

/-- Waiting messages are rows of the table. -/
theorem get?_of_mem_waiting (h : x ∈ db.waiting now queue) : db.messages.get? x.1 = some x.2 :=
  Table.mem_rows_iff.mp ((List.mem_insertionSort _).mp (List.mem_of_mem_filter h))

/-- Messages of one table that are shown alike are the same. -/
theorem eq_of_shows {rows rows' : List (String × Message)} {messages : List (PullMessage V)}
    (h : List.Forall₂ (Shows rt) rows messages) (h' : List.Forall₂ (Shows rt) rows' messages)
    (hrows : ∀ x ∈ rows, db.messages.get? x.1 = some x.2)
    (hrows' : ∀ x ∈ rows', db.messages.get? x.1 = some x.2) : rows = rows' := by
  induction h generalizing rows' with
  | nil =>
    cases h'
    rfl
  | @cons a x rows messages ha _ ih =>
    cases h' with
    | @cons b _ rows' _ hb h' =>
      have hid : a.1 = b.1 := ha.id.symm.trans hb.id
      have ha := hrows a List.mem_cons_self
      have hb := hrows' b List.mem_cons_self
      rw [hid, hb] at ha
      rw [ih h' (fun x hx => hrows x (List.mem_cons_of_mem _ hx))
        fun x hx => hrows' x (List.mem_cons_of_mem _ hx),
        Prod.ext hid (Option.some.inj ha.symm)]

/-- Rows that are shown decode. -/
theorem decodes_of_shows {rows : List (String × Message)} {messages : List (PullMessage V)}
    (h : List.Forall₂ (Shows rt) rows messages) : ∀ x ∈ rows, x.2.decodes rt = true := by
  intro x hx
  obtain ⟨i, hi, rfl⟩ := List.mem_iff_getElem.mp hx
  exact Message.decodes_iff.mpr ⟨_, (h.get hi (h.length_eq ▸ hi)).body⟩

end Rows

/-- **When a pull is complete.** With lease ids that are fresh and distinct, `pull` returns the first
`n` eligible messages exactly when among the first `n` waiting ones all that are not of content type
`v8` can be returned, and none is of content type `v8` or no eligible message stands behind them. -/
theorem pullsAll_iff (rt : Codec V) (db : Db) (now : ℤ) (queue : String) (n : ℕ)
    (timeout : Option ℤ) {uuid : ℕ → String} (huuid : Function.Injective uuid)
    (hfree : ∀ i, db.leases.get? (uuid i) = none) :
    PullsAll rt db now queue n timeout uuid ↔ db.Unhidden rt now queue n := by
  let p : String × Message → Bool := fun x => !db.underLease x.1 now && x.2.contentType ≠ .v8
  let q : String × Message → Bool := fun x => x.2.contentType ≠ .v8
  have hpq : ∀ x, p x = true → q x = true := fun x hx => (Bool.and_eq_true_iff.mp hx).2
  have hrows : ∀ x ∈ ((db.waiting now queue).take n).filter q,
      db.messages.get? x.1 = some x.2 := fun x hx =>
    get?_of_mem_waiting (List.mem_of_mem_take (List.mem_of_mem_filter hx))
  have helig : ∀ x ∈ db.waiting now queue, db.eligible now queue x = p x := by
    intro x hx
    have hdue := (Bool.and_eq_true_iff.mp (List.mem_filter.mp hx).2).1
    simp only [Db.eligible, hdue, Bool.true_and, p]
  have hfree' : ∀ i, 0 ≤ i → (db.deleteExpired now queue).leases.get? (uuid i) = none := by
    intro i _
    rw [Db.deleteExpired, Table.get?_filter, hfree i]
    rfl
  have hlists := filter_take_eq_take_filter_iff (l := db.waiting now queue) (n := n) hpq
  constructor
  · rintro ⟨messages, hpull, hmessages⟩
    rw [nextEligible_eq] at hmessages
    rcases pull_cases rt db now queue ⟨some n, timeout⟩ uuid with ⟨s, hloop, heq⟩ | ⟨e, heq⟩
    · rw [heq] at hpull
      obtain rfl := Except.ok.inj hpull
      rw [validRows_eq] at hloop
      obtain ⟨_, hs, hshown⟩ := shows_of_leaseRows hloop
      rw [List.nil_append] at hs
      rw [← hs] at hshown
      have hsame := hlists.mp (eq_of_shows hshown hmessages hrows fun x hx =>
        get?_of_mem_waiting (List.mem_of_mem_filter (List.mem_of_mem_take hx)))
      refine ⟨fun x hx hv8 => ⟨?_, ?_⟩, ?_⟩
      · have hpx := hsame.1 x hx (decide_eq_true hv8)
        simpa using (Bool.and_eq_true_iff.mp hpx).1
      · exact decodes_of_shows hshown x (List.mem_filter.mpr ⟨hx, decide_eq_true hv8⟩)
      · refine hsame.2.imp (fun hall x hx => ?_) fun hnone x hx => ?_
        · simpa [q] using hpq x (hall x hx)
        · rw [helig x (List.mem_of_mem_drop hx)]
          simpa using hnone x hx
    · rw [heq] at hpull
      cases hpull
  · rintro ⟨hreturnable, hfront⟩
    have hsame : ((db.waiting now queue).take n).filter q =
        ((db.waiting now queue).filter p).take n := by
      have hqp : ∀ x ∈ (db.waiting now queue).take n, q x = true → p x = true := by
        intro x hx hqx
        simp only [p, (hreturnable x hx (of_decide_eq_true hqx)).1, Bool.not_false, Bool.true_and]
        exact hqx
      refine hlists.mpr ⟨hqp, hfront.imp (fun hall x hx => ?_) fun hnone x hx => ?_⟩
      · exact hqp x hx (decide_eq_true (hall x hx))
      · rw [← helig x (List.mem_of_mem_drop hx), hnone x hx]
        exact Bool.false_ne_true
    obtain ⟨s, hloop⟩ : ∃ s, ((((db.waiting now queue).take n).filter q).zipIdx 0).foldlM
        (leaseRow rt queue (now + timeout.getD 30000) uuid) (db.deleteExpired now queue, []) =
          .ok s :=
      leaseRows_of_decodes huuid hfree' fun x hx =>
        (hreturnable x (List.mem_of_mem_filter hx) (of_decide_eq_true (List.mem_filter.mp hx).2)).2
    obtain ⟨messages, hs, hshown⟩ := shows_of_leaseRows hloop
    refine ⟨messages, ?_, ?_⟩
    · rw [pull, validRows_eq]
      simp only [q] at hloop
      simp only [hloop, hs, List.nil_append]
    · rwa [nextEligible_eq, ← hsame]

/-- Two messages, the first of content type `v8`. -/
def v8First : Db where
  messages :=
    (Table.empty.insert "m1" ⟨"jobs", [0x31], .v8, 0, .pending, 0, 0, none⟩).insert "m2"
      ⟨"jobs", [0x32], .json, 0, .pending, 0, 0, none⟩
  leases := .empty

/-- Lease ids. -/
def leaseIds (i : ℕ) : String := String.ofList (List.replicate i 'l')

theorem leaseIds_injective : Function.Injective leaseIds := by
  intro i j h
  simpa using congrArg List.length (String.ofList_injective h)

/-- A pull of both messages finds the second one. -/
theorem pullsAll_v8First : PullsAll jsonText v8First 0 "jobs" 2 none leaseIds :=
  (pullsAll_iff jsonText v8First 0 "jobs" 2 none leaseIds_injective fun _ => rfl).mpr
    ⟨by decide, .inr (by decide)⟩

/-- A pull of one message does not: the `v8` message takes its place. -/
theorem not_pullsAll : ¬ PullsAll jsonText v8First 0 "jobs" 1 none leaseIds := by
  rintro ⟨messages, hpull, hshown⟩
  have hnone : (pull jsonText v8First 0 "jobs" ⟨some 1, none⟩ leaseIds).2.toOption.map
      List.length = some 0 := by
    decide
  have hone : (v8First.nextEligible 0 "jobs" 1).length = 1 := by
    decide
  rw [show (1 : ℤ) = ((1 : ℕ) : ℤ) from rfl, hpull] at hnone
  have hlen := hshown.length_eq
  rw [hone, Option.some.inj hnone] at hlen
  cases hlen

end Lopata.Queue
