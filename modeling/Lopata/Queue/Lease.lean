import Lopata.Queue.Finality

/-!
# Pull Leases

A queue that is pulled from has no push consumer: its messages are inserted, leased by `pull`
and settled by `ack`, under a clock that does not go back. A lease is current while it has not
expired, and `pull` leases messages without a current lease only.

## Main results

* `Held.pull`, `Held.ack`: one current lease for a message is kept by `pull` and `ack`.
* `leases_safe`: in every state a run reaches, each message has at most one current lease, `pull`
  returns none that has one and none that was acked, `ack` changes a message only through its
  current lease, and a message that was not acked stays in its queue, pending.
-/

namespace Lopata.Queue

/-- The lease `k` is current and is one of the message. -/
def Db.current (db : Db) (now : ℤ) (k : String) (id : String) : Prop :=
  ∃ l, db.leases.get? k = some l ∧ l.messageId = id ∧ now < l.expiresAt

/-- The lease ids an `ack` names. -/
def AckRequest.leaseIds (request : AckRequest) : List String :=
  request.acks.getD [] ++ (request.retries.getD []).map Prod.fst

/-- The messages of which a list of lease ids names current leases. -/
def Db.named (db : Db) (now : ℤ) (queue : String) (leaseIds : List String) : List String :=
  leaseIds.filterMap fun k => (db.findLease now k queue).map Lease.messageId

/-- A message has one current lease, and a lease is in the queue of its message. -/
structure Held (db : Db) (now : ℤ) : Prop where
  single : ∀ k k' id, db.current now k id → db.current now k' id → k = k'
  home : ∀ k l, db.leases.get? k = some l →
    ∃ m, db.messages.get? l.messageId = some m ∧ m.queue = l.queue

/-- The messages of one table are in the other, in the same queues. -/
structure Stays (db db' : Db) : Prop where
  row : ∀ id m, db.messages.get? id = some m →
    ∃ m', db'.messages.get? id = some m' ∧ m'.queue = m.queue

section Leases

variable {db db' db'' : Db} {now : ℤ} {queue k id : String} {m : Message} {l : Lease}

theorem Db.findLease_iff :
    db.findLease now k queue = some l ↔
      db.leases.get? k = some l ∧ l.queue = queue ∧ now < l.expiresAt := by
  simp [Db.findLease, Option.filter_eq_some_iff]

theorem Db.current_of_findLease (h : db.findLease now k queue = some l) :
    db.current now k l.messageId := by
  obtain ⟨hl, -, hnow⟩ := Db.findLease_iff.mp h
  exact ⟨l, hl, rfl, hnow⟩

theorem Stays.refl (db : Db) : Stays db db :=
  ⟨fun _ m hm => ⟨m, hm, rfl⟩⟩

theorem Stays.trans (h : Stays db db') (h' : Stays db' db'') : Stays db db'' := by
  refine ⟨fun id m hm => ?_⟩
  obtain ⟨m', hm', hqueue⟩ := h.row id m hm
  obtain ⟨m'', hm'', hqueue'⟩ := h'.row id m' hm'
  exact ⟨m'', hm'', hqueue'.trans hqueue⟩

theorem stays_of_messages_eq (h : db'.messages = db.messages) : Stays db db' :=
  ⟨fun _ m hm => ⟨m, h ▸ hm, rfl⟩⟩

theorem stays_update {f : Message → Message} (hf : ∀ m, (f m).queue = m.queue) :
    Stays db (db.update id f) := by
  refine ⟨fun id' m hm => ?_⟩
  rw [get?_update, hm]
  split
  · exact ⟨f m, rfl, hf m⟩
  · exact ⟨m, rfl, rfl⟩

/-- Leases that are left, of messages that stay. -/
theorem Held.of_sub (h : Held db now) (hstays : Stays db db')
    (hsub : ∀ k l, db'.leases.get? k = some l → db.leases.get? k = some l) : Held db' now where
  single k k' id hk hk' := by
    obtain ⟨l, hl, hid, hnow⟩ := hk
    obtain ⟨l', hl', hid', hnow'⟩ := hk'
    exact h.single k k' id ⟨l, hsub k l hl, hid, hnow⟩ ⟨l', hsub k' l' hl', hid', hnow'⟩
  home k l hl := by
    obtain ⟨m, hm, hqueue⟩ := h.home k l (hsub k l hl)
    obtain ⟨m', hm', hqueue'⟩ := hstays.row _ m hm
    exact ⟨m', hm', hqueue'.trans hqueue⟩

/-- Time passes: fewer leases are current. -/
theorem Held.later {now' : ℤ} (h : Held db now) (hle : now ≤ now') : Held db now' where
  single k k' id hk hk' := by
    obtain ⟨l, hl, hid, hnow⟩ := hk
    obtain ⟨l', hl', hid', hnow'⟩ := hk'
    exact h.single k k' id ⟨l, hl, hid, by omega⟩ ⟨l', hl', hid', by omega⟩
  home := h.home

/-! ### `ack` -/

theorem leases_ackLease {s : Db × ℕ} {l : Lease} {k' : String}
    (h : (ackLease now queue s k).1.leases.get? k' = some l) : s.1.leases.get? k' = some l := by
  simp only [ackLease] at h
  split at h
  · exact h
  · have h : (s.1.leases.erase k).get? k' = some l := h
    exact (Table.of_get?_erase h).2

theorem leases_retryLease {s : Db × ℕ} {p : String × Option ℤ} {l : Lease} {k' : String}
    (h : (retryLease now queue s p).1.leases.get? k' = some l) : s.1.leases.get? k' = some l := by
  simp only [retryLease] at h
  split at h
  · exact h
  · have h : (s.1.leases.erase p.1).get? k' = some l := h
    exact (Table.of_get?_erase h).2

theorem stays_ackLease (s : Db × ℕ) : Stays s.1 (ackLease now queue s k).1 := by
  simp only [ackLease]
  split
  · exact Stays.refl _
  · exact (stays_update (f := (·.acked now)) fun _ => rfl).trans (stays_of_messages_eq rfl)

theorem stays_retryLease (s : Db × ℕ) (p : String × Option ℤ) :
    Stays s.1 (retryLease now queue s p).1 := by
  simp only [retryLease]
  split
  · exact Stays.refl _
  · exact (stays_update (f := (·.postponed (now + p.2.getD 0 * 1000))) fun _ => rfl).trans
      (stays_of_messages_eq rfl)

/-- What every turn of a loop keeps, the loop keeps. -/
theorem foldl_keeps_mem {α : Type} {P : Db × ℕ → Prop} {f : Db × ℕ → α → Db × ℕ} {as : List α}
    {s : Db × ℕ} (hf : ∀ s, ∀ a ∈ as, P s → P (f s a)) (hs : P s) : P (as.foldl f s) := by
  induction as generalizing s with
  | nil => exact hs
  | cons a as ih =>
    exact ih (fun s b hb => hf s b (List.mem_cons_of_mem a hb)) (hf s a List.mem_cons_self hs)

theorem foldl_keeps {α : Type} {P : Db × ℕ → Prop} {f : Db × ℕ → α → Db × ℕ}
    (hf : ∀ s a, P s → P (f s a)) (as : List α) {s : Db × ℕ} (hs : P s) : P (as.foldl f s) :=
  foldl_keeps_mem (fun s a _ => hf s a) hs

/-- A lease is found as long as it is not deleted. -/
theorem findLease_deleteLease (k' : String) :
    (db.deleteLease k).findLease now k' queue =
      if k' = k then none else db.findLease now k' queue := by
  show Option.filter _ ((db.leases.erase k).get? k') = _
  rw [Table.get?_erase]
  split
  · rfl
  · rfl

/-- The messages named by a list of lease ids, one id after the other. -/
theorem mem_named_cons {ks : List String} (hk : db.findLease now k queue = some l) :
    id ∈ db.named now queue (k :: ks) ↔
      id = l.messageId ∨ id ∈ (db.deleteLease k).named now queue ks := by
  rw [Db.named, List.filterMap_cons_some (by rw [hk]; rfl), List.mem_cons]
  simp only [Db.named, List.mem_filterMap, findLease_deleteLease]
  constructor
  · rintro (rfl | ⟨k', hk', hname⟩)
    · exact .inl rfl
    · by_cases heq : k' = k
      · rw [heq, hk] at hname
        exact .inl (Option.some.inj hname).symm
      · exact .inr ⟨k', hk', by rw [if_neg heq]; exact hname⟩
  · rintro (rfl | ⟨k', hk', hname⟩)
    · exact .inl rfl
    · split at hname
      · cases hname
      · exact .inr ⟨k', hk', hname⟩

/-- The acks of a request: a message is acked if one of them names its current lease. -/
theorem get?_foldl_ackLease (now : ℤ) (queue id : String) (ks : List String) (s : Db × ℕ) :
    (ks.foldl (ackLease now queue) s).1.messages.get? id =
      if id ∈ s.1.named now queue ks then (s.1.messages.get? id).map (·.acked now)
      else s.1.messages.get? id := by
  induction ks generalizing s with
  | nil => rfl
  | cons k ks ih =>
    rw [List.foldl_cons, ih]
    cases hk : s.1.findLease now k queue with
    | none =>
      have hnamed : s.1.named now queue (k :: ks) = s.1.named now queue ks := by
        rw [Db.named, List.filterMap_cons_none (by rw [hk]; rfl), Db.named]
      rw [ackLease, hk, hnamed]
    | some l =>
      have hleases : (ackLease now queue s k).1.named now queue ks =
          (s.1.deleteLease k).named now queue ks := by rw [ackLease, hk]; rfl
      have hget : (ackLease now queue s k).1.messages.get? id =
          if id = l.messageId then (s.1.messages.get? id).map (·.acked now)
          else s.1.messages.get? id := by
        rw [ackLease, hk]
        exact get?_update _
      rw [hget, hleases]
      by_cases hid : id = l.messageId
      · -- acked by this lease, perhaps by another one too
        rw [if_pos hid, if_pos ((mem_named_cons hk).mpr (.inl hid))]
        split
        · cases s.1.messages.get? id <;> rfl
        · rfl
      · rw [if_neg hid]
        by_cases hrest : id ∈ (s.1.deleteLease k).named now queue ks
        · rw [if_pos hrest, if_pos ((mem_named_cons hk).mpr (.inr hrest))]
        · rw [if_neg hrest, if_neg fun h => ((mem_named_cons hk).mp h).elim hid hrest]

/-- The retries of a request leave the status of every message as it is, and change a message
only through a current lease. -/
theorem get?_foldl_retryLease (now : ℤ) (queue : String) (ps : List (String × Option ℤ))
    (s : Db × ℕ)
    (hm : s.1.messages.get? id = some m) :
    ∃ m', (ps.foldl (retryLease now queue) s).1.messages.get? id = some m' ∧
      m'.status = m.status ∧
        (m' ≠ m → ∃ k ∈ ps.map Prod.fst, s.1.current now k id) := by
  induction ps generalizing s m with
  | nil => exact ⟨m, hm, rfl, fun h => absurd rfl h⟩
  | cons p ps ih =>
    rw [List.foldl_cons]
    obtain ⟨m₁, hm₁, hstatus₁, hchange₁⟩ :
        ∃ m₁, (retryLease now queue s p).1.messages.get? id = some m₁ ∧
          m₁.status = m.status ∧ (m₁ ≠ m → s.1.current now p.1 id) := by
      simp only [retryLease]
      split
      · exact ⟨m, hm, rfl, fun h => absurd rfl h⟩
      · next l hl =>
          by_cases hid : id = l.messageId
          · refine ⟨m.postponed (now + p.2.getD 0 * 1000), ?_, rfl, fun _ => ?_⟩
            · refine (get?_update _).trans ?_
              rw [if_pos hid, hm]
              rfl
            · exact hid ▸ Db.current_of_findLease hl
          · refine ⟨m, ?_, rfl, fun h => absurd rfl h⟩
            refine (get?_update _).trans ?_
            rw [if_neg hid, hm]
    obtain ⟨m', hm', hstatus', hchange'⟩ := ih _ hm₁
    refine ⟨m', hm', hstatus'.trans hstatus₁, fun hne => ?_⟩
    by_cases heq : m₁ = m
    · obtain ⟨k, hk, l, hl, hrest⟩ := hchange' (heq ▸ hne)
      exact ⟨k, List.mem_cons_of_mem _ hk, l, leases_retryLease hl, hrest⟩
    · exact ⟨p.1, List.mem_cons_self, hchange₁ heq⟩

theorem Held.ack (h : Held db now) (queue : String) (request : AckRequest) :
    Held (ack db now queue request).1 now ∧ Stays db (ack db now queue request).1 := by
  have hacks := foldl_keeps (P := fun s : Db × ℕ => Held s.1 now ∧ Stays db s.1)
    (f := ackLease now queue)
    (fun s k hs => ⟨hs.1.of_sub (stays_ackLease s) fun _ _ => leases_ackLease,
      hs.2.trans (stays_ackLease s)⟩)
    (request.acks.getD []) (s := (db, 0)) ⟨h, Stays.refl db⟩
  exact foldl_keeps (P := fun s : Db × ℕ => Held s.1 now ∧ Stays db s.1)
    (f := retryLease now queue)
    (fun s p hs => ⟨hs.1.of_sub (stays_retryLease s p) fun _ _ => leases_retryLease,
      hs.2.trans (stays_retryLease s p)⟩)
    (request.retries.getD []) (s := (_, 0)) hacks

/-- `ack` changes a message only through its current lease, and acks it if the lease is among the
acks. -/
theorem get?_ack (now : ℤ) (queue : String) (request : AckRequest)
    (hm : db.messages.get? id = some m) :
    ∃ m', (Queue.ack db now queue request).1.messages.get? id = some m' ∧
      m'.status = (if id ∈ db.named now queue (request.acks.getD []) then .acked
        else m.status) ∧
      (m' ≠ m → ∃ k ∈ request.leaseIds, db.current now k id) := by
  have hacks := get?_foldl_ackLease now queue id (request.acks.getD []) (db, 0)
  have hleases : ∀ k l, ((request.acks.getD []).foldl (ackLease now queue)
      (db, 0)).1.leases.get? k = some l → db.leases.get? k = some l :=
    foldl_keeps (P := fun s : Db × ℕ => ∀ k l, s.1.leases.get? k = some l →
      db.leases.get? k = some l) (fun s k hs k' l hl => hs k' l (leases_ackLease hl)) _
      fun _ _ hl => hl
  rw [hm] at hacks
  by_cases hnamed : id ∈ db.named now queue (request.acks.getD [])
  · rw [if_pos hnamed] at hacks
    obtain ⟨m', hm', hstatus, -⟩ :=
      get?_foldl_retryLease now queue (request.retries.getD []) (_, 0) hacks
    refine ⟨m', hm', by rw [if_pos hnamed, hstatus]; rfl, fun _ => ?_⟩
    obtain ⟨k, hk, hname⟩ := List.mem_filterMap.mp hnamed
    obtain ⟨l, hl, rfl⟩ := Option.map_eq_some_iff.mp hname
    exact ⟨k, List.mem_append_left _ hk, Db.current_of_findLease hl⟩
  · rw [if_neg hnamed] at hacks
    obtain ⟨m', hm', hstatus, hchange⟩ :=
      get?_foldl_retryLease now queue (request.retries.getD []) (_, 0) hacks
    refine ⟨m', hm', by rw [if_neg hnamed, hstatus], fun hne => ?_⟩
    obtain ⟨k, hk, l, hl, hrest⟩ := hchange hne
    exact ⟨k, List.mem_append_right _ hk, l, hleases k l hl, hrest⟩

/-- `ack` deletes the current leases it names, and no others. -/
theorem leases_ack (request : AckRequest) (hl : db.leases.get? k = some l) :
    (Queue.ack db now queue request).1.leases.get? k = some l ∨
      (k ∈ request.leaseIds ∧ db.current now k l.messageId) := by
  by_cases hk : k ∈ request.leaseIds ∧ db.current now k l.messageId
  · exact .inr hk
  · refine .inl ?_
    have hacks : ((request.acks.getD []).foldl (ackLease now queue) (db, 0)).1.leases.get? k =
        some l := by
      refine foldl_keeps_mem (P := fun s : Db × ℕ => s.1.leases.get? k = some l) ?_ hl
      intro s k' hk' hs
      rw [ackLease]
      cases hfind : s.1.findLease now k' queue with
      | none => exact hs
      | some l' =>
        refine (Table.get?_erase ..).trans ?_
        rw [if_neg, Db.update]
        · exact hs
        · rintro rfl
          obtain ⟨hl', -, hnow⟩ := Db.findLease_iff.mp hfind
          obtain rfl := Option.some.inj (hs.symm.trans hl')
          exact hk ⟨List.mem_append_left _ hk', l, hl, rfl, hnow⟩
    refine foldl_keeps_mem (P := fun s : Db × ℕ => s.1.leases.get? k = some l) ?_ hacks
    intro s p hp hs
    rw [retryLease]
    cases hfind : s.1.findLease now p.1 queue with
    | none => exact hs
    | some l' =>
      refine (Table.get?_erase ..).trans ?_
      rw [if_neg, Db.update]
      · exact hs
      · rintro rfl
        obtain ⟨hl', -, hnow⟩ := Db.findLease_iff.mp hfind
        obtain rfl := Option.some.inj (hs.symm.trans hl')
        exact hk ⟨List.mem_append_right _ (List.mem_map_of_mem hp), l, hl, rfl, hnow⟩

end Leases

/-! ### `pull` -/

section Pull

variable {V : Type} {rt : Codec V} {db : Db} {now expiresAt : ℤ} {queue k id : String}
  {uuid : ℕ → String} {s s' : Db × List (PullMessage V)} {p : (String × Message) × ℕ}

/-- The leases after one turn of `pull`: those before it and the new one. -/
theorem current_leaseRow (hturn : leaseRow rt queue expiresAt uuid s p = .ok s')
    (hk : s'.1.current now k id) :
    (k = uuid p.2 ∧ id = p.1.1) ∨ (k ≠ uuid p.2 ∧ s.1.current now k id) := by
  obtain ⟨db, x, hlease, hdb, -, -, -⟩ := leaseRow_ok hturn
  obtain ⟨-, rfl⟩ := insertLease_eq_some hlease
  obtain ⟨l, hl, hid, hnow⟩ := hk
  rw [hdb] at hl
  have hl : (s.1.leases.insert (uuid p.2) ⟨p.1.1, queue, expiresAt⟩).get? k = some l := hl
  rcases Table.of_get?_insert hl with ⟨heq, rfl⟩ | ⟨hne, hl⟩
  · exact .inl ⟨heq, hid.symm⟩
  · exact .inr ⟨hne, l, hl, hid, hnow⟩

theorem stays_leaseRow (hturn : leaseRow rt queue expiresAt uuid s p = .ok s') :
    Stays s.1 s'.1 := by
  obtain ⟨db, x, hlease, hdb, -, -, -⟩ := leaseRow_ok hturn
  obtain ⟨-, hinsert⟩ := insertLease_eq_some hlease
  have hleases : Stays s.1 db := stays_of_messages_eq (by rw [hinsert])
  rw [hdb]
  exact hleases.trans (stays_update fun _ => rfl)

/-- One turn of `pull` leases a message of the queue that has no current lease. -/
theorem Held.leaseRow (h : Held s.1 now) (hfree : ∀ k, ¬ s.1.current now k p.1.1)
    (hrow : ∃ m, s.1.messages.get? p.1.1 = some m ∧ m.queue = queue)
    (hturn : leaseRow rt queue expiresAt uuid s p = .ok s') : Held s'.1 now where
  single k k' id hk hk' := by
    rcases current_leaseRow hturn hk with ⟨rfl, rfl⟩ | ⟨-, hk⟩
    · rcases current_leaseRow hturn hk' with ⟨rfl, -⟩ | ⟨-, hk'⟩
      · rfl
      · exact absurd hk' (hfree k')
    · rcases current_leaseRow hturn hk' with ⟨-, rfl⟩ | ⟨-, hk'⟩
      · exact absurd hk (hfree k)
      · exact h.single k k' id hk hk'
  home k l hl := by
    obtain ⟨m, hm, hqueue⟩ : ∃ m, s.1.messages.get? l.messageId = some m ∧ m.queue = l.queue := by
      obtain ⟨db, x, hlease, hdb, -, -, -⟩ := leaseRow_ok hturn
      obtain ⟨-, rfl⟩ := insertLease_eq_some hlease
      rw [hdb] at hl
      have hl : (s.1.leases.insert (uuid p.2) ⟨p.1.1, queue, expiresAt⟩).get? k = some l := hl
      rcases Table.of_get?_insert hl with ⟨-, rfl⟩ | ⟨-, hl⟩
      · exact hrow
      · exact h.home k l hl
    obtain ⟨m', hm', hqueue'⟩ := (stays_leaseRow hturn).row _ m hm
    exact ⟨m', hm', hqueue'.trans hqueue⟩

/-- The loop of `pull` over distinct messages of the queue without a current lease. -/
theorem Held.leaseRows {rows : List ((String × Message) × ℕ)} (h : Held s.1 now)
    (hnodup : (rows.map (Prod.fst ∘ Prod.fst)).Nodup)
    (hfree : ∀ p ∈ rows, ∀ k, ¬ s.1.current now k p.1.1)
    (hrow : ∀ p ∈ rows, ∃ m, s.1.messages.get? p.1.1 = some m ∧ m.queue = queue)
    (hloop : rows.foldlM (Queue.leaseRow rt queue expiresAt uuid) s = .ok s') :
    Held s'.1 now ∧ Stays s.1 s'.1 := by
  induction rows generalizing s with
  | nil =>
    obtain rfl := Except.ok.inj hloop
    exact ⟨h, Stays.refl _⟩
  | cons p rows ih =>
    obtain ⟨hp, hnodup⟩ := List.nodup_cons.mp hnodup
    rw [List.foldlM_cons] at hloop
    cases hturn : Queue.leaseRow rt queue expiresAt uuid s p with
    | error e =>
      rw [hturn] at hloop
      cases hloop
    | ok t =>
      rw [hturn] at hloop
      have ht : Held t.1 now :=
        h.leaseRow (hfree p List.mem_cons_self) (hrow p List.mem_cons_self) hturn
      have hstays : Stays s.1 t.1 := stays_leaseRow hturn
      have hfree' : ∀ q ∈ rows, ∀ k, ¬ t.1.current now k q.1.1 := by
        intro q hq k hk
        rcases current_leaseRow hturn hk with ⟨-, heq⟩ | ⟨-, hk⟩
        · exact hp (List.mem_map.mpr ⟨q, hq, heq⟩)
        · exact hfree q (List.mem_cons_of_mem _ hq) k hk
      have hrow' : ∀ q ∈ rows, ∃ m, t.1.messages.get? q.1.1 = some m ∧ m.queue = queue := by
        intro q hq
        obtain ⟨m, hm, hqueue⟩ := hrow q (List.mem_cons_of_mem _ hq)
        obtain ⟨m', hm', hqueue'⟩ := hstays.row _ m hm
        exact ⟨m', hm', hqueue'.trans hqueue⟩
      obtain ⟨hs', hrest⟩ := ih ht hnodup hfree' hrow' hloop
      exact ⟨hs', hstays.trans hrest⟩

theorem leases_deleteExpired {l : Lease}
    (h : (db.deleteExpired now queue).leases.get? k = some l) : db.leases.get? k = some l := by
  rw [Db.deleteExpired, Table.get?_filter, Option.filter_eq_some_iff] at h
  exact h.1

theorem Held.deleteExpired (h : Held db now) : Held (db.deleteExpired now queue) now :=
  h.of_sub (stays_of_messages_eq rfl) fun _ _ => leases_deleteExpired

/-- A current lease is not deleted with the expired ones. -/
theorem current_deleteExpired :
    (db.deleteExpired now queue).current now k id ↔ db.current now k id := by
  constructor
  · rintro ⟨l, hl, hrest⟩
    exact ⟨l, leases_deleteExpired hl, hrest⟩
  · rintro ⟨l, hl, hid, hnow⟩
    refine ⟨l, ?_, hid, hnow⟩
    rw [Db.deleteExpired, Table.get?_filter, hl, Option.filter_some_pos]
    simp [hnow]

/-- The rows `pull` leases are pending messages of its queue without a current lease. -/
theorem Held.of_mem_validRows {options : PullRequest} {m : Message} (h : Held db now)
    (hrow : (id, m) ∈ validRows db now queue options) :
    db.messages.get? id = some m ∧ m.queue = queue ∧ m.status = .pending ∧
      ∀ k, ¬ db.current now k id := by
  obtain ⟨hm, hdue, hleased⟩ := Db.of_mem_pullable (List.mem_of_mem_filter hrow)
  obtain ⟨hqueue, hstatus, -⟩ := Message.due_iff.mp hdue
  refine ⟨hm, hqueue, hstatus, ?_⟩
  rintro k ⟨l, hl, rfl, hnow⟩
  obtain ⟨m', hm', hqueue'⟩ := h.home k l hl
  obtain rfl := Option.some.inj (hm.symm.trans hm')
  have hin : db.leased l.messageId now queue = true := by
    refine List.any_eq_true.mpr ⟨_, Table.mem_of_get? hl, ?_⟩
    simp [← hqueue', hqueue, hnow]
  rw [hleased] at hin
  cases hin

theorem Held.pull (h : Held db now) (rt : Codec V) (queue : String) (options : PullRequest)
    (uuid : ℕ → String) :
    Held (Queue.pull rt db now queue options uuid).1 now ∧
      Stays db (Queue.pull rt db now queue options uuid).1 := by
  have hclean : Held (db.deleteExpired now queue) now := h.deleteExpired
  have hstays : Stays db (db.deleteExpired now queue) := stays_of_messages_eq rfl
  rcases pull_cases rt db now queue options uuid with ⟨s, hloop, hpull⟩ | ⟨e, hpull⟩
  · rw [hpull]
    have hrows : ∀ p ∈ (validRows (db.deleteExpired now queue) now queue options).zipIdx,
        p.1 ∈ validRows (db.deleteExpired now queue) now queue options :=
      fun p hp => List.fst_mem_of_mem_zipIdx hp
    have hnodup : ((validRows (db.deleteExpired now queue) now queue options).zipIdx.map
        (Prod.fst ∘ Prod.fst)).Nodup := by
      rw [← List.map_map, List.zipIdx_map_fst]
      exact (List.filter_sublist.map Prod.fst).nodup (nodup_ids_firstBy _)
    obtain ⟨hheld, hrest⟩ := hclean.leaseRows hnodup
      (fun p hp => (hclean.of_mem_validRows (hrows p hp)).2.2.2)
      (fun p hp => ⟨p.1.2, (hclean.of_mem_validRows (hrows p hp)).1,
        (hclean.of_mem_validRows (hrows p hp)).2.1⟩) hloop
    exact ⟨hheld, hstays.trans hrest⟩
  · rw [hpull]
    exact ⟨hclean, hstays⟩

/-- `pull` returns pending messages without a current lease. -/
theorem Held.of_mem_pull {options : PullRequest} {messages : List (PullMessage V)}
    {x : PullMessage V} (h : Held db now)
    (hpull : (Queue.pull rt db now queue options uuid).2 = .ok messages) (hx : x ∈ messages) :
    (∃ m, db.messages.get? x.id = some m ∧ m.status = .pending) ∧
      ∀ k, ¬ db.current now k x.id := by
  obtain ⟨m, hm⟩ := mem_validRows_of_pull hpull hx
  obtain ⟨hget, -, hstatus, hfree⟩ := h.deleteExpired.of_mem_validRows hm
  exact ⟨⟨m, hget, hstatus⟩, fun k hk => hfree k (current_deleteExpired.mpr hk)⟩

/-- `pull` leaves the status of every message as it is. -/
theorem status_pull (rt : Codec V) (now : ℤ) (queue : String) (options : PullRequest)
    (uuid : ℕ → String) {m : Message} (hm : db.messages.get? id = some m) :
    ∃ m', (Queue.pull rt db now queue options uuid).1.messages.get? id = some m' ∧
      m'.status = m.status := by
  rcases pull_cases rt db now queue options uuid with ⟨s, hloop, hpull⟩ | ⟨e, hpull⟩
  · rw [hpull]
    refine foldlM_leaseRow (P := fun s => ∃ m', s.1.messages.get? id = some m' ∧
      m'.status = m.status) ⟨m, hm, rfl⟩ ?_ hloop
    rintro s s' p - ⟨m', hm', hstatus⟩ hturn
    obtain ⟨db, x, hlease, hdb, -, -, -⟩ := leaseRow_ok hturn
    obtain ⟨-, rfl⟩ := insertLease_eq_some hlease
    rw [hdb, get?_update]
    split
    · exact ⟨m'.claimed, by rw [hm']; rfl, hstatus⟩
    · exact ⟨m', hm', hstatus⟩
  · rw [hpull]
    exact ⟨m, hm, rfl⟩

end Pull

/-! ### Runs -/

/-- A state and the messages acked through a lease so far. -/
structure Leasing where
  world : World
  acked : List String

/-- The messages an `ack` acks through their leases. -/
def ackedBy {V : Type} (w : World) : Action V → List String
  | .ack queue request => w.db.named w.clock queue (request.acks.getD [])
  | _ => []

namespace Leasing

variable {V : Type}

/-- Any messages, no leases. -/
def start (messages : Table String Message) (now : ℤ) : Leasing :=
  ⟨.start ⟨messages, .empty⟩ now, []⟩

/-- A step, and what is acked after it. -/
def step (rt : Codec V) (cfg : ℕ → ConsumerConfig) (h : Leasing) (a : Action V) : Option Leasing :=
  (act rt cfg h.world a).map fun w => ⟨w, ackedBy h.world a ++ h.acked⟩

end Leasing

/-- The steps of a queue that is pulled from, under a clock that does not go back. -/
def pullSide {V : Type} (h : Leasing) : Action V → Prop
  | .clock time => h.world.clock ≤ time
  | .send .. | .sendBatch .. | .pull .. | .ack .. => True
  | .poll _ | .handled .. | .settle _ => False

instance {V : Type} (h : Leasing) : (a : Action V) → Decidable (pullSide h a)
  | .clock _ => inferInstanceAs (Decidable (_ ≤ _))
  | .send .. | .sendBatch .. | .pull .. | .ack .. => inferInstanceAs (Decidable True)
  | .poll _ | .handled .. | .settle _ => inferInstanceAs (Decidable False)

/-- The invariant: what was acked is not pending, and ids are drawn before they are used. -/
structure Leased (h : Leasing) : Prop where
  held : Held h.world.db h.world.clock
  issued : ∀ id m, h.world.db.messages.get? id = some m → id ∈ h.world.issued
  drawn : ∀ id ∈ h.acked, id ∈ h.world.issued
  final : ∀ id ∈ h.acked, ∀ m, h.world.db.messages.get? id = some m → m.status ≠ .pending

/-- From one state to a later one the messages that are not acked stay as they are: in their
queues and, if they were pending, pending. -/
structure Remains (h h' : Leasing) : Prop where
  acked : ∀ id ∈ h.acked, id ∈ h'.acked
  row : ∀ id m, h.world.db.messages.get? id = some m → id ∉ h'.acked →
    ∃ m', h'.world.db.messages.get? id = some m' ∧ m'.queue = m.queue ∧ m'.status = m.status

section Runs

variable {V : Type} {rt : Codec V} {cfg : ℕ → ConsumerConfig} {h h' h'' : Leasing} {a : Action V}
  {w w' : World} {id : String} {m : Message}

theorem Remains.refl (h : Leasing) : Remains h h :=
  ⟨fun _ => id, fun _ m hm _ => ⟨m, hm, rfl, rfl⟩⟩

theorem Remains.trans (hr : Remains h h') (hr' : Remains h' h'') : Remains h h'' := by
  refine ⟨fun id hid => hr'.acked id (hr.acked id hid), fun id m hm hacked => ?_⟩
  obtain ⟨m', hm', hqueue, hstatus⟩ := hr.row id m hm fun hid => hacked (hr'.acked id hid)
  obtain ⟨m'', hm'', hqueue', hstatus'⟩ := hr'.row id m' hm' hacked
  exact ⟨m'', hm'', hqueue'.trans hqueue, hstatus'.trans hstatus⟩

/-- What a step of the pull side does: it keeps the leases of messages in order, deletes no
message and changes the status of the messages it acks only. -/
theorem step_pullSide (hheld : Held h.world.db h.world.clock) (hok : pullSide h a)
    (hact : act rt cfg h.world a = some w') :
    Held w'.db w'.clock ∧
      ∀ id m, h.world.db.messages.get? id = some m →
        ∃ m', w'.db.messages.get? id = some m' ∧ m'.queue = m.queue ∧
          m'.status = if id ∈ ackedBy h.world a then .acked else m.status := by
  -- the statements that insert rows or do nothing
  have hinsert : ∀ {rows : List (String × Message)}, h.world.insert rows = some w' →
      Held w'.db w'.clock ∧ ∀ id m, h.world.db.messages.get? id = some m →
        ∃ m', w'.db.messages.get? id = some m' ∧ m'.queue = m.queue ∧ m'.status = m.status := by
    intro rows hrows
    simp only [World.insert] at hrows
    split at hrows
    · obtain ⟨db, hdb, rfl⟩ := Option.map_eq_some_iff.mp hrows
      obtain ⟨-, hkept, hleases⟩ := get?_insertMessages hdb
      refine ⟨hheld.of_sub ⟨fun id m hm => ⟨m, hkept id m hm, rfl⟩⟩ ?_, fun id m hm =>
        ⟨m, hkept id m hm, rfl, rfl⟩⟩
      exact fun k l hl => hleases ▸ hl
    · cases hrows
  have hsame : ∀ id m, h.world.db.messages.get? id = some m →
      ∃ m', h.world.db.messages.get? id = some m' ∧ m'.queue = m.queue ∧ m'.status = m.status :=
    fun id m hm => ⟨m, hm, rfl, rfl⟩
  cases a with
  | clock time =>
    obtain rfl := Option.some.inj hact
    exact ⟨hheld.later hok, hsame⟩
  | send p message options id =>
    simp only [act] at hact
    split at hact
    · obtain rfl := Option.some.inj hact
      exact ⟨hheld, hsame⟩
    · exact hinsert hact
  | sendBatch p messages options ids =>
    simp only [act] at hact
    split at hact
    · obtain rfl := Option.some.inj hact
      exact ⟨hheld, hsame⟩
    · split at hact
      · exact hinsert hact
      · cases hact
  | pull queue options uuid =>
    obtain rfl := Option.some.inj hact
    obtain ⟨hheld', hstays⟩ := hheld.pull rt queue options uuid
    refine ⟨hheld', fun id m hm => ?_⟩
    obtain ⟨m', hm', hqueue⟩ := hstays.row id m hm
    obtain ⟨m'', hm'', hstatus⟩ := status_pull rt h.world.clock queue options uuid hm
    obtain rfl := Option.some.inj (hm'.symm.trans hm'')
    exact ⟨m', hm', hqueue, hstatus⟩
  | ack queue request =>
    obtain rfl := Option.some.inj hact
    obtain ⟨hheld', hstays⟩ := hheld.ack queue request
    refine ⟨hheld', fun id m hm => ?_⟩
    obtain ⟨m', hm', hqueue⟩ := hstays.row id m hm
    obtain ⟨m'', hm'', hstatus, -⟩ := get?_ack h.world.clock queue request hm
    obtain rfl := Option.some.inj (hm'.symm.trans hm'')
    exact ⟨m', hm', hqueue, hstatus⟩
  | _ => exact absurd hok id

/-- What is acked through a lease is in the table. -/
theorem Held.get?_of_ackedBy (hheld : Held w.db w.clock) (hid : id ∈ ackedBy w a) :
    ∃ m, w.db.messages.get? id = some m := by
  cases a with
  | ack queue request =>
    obtain ⟨k, -, hname⟩ := List.mem_filterMap.mp hid
    obtain ⟨l, hl, rfl⟩ := Option.map_eq_some_iff.mp hname
    obtain ⟨m, hm, -⟩ := hheld.home k l (Db.findLease_iff.mp hl).1
    exact ⟨m, hm⟩
  | _ => cases hid

/-- A message that was acked does not become pending. -/
theorem Leased.status_ne (hi : Leased h) (hok : pullSide h a)
    (hact : act rt cfg h.world a = some w') (hid : id ∈ h.acked)
    (hm : w'.db.messages.get? id = some m) : m.status ≠ .pending := by
  cases act_cases hact with
  | tame hdb => exact hdb.status_ne (hi.final id hid) hm
  | inserts rows hfresh hnew hdb =>
    rcases hdb id m hm with hmem | hm
    · exact absurd (hi.drawn id hid) (hfresh id (List.mem_map.mpr ⟨_, hmem, rfl⟩))
    · exact hi.final id hid m hm
  | hands | handles | settles => cases hok

theorem Leased.step (hi : Leased h) (hok : pullSide h a) (hstep : h.step rt cfg a = some h') :
    Leased h' ∧ Remains h h' := by
  obtain ⟨w', hact, rfl⟩ := Option.map_eq_some_iff.mp hstep
  obtain ⟨hheld', hrow⟩ := step_pullSide hi.held hok hact
  obtain ⟨hmono, hissued⟩ := issued_of_act hact hi.issued
  refine ⟨⟨hheld', hissued, fun id hid => ?_, fun id hid m' hm' => ?_⟩,
    fun id hid => List.mem_append_right _ hid, fun id m hm hacked => ?_⟩
  · rcases List.mem_append.mp hid with hid | hid
    · obtain ⟨m, hm⟩ := hi.held.get?_of_ackedBy hid
      exact hmono id (hi.issued id m hm)
    · exact hmono id (hi.drawn id hid)
  · rcases List.mem_append.mp hid with hid | hid
    · -- acked by this step
      obtain ⟨m, hm⟩ := hi.held.get?_of_ackedBy hid
      obtain ⟨m'', hm'', -, hstatus⟩ := hrow id m hm
      rw [if_pos hid] at hstatus
      rw [Option.some.inj (hm'.symm.trans hm''), hstatus]
      exact fun h => nomatch h
    · exact hi.status_ne hok hact hid hm'
  · obtain ⟨m', hm', hqueue, hstatus⟩ := hrow id m hm
    rw [if_neg fun hid => hacked (List.mem_append_left _ hid)] at hstatus
    exact ⟨m', hm', hqueue, hstatus⟩

theorem leased_start (messages : Table String Message) (now : ℤ) :
    Leased (.start messages now) where
  held := {
    single := fun _ _ _ ⟨_, hl, _⟩ => nomatch hl
    home := fun _ _ hl => nomatch hl }
  issued _ _ hm := List.mem_map.mpr ⟨_, Table.mem_of_get? hm, rfl⟩
  drawn _ hid := nomatch hid
  final _ hid := nomatch hid

theorem Leased.reaches (hi : Leased h) (hrun : Reaches (Leasing.step rt cfg) pullSide h h') :
    Leased h' ∧ Remains h h' :=
  hrun.invariant (I := fun t => Leased t ∧ Remains h t) ⟨hi, Remains.refl h⟩
    fun _ _ _ ⟨ht, hremains⟩ hok hstep =>
      ⟨(ht.step hok hstep).1, hremains.trans (ht.step hok hstep).2⟩

end Runs

/-! ### The result -/

/-- What leases promise of a state. -/
structure LeaseSafe {V : Type} (rt : Codec V) (h : Leasing) : Prop where
  /-- A message has at most one current lease. -/
  single : ∀ k k' id, h.world.db.current h.world.clock k id →
    h.world.db.current h.world.clock k' id → k = k'
  /-- `pull` returns no message with a current lease, and none that was acked. -/
  pull : ∀ queue options uuid messages, ∀ x ∈ messages,
    (pull rt h.world.db h.world.clock queue options uuid).2 = .ok messages →
      (∀ k, ¬ h.world.db.current h.world.clock k x.id) ∧ x.id ∉ h.acked
  /-- `ack` changes a message only through its current lease, and deletes only such a lease. -/
  ack : ∀ queue request,
    (∀ id m, h.world.db.messages.get? id = some m →
      ∃ m', (ack h.world.db h.world.clock queue request).1.messages.get? id = some m' ∧
        (m' ≠ m → ∃ k ∈ request.leaseIds, h.world.db.current h.world.clock k id)) ∧
    ∀ k l, h.world.db.leases.get? k = some l →
      (ack h.world.db h.world.clock queue request).1.leases.get? k = some l ∨
        (k ∈ request.leaseIds ∧ h.world.db.current h.world.clock k l.messageId)

section Result

variable {V : Type} {rt : Codec V} {cfg : ℕ → ConsumerConfig} {h h' : Leasing}

theorem Leased.safe (hi : Leased h) : LeaseSafe rt h where
  single := hi.held.single
  pull queue options uuid messages x hx hpull := by
    obtain ⟨⟨m, hm, hstatus⟩, hfree⟩ := hi.held.of_mem_pull hpull hx
    exact ⟨hfree, fun hacked => hi.final x.id hacked m hm hstatus⟩
  ack queue request := by
    refine ⟨fun id m hm => ?_, fun k l hl => leases_ack request hl⟩
    obtain ⟨m', hm', -, hchange⟩ := get?_ack h.world.clock queue request hm
    exact ⟨m', hm', hchange⟩

/-- **Pull leases.** Whatever a queue that is pulled from is asked to do, from any messages without
leases on: the leases are safe in every state, and from any state to any later one the messages
that have not been acked through a lease stay in their queues, pending if they were. -/
theorem leases_safe (rt : Codec V) (cfg : ℕ → ConsumerConfig) (messages : Table String Message)
    (now : ℤ) (hrun : Reaches (Leasing.step rt cfg) pullSide (.start messages now) h)
    (hlater : Reaches (Leasing.step rt cfg) pullSide h h') :
    LeaseSafe rt h ∧ Remains h h' :=
  have hi := ((leased_start messages now).reaches hrun).1
  ⟨hi.safe, (hi.reaches hlater).2⟩

end Result

/-- A message is pulled, its lease expires, it is pulled again and acked through its second lease;
another one is left. -/
def pulledTwice : List (Action Bytes) :=
  [.send { queueName := "jobs" } [0x31] {} "m1", .send { queueName := "jobs" } [0x32] {} "m2",
    .pull "jobs" { batchSize := some 1 } fun _ => "l1", .clock 30000,
    .ack "jobs" { acks := some ["l1"] }, .pull "jobs" { batchSize := some 1 } fun _ => "l2",
    .ack "jobs" { acks := some ["l2"] }]

theorem leases_safe_pulledTwice :
    ∃ h, Reaches (Leasing.step jsonText fun _ => { queue := "jobs" }) pullSide
        (.start .empty 0) h ∧
      h.acked = ["m1"] ∧ LeaseSafe jsonText h ∧ Remains h h := by
  have hrun : (play (restrict (Leasing.step jsonText fun _ => { queue := "jobs" }) pullSide)
      (.start .empty 0) pulledTwice).any (fun h => h.acked = ["m1"]) = true := by
    decide
  obtain ⟨h, hreach, hacked⟩ := exists_reaches_of_play hrun
  have hsafe := leases_safe jsonText _ .empty 0 hreach Reaches.refl
  exact ⟨h, hreach, of_decide_eq_true hacked, hsafe.1, hsafe.2⟩

end Lopata.Queue
