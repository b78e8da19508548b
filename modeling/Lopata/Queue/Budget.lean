import Lopata.Queue.Handout

/-!
# The Retry Budget

A claim counts an attempt in the row of a message, and a message that is to be retried leaves its
queue once the count has reached `maxRetries`: for the dead-letter queue, or as failed. The move
takes the count along, so in the second queue the first delivery is not attempt one.

A tally counts the deliveries a message had since it came to its queue. With one consumer for a
queue, the message should leave with exactly `max 1 maxRetries` of them.

## Main results

* `Tallied.step`: what is known of the counts is kept by every step that keeps the budget.
* `budget_along`: the budget is kept all along a run if the attempts of every message that runs
  out of them in a queue with two or more were its deliveries in that queue.
* `not_budget`: a message that failed once in its queue is given up in a dead-letter queue with
  `maxRetries` two after one delivery.
-/

namespace Lopata.Queue

/-- A state and the number of deliveries of each message since it came to its queue. -/
structure Tally where
  world : World
  delivered : String → ℕ

variable {V : Type}

namespace Tally

/-- The tally of consumers that start on a database. -/
def start (db : Db) (now : ℤ) : Tally := ⟨.start db now, fun _ => 0⟩

/-- A step, and the deliveries after it: a hand-out counts, a move to another queue resets. -/
def step (rt : Codec V) (cfg : ℕ → ConsumerConfig) (t : Tally) (a : Action V) : Option Tally :=
  (act rt cfg t.world a).map fun w => ⟨w, fun id =>
    if moved cfg t.world a = some id then 0
    else if id ∈ handed rt cfg t.world a then t.delivered id + 1
    else t.delivered id⟩

end Tally

/-- The outcome of a message keeps the budget of its queue: it stays with less than
`max 1 maxRetries` deliveries and leaves with exactly that many. -/
def Outcome.keepsBudget (maxRetries : ℤ) (delivered : ℕ) : Outcome → Prop
  | .acked => True
  | .retried _ => (delivered : ℤ) < max 1 maxRetries
  | .deadLettered _ | .failed => (delivered : ℤ) = max 1 maxRetries

/-- A step keeps the budget of the message it settles. -/
def keepsBudget (cfg : ℕ → ConsumerConfig) (t : Tally) : Action V → Prop
  | .settle c => ∀ id m o, written (V := V) cfg t.world (.settle c) = some (id, m, o) →
      o.keepsBudget (cfg c).maxRetries (t.delivered id)
  | _ => True

/-- If a message to be retried has run out of attempts, in a queue with two or more, its attempts
were its deliveries in this queue. -/
def spendsOwn (cfg : ℕ → ConsumerConfig) (t : Tally) : Action V → Prop
  | .settle c => ∀ id m s, t.world.next c = some (id, m, some (.retry s)) →
      2 ≤ (cfg c).maxRetries → (cfg c).maxRetries ≤ m.attempts + 1 →
        t.delivered id = m.attempts + 1
  | _ => True

/-! ### The invariant -/

/-- What is known of a message in flight at a consumer, claimed as `m`. -/
structure Flying (cfg : ℕ → ConsumerConfig) (t : Tally) (c : ℕ) (id : String) (m : Message) :
    Prop where
  pos : 1 ≤ t.delivered id
  le : t.delivered id ≤ m.attempts + 1
  within : t.delivered id = 1 ∨ (t.delivered id : ℤ) ≤ (cfg c).maxRetries
  queue : ∀ m', t.world.db.messages.get? id = some m' → m'.queue = (cfg c).queue

/-- What is known of the counts. -/
structure Tallied (cfg : ℕ → ConsumerConfig) (t : Tally) : Prop where
  fresh : ∀ id, id ∉ t.world.issued → t.delivered id = 0
  issued : ∀ id m, t.world.db.messages.get? id = some m → id ∈ t.world.issued
  counted : ∀ id m, t.world.db.messages.get? id = some m → t.delivered id ≤ m.attempts
  idle : ∀ id m, t.world.db.messages.get? id = some m → m.status = .pending →
    (∀ c, ¬ t.world.inFlight c id) → ∀ c, (cfg c).queue = m.queue →
      t.delivered id = 0 ∨ (t.delivered id : ℤ) < (cfg c).maxRetries
  flight : ∀ c d id m, t.world.deliveries c = some d → (id, m) ∈ d.rows → Flying cfg t c id m
  nodup : ∀ c d, t.world.deliveries c = some d → (d.rows.map Prod.fst).Nodup
  exclusive : Exclusive t.world

section Steps

variable {rt : Codec V} {cfg : ℕ → ConsumerConfig} {w' : World} {t t' : Tally} {a : Action V}
  {c : ℕ} {id : String} {m : Message}

/-- A message whose attempts were its deliveries keeps the budget. -/
theorem Flying.keepsBudget (hf : Flying cfg t c id m) (decision : Option Decision)
    (hown : ∀ s, decision = some (.retry s) → 2 ≤ (cfg c).maxRetries →
      (cfg c).maxRetries ≤ m.attempts + 1 → t.delivered id = m.attempts + 1) :
    (outcome (cfg c) (m.attempts + 1) decision).keepsBudget (cfg c).maxRetries
      (t.delivered id) := by
  have hpos := hf.pos
  have hle := hf.le
  have hwithin := hf.within
  match decision with
  | none => trivial
  | some .ack => trivial
  | some (.retry s) =>
    have hown := hown s rfl
    simp only [outcome]
    split
    · next hout =>
        have hcount : (t.delivered id : ℤ) = max 1 (cfg c).maxRetries := by
          push_cast at hout
          by_cases htwo : 2 ≤ (cfg c).maxRetries
          · have := hown htwo hout
            omega
          · omega
        split <;> exact hcount
    · next hout =>
        show (t.delivered id : ℤ) < max 1 (cfg c).maxRetries
        push_cast at hout
        omega

/-- A message in flight was drawn. -/
theorem Tallied.issued_of_flying (ht : Tallied cfg t) (hf : Flying cfg t c id m) :
    id ∈ t.world.issued := by
  by_contra hid
  have hpos := hf.pos
  rw [ht.fresh id hid] at hpos
  omega

/-- Messages stay where they are, deliveries go on as they were. -/
theorem Tallied.tame (ht : Tallied cfg t) (hdb : Tame t.world.db w'.db)
    (hdeliveries : w'.deliveries = t.world.deliveries) (hissued : w'.issued = t.world.issued) :
    Tallied cfg ⟨w', t.delivered⟩ where
  fresh id hid := ht.fresh id (hissued ▸ hid)
  issued id m hm := by
    obtain ⟨m₀, hm₀, -⟩ := hdb.row id m hm
    rw [hissued]
    exact ht.issued id m₀ hm₀
  counted id m hm := by
    obtain ⟨m₀, hm₀, -, hle, -⟩ := hdb.row id m hm
    exact (ht.counted id m₀ hm₀).trans hle
  idle id m hm hstatus hidle c hc := by
    obtain ⟨m₀, hm₀, hqueue, -, hstatus₀⟩ := hdb.row id m hm
    have hpending : m₀.status = .pending := by
      rcases hstatus₀ with heq | heq
      · exact heq.symm.trans hstatus
      · cases heq.symm.trans hstatus
    refine ht.idle id m₀ hm₀ hpending ?_ c (hc.trans hqueue)
    intro c' hfl
    exact hidle c' ((World.inFlight_congr hdeliveries).mpr hfl)
  flight c d id m hd hmem := by
    have hf := ht.flight c d id m (hdeliveries ▸ hd) hmem
    refine ⟨hf.pos, hf.le, hf.within, ?_⟩
    intro m' hm'
    obtain ⟨m₀, hm₀, hqueue, -, -⟩ := hdb.row id m' hm'
    exact hqueue.trans (hf.queue m₀ hm₀)
  nodup c d hd := ht.nodup c d (hdeliveries ▸ hd)
  exclusive c c' id h h' :=
    ht.exclusive c c' id ((World.inFlight_congr hdeliveries).mp h)
      ((World.inFlight_congr hdeliveries).mp h')

/-- New messages come without deliveries. -/
theorem Tallied.inserts (ht : Tallied cfg t) {rows : List (String × Message)}
    (hfresh : ∀ id ∈ rows.map Prod.fst, id ∉ t.world.issued)
    (hdb : ∀ id m, w'.db.messages.get? id = some m →
      (id, m) ∈ rows ∨ t.world.db.messages.get? id = some m)
    (hdeliveries : w'.deliveries = t.world.deliveries)
    (hissued : w'.issued = rows.map Prod.fst ++ t.world.issued) :
    Tallied cfg ⟨w', t.delivered⟩ := by
  have hnew : ∀ {id m}, (id, m) ∈ rows → id ∉ t.world.issued ∧ t.delivered id = 0 := by
    intro id m hmem
    have hid := hfresh id (List.mem_map.mpr ⟨_, hmem, rfl⟩)
    exact ⟨hid, ht.fresh id hid⟩
  refine ⟨?_, ?_, ?_, ?_, ?_, ?_, ?_⟩
  · intro id hid
    refine ht.fresh id fun hmem => hid ?_
    rw [hissued]
    exact List.mem_append_right _ hmem
  · intro id m hm
    rw [hissued]
    rcases hdb id m hm with hmem | hm
    · exact List.mem_append_left _ (List.mem_map.mpr ⟨_, hmem, rfl⟩)
    · exact List.mem_append_right _ (ht.issued id m hm)
  · intro id m hm
    rcases hdb id m hm with hmem | hm
    · exact (hnew hmem).2 ▸ Nat.zero_le _
    · exact ht.counted id m hm
  · intro id m hm hstatus hidle c hc
    rcases hdb id m hm with hmem | hm
    · exact .inl (hnew hmem).2
    · refine ht.idle id m hm hstatus ?_ c hc
      exact fun c' hfl => hidle c' ((World.inFlight_congr hdeliveries).mpr hfl)
  · intro c d id m hd hmem
    have hf := ht.flight c d id m (hdeliveries ▸ hd) hmem
    refine ⟨hf.pos, hf.le, hf.within, ?_⟩
    intro m' hm'
    rcases hdb id m' hm' with hrow | hm'
    · exact absurd (ht.issued_of_flying hf) (hnew hrow).1
    · exact hf.queue m' hm'
  · exact fun c d hd => ht.nodup c d (hdeliveries ▸ hd)
  · intro c c' id h h'
    exact ht.exclusive c c' id ((World.inFlight_congr hdeliveries).mp h)
      ((World.inFlight_congr hdeliveries).mp h')

/-- The end of a handler changes no count and no batch. -/
theorem Tallied.handles (ht : Tallied cfg t) {d d' : Delivery}
    (hd : t.world.deliveries c = some d) (hrows : d'.rows = d.rows) :
    Tallied cfg ⟨t.world.setDelivery c (some d'), t.delivered⟩ := by
  have hfl : ∀ c' id, (t.world.setDelivery c (some d')).inFlight c' id ↔
      t.world.inFlight c' id := by
    intro c' id
    rw [World.inFlight_setDelivery]
    split
    · next heq =>
        subst heq
        constructor
        · rintro ⟨e, he, hid⟩
          obtain rfl := Option.some.inj he
          exact ⟨d, hd, hrows ▸ hid⟩
        · rintro ⟨e, he, hid⟩
          obtain rfl := Option.some.inj (hd.symm.trans he)
          exact ⟨d', rfl, hrows ▸ hid⟩
    · exact Iff.rfl
  have hdel : ∀ c' e, (t.world.setDelivery c (some d')).deliveries c' = some e →
      ∃ e₀, t.world.deliveries c' = some e₀ ∧ e.rows = e₀.rows := by
    intro c' e he
    rw [World.deliveries_setDelivery] at he
    split at he
    · next heq =>
        obtain rfl := Option.some.inj he
        exact ⟨d, heq ▸ hd, hrows⟩
    · exact ⟨e, he, rfl⟩
  refine ⟨ht.fresh, ht.issued, ht.counted, ?_, ?_, ?_, ?_⟩
  · intro id m hm hstatus hidle
    exact ht.idle id m hm hstatus fun c' h => hidle c' ((hfl c' id).mpr h)
  · intro c' e id m he hmem
    obtain ⟨e₀, he₀, heq⟩ := hdel c' e he
    have hf := ht.flight c' e₀ id m he₀ (heq ▸ hmem)
    exact ⟨hf.pos, hf.le, hf.within, hf.queue⟩
  · intro c' e he
    obtain ⟨e₀, he₀, heq⟩ := hdel c' e he
    exact heq ▸ ht.nodup c' e₀ he₀
  · intro c₁ c₂ id h₁ h₂
    exact ht.exclusive c₁ c₂ id ((hfl c₁ id).mp h₁) ((hfl c₂ id).mp h₂)

/-- A message in flight belongs to the queue of its consumer, so no other consumer claims it. -/
theorem Tallied.not_inFlight_of_claimed (ht : Tallied cfg t)
    (hone : Function.Injective fun c => (cfg c).queue) (hidle : t.world.deliveries c = none)
    (hid : id ∈ (claimed (cfg c) t.world.db t.world.clock).map Prod.fst) (c' : ℕ) :
    ¬ t.world.inFlight c' id := by
  rintro ⟨d, hd, hmem⟩
  obtain ⟨p, hp, rfl⟩ := List.mem_map.mp hmem
  obtain ⟨m, hm, hdue, -⟩ := World.mem_claimed_iff.mp hid
  rw [get?_deleteCreatedBefore, Option.filter_eq_some_iff] at hm
  have hqueue := (ht.flight c' d p.1 p.2 hd hp).queue m hm.1
  have hcc : c' = c := hone (hqueue.symm.trans (Message.due_iff.mp hdue).1)
  rw [hcc, hidle] at hd
  cases hd

/-- The deliveries of the messages of a batch are counted. -/
theorem Tallied.hands (ht : Tallied cfg t) (hone : Function.Injective fun c => (cfg c).queue)
    (hidle : t.world.deliveries c = none) {db : Db} {rows : List (String × Message)}
    (hrows : rows = claimed (cfg c) t.world.db t.world.clock)
    (hdb : db = (t.world.db.deleteCreatedBefore (cfg c).queue
      (t.world.clock - (cfg c).retentionMs)).claim (rows.map Prod.fst)) :
    Tallied cfg ⟨World.setDelivery { t.world with db } c (some ⟨rows, none⟩),
      fun id => if id ∈ rows.map Prod.fst then t.delivered id + 1 else t.delivered id⟩ := by
  have htame : Tame t.world.db db := hdb ▸ (tame_deleteCreatedBefore _ _).trans (tame_claim _)
  have hnot : ∀ id ∈ rows.map Prod.fst, ∀ c', ¬ t.world.inFlight c' id := fun id hid =>
    ht.not_inFlight_of_claimed hone hidle (hrows ▸ hid)
  have hfl : ∀ c' id, (World.setDelivery { t.world with db } c (some ⟨rows, none⟩)).inFlight c' id ↔
      if c' = c then id ∈ rows.map Prod.fst else t.world.inFlight c' id :=
    fun _ _ => World.inFlight_hands
  have hnone : ∀ id, ¬ t.world.inFlight c id := by
    rintro id ⟨d, hd, -⟩
    cases hidle.symm.trans hd
  refine ⟨?_, ?_, ?_, ?_, ?_, ?_, ?_⟩
  · intro id hid
    have hout : id ∉ rows.map Prod.fst := by
      intro hmem
      rw [hrows] at hmem
      obtain ⟨m, hm, -⟩ := World.mem_claimed_iff.mp hmem
      rw [get?_deleteCreatedBefore, Option.filter_eq_some_iff] at hm
      exact hid (ht.issued id m hm.1)
    simpa only [if_neg hout] using ht.fresh id hid
  · intro id m hm
    obtain ⟨m₀, hm₀, -⟩ := htame.row id m hm
    exact ht.issued id m₀ hm₀
  · intro id m hm
    have hm : db.messages.get? id = some m := hm
    rw [hdb, get?_claim, get?_deleteCreatedBefore] at hm
    obtain ⟨m₀, hm₀, rfl⟩ := Option.map_eq_some_iff.mp hm
    have hcount := ht.counted id m₀ (Option.filter_eq_some_iff.mp hm₀).1
    show (if id ∈ rows.map Prod.fst then t.delivered id + 1 else t.delivered id) ≤ _
    split
    · exact Nat.succ_le_succ hcount
    · exact hcount
  · intro id m hm hstatus hidle' c' hc'
    have hout : id ∉ rows.map Prod.fst := by
      intro hmem
      refine hidle' c ?_
      rw [hfl, if_pos rfl]
      exact hmem
    have hbefore : ∀ c', ¬ t.world.inFlight c' id := by
      intro c₁ h
      refine hidle' c₁ ?_
      rw [hfl]
      split
      · next heq => exact absurd (heq ▸ h) (hnone id)
      · exact h
    have htidy : Tallied cfg ⟨{ t.world with db }, t.delivered⟩ := ht.tame htame rfl rfl
    simpa only [if_neg hout] using htidy.idle id m hm hstatus hbefore c' hc'
  · intro c' d id m hd hmem
    rw [World.deliveries_setDelivery] at hd
    split at hd
    · -- the message was idle before
      next heq =>
        obtain rfl := Option.some.inj hd
        subst heq
        have hin : id ∈ rows.map Prod.fst := List.mem_map.mpr ⟨_, hmem, rfl⟩
        rw [hrows] at hmem
        obtain ⟨hm, hdue⟩ := Db.of_mem_due hmem
        rw [get?_deleteCreatedBefore, Option.filter_eq_some_iff] at hm
        obtain ⟨hqueue, hstatus, -⟩ := Message.due_iff.mp hdue
        have hcount := ht.counted id m hm.1
        have hbudget := ht.idle id m hm.1 hstatus (hnot id hin) c' hqueue.symm
        refine ⟨?_, ?_, ?_, ?_⟩
        · simp only [if_pos hin]
          omega
        · simp only [if_pos hin]
          omega
        · simp only [if_pos hin]
          push_cast
          omega
        · intro m' hm'
          obtain ⟨m₀, hm₀, hqueue', -, -⟩ := htame.row id m' hm'
          obtain rfl := Option.some.inj (hm.1.symm.trans hm₀)
          exact hqueue'.trans hqueue
    · have hout : id ∉ rows.map Prod.fst := fun hin =>
        hnot id hin c' ⟨d, hd, List.mem_map.mpr ⟨_, hmem, rfl⟩⟩
      have hf := ht.flight c' d id m hd hmem
      refine ⟨?_, ?_, ?_, ?_⟩
      · simpa only [if_neg hout] using hf.pos
      · simpa only [if_neg hout] using hf.le
      · simpa only [if_neg hout] using hf.within
      · intro m' hm'
        obtain ⟨m₀, hm₀, hqueue', -, -⟩ := htame.row id m' hm'
        exact hqueue'.trans (hf.queue m₀ hm₀)
  · intro c' d hd
    rw [World.deliveries_setDelivery] at hd
    split at hd
    · obtain rfl := Option.some.inj hd
      rw [hrows]
      exact nodup_claimed
    · exact ht.nodup c' d hd
  · intro c₁ c₂ id h₁ h₂
    rw [hfl] at h₁ h₂
    split at h₁ <;> split at h₂
    · next h₁' h₂' => exact h₁'.trans h₂'.symm
    · exact absurd h₂ (hnot id h₁ c₂)
    · exact absurd h₁ (hnot id h₂ c₁)
    · exact ht.exclusive c₁ c₂ id h₁ h₂

/-- An outcome leaves the attempts as they are. -/
theorem Outcome.attempts_apply (o : Outcome) (now : ℤ) (m : Message) :
    (o.apply now m).attempts = m.attempts := by
  cases o <;> rfl

/-- An outcome that keeps the budget is written. -/
theorem Tallied.settles (ht : Tallied cfg t) (hone : Function.Injective fun c => (cfg c).queue)
    {rows : List (String × Message)} {d : Decisions}
    (hc : t.world.deliveries c = some ⟨(id, m) :: rows, some d⟩)
    (hgood : (d.outcome (cfg c) id m).keepsBudget (cfg c).maxRetries (t.delivered id)) {w' : World}
    (hw' : w' = World.setDelivery
      { t.world with
        db := t.world.db.update id ((d.outcome (cfg c) id m).apply t.world.clock) }
      c (if rows = [] then none else some ⟨rows, some d⟩)) {delivered : String → ℕ}
    (hothers : ∀ id', id' ≠ id → delivered id' = t.delivered id')
    (hmoved : (∀ queue, d.outcome (cfg c) id m ≠ .deadLettered queue) →
      delivered id = t.delivered id)
    (hreset : ∀ queue m₀, d.outcome (cfg c) id m = .deadLettered queue →
      t.world.db.messages.get? id = some m₀ → delivered id = 0)
    (hle : delivered id ≤ t.delivered id) :
    Tallied cfg ⟨w', delivered⟩ := by
  have hle' : ∀ id', delivered id' ≤ t.delivered id' := by
    intro id'
    by_cases hid : id' = id
    · exact hid ▸ hle
    · exact (hothers id' hid).le
  have hself := ht.flight c _ id m hc List.mem_cons_self
  have hnodup := ht.nodup c _ hc
  have hin : t.world.inFlight c id := ⟨_, hc, List.mem_cons_self⟩
  have hget : ∀ id', w'.db.messages.get? id' = if id' = id then
      (t.world.db.messages.get? id').map ((d.outcome (cfg c) id m).apply t.world.clock)
      else t.world.db.messages.get? id' := by
    intro id'
    rw [hw']
    exact get?_update _
  have hissued : w'.issued = t.world.issued := by rw [hw']; rfl
  -- what is in flight now was so before and is another message
  have hrest : ∀ c' e id' m', w'.deliveries c' = some e → (id', m') ∈ e.rows →
      id' ≠ id ∧ ∃ e₀, t.world.deliveries c' = some e₀ ∧ (id', m') ∈ e₀.rows := by
    intro c' e id' m' he hmem
    rw [hw', World.deliveries_setDelivery] at he
    split at he
    · next heq =>
        split at he
        · cases he
        · obtain rfl := Option.some.inj he
          refine ⟨?_, _, heq ▸ hc, List.mem_cons_of_mem _ hmem⟩
          rintro rfl
          exact (List.nodup_cons.mp hnodup).1 (List.mem_map.mpr ⟨_, hmem, rfl⟩)
    · next hne =>
        refine ⟨?_, e, he, hmem⟩
        rintro rfl
        exact hne (ht.exclusive c' c id' ⟨e, he, List.mem_map.mpr ⟨_, hmem, rfl⟩⟩ hin)
  have hkept : ∀ c' id', id' ≠ id → t.world.inFlight c' id' → w'.inFlight c' id' := by
    rintro c' id' hne ⟨e, he, hmem⟩
    by_cases hcc : c' = c
    · subst hcc
      obtain rfl := Option.some.inj (hc.symm.trans he)
      have hmem : id' ∈ rows.map Prod.fst := (List.mem_cons.mp hmem).resolve_left hne
      have hrows : rows ≠ [] := by
        rintro rfl
        cases hmem
      refine ⟨⟨rows, some d⟩, ?_, hmem⟩
      rw [hw', World.deliveries_setDelivery, if_pos rfl, if_neg hrows]
    · refine ⟨e, ?_, hmem⟩
      rw [hw', World.deliveries_setDelivery, if_neg hcc]
      exact he
  refine ⟨?_, ?_, ?_, ?_, ?_, ?_, ?_⟩
  · intro id' hid
    have hzero := ht.fresh id' (hissued ▸ hid)
    have := hle' id'
    show delivered id' = 0
    omega
  · intro id' m' hm'
    rw [hissued]
    have hm' := (hget id').symm.trans hm'
    split at hm'
    · obtain ⟨m₀, hm₀, -⟩ := Option.map_eq_some_iff.mp hm'
      exact ht.issued id' m₀ hm₀
    · exact ht.issued id' m' hm'
  · intro id' m' hm'
    refine (hle' id').trans ?_
    have hm' := (hget id').symm.trans hm'
    split at hm'
    · obtain ⟨m₀, hm₀, rfl⟩ := Option.map_eq_some_iff.mp hm'
      rw [Outcome.attempts_apply]
      exact ht.counted id' m₀ hm₀
    · exact ht.counted id' m' hm'
  · intro id' m' hm' hstatus hidle c' hc'
    have hm' := (hget id').symm.trans hm'
    split at hm'
    · -- the settled message is pending if it is retried or moved
      next heq =>
        subst heq
        obtain ⟨m₀, hm₀, rfl⟩ := Option.map_eq_some_iff.mp hm'
        cases hout : d.outcome (cfg c) id' m with
        | acked =>
          rw [hout] at hstatus
          cases hstatus
        | failed =>
          rw [hout] at hstatus
          cases hstatus
        | retried delay =>
          rw [hout] at hgood hc'
          have hcc : c' = c := hone (hc'.trans (hself.queue m₀ hm₀))
          have hcount := hmoved fun queue h => by cases hout.symm.trans h
          have hpos := hself.pos
          have hless : (t.delivered id' : ℤ) < max 1 (cfg c).maxRetries := hgood
          right
          show (delivered id' : ℤ) < (cfg c').maxRetries
          rw [hcount, hcc]
          omega
        | deadLettered queue => exact .inl (hreset queue m₀ hout hm₀)
    · next hne =>
        show delivered id' = 0 ∨ (delivered id' : ℤ) < _
        rw [hothers id' hne]
        refine ht.idle id' m' hm' hstatus ?_ c' hc'
        exact fun c₁ h => hidle c₁ (hkept c₁ id' hne h)
  · intro c' e id' m' he hmem
    obtain ⟨hne, e₀, he₀, hmem₀⟩ := hrest c' e id' m' he hmem
    have hf := ht.flight c' e₀ id' m' he₀ hmem₀
    have hcount := hothers id' hne
    refine ⟨?_, ?_, ?_, ?_⟩
    · show 1 ≤ delivered id'
      rw [hcount]
      exact hf.pos
    · show delivered id' ≤ _
      rw [hcount]
      exact hf.le
    · show delivered id' = 1 ∨ (delivered id' : ℤ) ≤ _
      rw [hcount]
      exact hf.within
    · intro m₁ hm₁
      have hm₁ := (hget id').symm.trans hm₁
      rw [if_neg hne] at hm₁
      exact hf.queue m₁ hm₁
  · intro c' e he
    rw [hw', World.deliveries_setDelivery] at he
    split at he
    · split at he
      · cases he
      · obtain rfl := Option.some.inj he
        exact (List.nodup_cons.mp hnodup).2
    · exact ht.nodup c' e he
  · rintro c₁ c₂ id' ⟨e₁, he₁, h₁⟩ ⟨e₂, he₂, h₂⟩
    obtain ⟨p₁, hp₁, rfl⟩ := List.mem_map.mp h₁
    obtain ⟨p₂, hp₂, heq⟩ := List.mem_map.mp h₂
    obtain ⟨-, f₁, hf₁, hq₁⟩ := hrest c₁ e₁ p₁.1 p₁.2 he₁ hp₁
    obtain ⟨-, f₂, hf₂, hq₂⟩ := hrest c₂ e₂ p₂.1 p₂.2 he₂ hp₂
    exact ht.exclusive c₁ c₂ p₁.1 ⟨f₁, hf₁, List.mem_map.mpr ⟨_, hq₁, rfl⟩⟩
      ⟨f₂, hf₂, List.mem_map.mpr ⟨_, hq₂, heq⟩⟩

/-- What is known of the counts is kept by every step that keeps the budget. -/
theorem Tallied.step (ht : Tallied cfg t) (hone : Function.Injective fun c => (cfg c).queue)
    (hgood : keepsBudget cfg t a) (hstep : t.step rt cfg a = some t') : Tallied cfg t' := by
  obtain ⟨w', hact, rfl⟩ := Option.map_eq_some_iff.mp hstep
  have hquiet : handed rt cfg t.world a = [] → written cfg t.world a = none →
      (fun id => if moved cfg t.world a = some id then 0
        else if id ∈ handed rt cfg t.world a then t.delivered id + 1
        else t.delivered id) = t.delivered := by
    intro hhanded hwritten
    funext id
    simp [hhanded, moved, hwritten]
  cases act_cases hact with
  | tame hdb hdeliveries hissued hhanded hwritten =>
    rw [hquiet hhanded hwritten]
    exact ht.tame hdb hdeliveries hissued
  | inserts rows hfresh hnew hdb hkept hleases hclock hdeliveries hissued hhanded hwritten =>
    rw [hquiet hhanded hwritten]
    exact ht.inserts hfresh hdb hdeliveries hissued
  | hands c hidle hne hhanded hdecodes =>
    rw [hhanded]
    exact ht.hands hone hidle rfl rfl
  | handles c h rows hc =>
    rw [hquiet rfl rfl]
    exact ht.handles hc rfl
  | settles c id m rows d hc hwritten =>
    have hnone : ∀ id', id' ∉ handed rt cfg t.world (.settle c) := fun _ h => nomatch h
    have hmoved : ∀ id', moved cfg t.world (.settle c : Action V) = some id' →
        id' = id ∧ ∃ queue, d.outcome (cfg c) id m = .deadLettered queue := by
      intro id' h
      rw [moved, hwritten] at h
      split at h
      · next id₀ m₀ queue hout =>
          obtain ⟨rfl, hrest⟩ := Prod.mk.inj (Option.some.inj hout)
          split at h
          · exact ⟨(Option.some.inj h).symm, queue, (Prod.mk.inj hrest).2⟩
          · cases h
      · cases h
    refine ht.settles hone hc (hgood id m _ hwritten) rfl ?_ ?_ ?_ ?_
    · intro id' hne
      rw [if_neg fun h => hne (hmoved id' h).1, if_neg (hnone id')]
    · intro hout
      rw [if_neg fun h => (hmoved id h).2.elim hout, if_neg (hnone id)]
    · intro queue m₀ hout hm₀
      rw [if_pos]
      simp [moved, hwritten, hout, hm₀]
    · split
      · exact Nat.zero_le _
      · rw [if_neg (hnone id)]

/-- A step whose attempts were deliveries keeps the budget. -/
theorem Tallied.keepsBudget (ht : Tallied cfg t) (hact : act rt cfg t.world a = some w')
    (hown : spendsOwn cfg t a) : keepsBudget cfg t a := by
  cases act_cases hact with
  | settles c id m rows d hc hwritten =>
    intro id' m' o hwritten'
    obtain ⟨rfl, hrest⟩ := Prod.mk.inj (Option.some.inj (hwritten.symm.trans hwritten'))
    obtain ⟨rfl, rfl⟩ := Prod.mk.inj hrest
    have hnext : t.world.next c = some (id, m, d.get id) := by simp [World.next, hc]
    refine (ht.flight c _ id m hc List.mem_cons_self).keepsBudget (d.get id) ?_
    intro s hs
    exact hown id m s (hs ▸ hnext)
  | tame hdb hdeliveries hissued hhanded hwritten =>
    cases a with
    | settle c =>
      intro id m o hwritten'
      cases hwritten.symm.trans hwritten'
    | _ => trivial
  | inserts rows hfresh hnew hdb hkept hleases hclock hdeliveries hissued hhanded hwritten =>
    cases a with
    | settle c =>
      intro id m o hwritten'
      cases hwritten.symm.trans hwritten'
    | _ => trivial
  | hands c => trivial
  | handles c => trivial

/-- On a database whose messages have no deliveries yet. -/
theorem tallied_start (cfg : ℕ → ConsumerConfig) (db : Db) (now : ℤ) :
    Tallied cfg (.start db now) where
  fresh _ _ := rfl
  issued id m hm := List.mem_map.mpr ⟨_, Table.mem_of_get? hm, rfl⟩
  counted _ _ _ := Nat.zero_le _
  idle _ _ _ _ _ _ _ := .inl rfl
  flight _ _ _ _ hd := nomatch hd
  nodup _ _ hd := nomatch hd
  exclusive := by
    rintro c c' id ⟨d, hd, -⟩
    cases hd

end Steps

/-! ### The results -/

/-- **The retry budget.** Let each queue have one consumer. From any database on, whatever
handlers, producers and pull requests do, every message stays in its queue with less than
`max 1 maxRetries` deliveries and leaves it with exactly that many, if the attempts of each
message that runs out of them, in a queue with two or more, were its deliveries there. -/
theorem budget_along (rt : Codec V) (cfg : ℕ → ConsumerConfig)
    (hone : Function.Injective fun c => (cfg c).queue) (db : Db) (now : ℤ) (as : List (Action V))
    (hown : Along (Tally.step rt cfg) (spendsOwn cfg) (.start db now) as) :
    Along (Tally.step rt cfg) (keepsBudget cfg) (.start db now) as :=
  Along.imp (tallied_start cfg db now) (fun _ _ _ ht hgood hstep => ht.step hone hgood hstep)
    (fun _ _ _ ht hstep hok => by
      obtain ⟨_, hact, -⟩ := Option.map_eq_some_iff.mp hstep
      exact ht.keepsBudget hact hok) hown

/-- A chain of queues, each with its consumer and the next one for its dead letters. -/
def chain (maxRetries : ℕ → ℤ) (c : ℕ) : ConsumerConfig where
  queue := String.ofList (List.replicate (c + 1) 'q')
  maxRetries := maxRetries c
  deadLetterQueue := some (String.ofList (List.replicate (c + 2) 'q'))

theorem chain_injective (maxRetries : ℕ → ℤ) :
    Function.Injective fun c => (chain maxRetries c).queue := by
  intro c c' h
  have hlength := congrArg (fun s => s.toList.length) h
  simpa [chain] using hlength

/-- A message that fails in the first queue and then in the second. -/
def failsTwice : List (Action Bytes) :=
  [.send { queueName := "q" } [0x31] {} "m1", .poll 0, .handled 0 ⟨[], true⟩, .settle 0,
    .poll 1, .handled 1 ⟨[], true⟩]

/-- In a chain of queues that give up after one delivery, they do. -/
theorem budget_along_chain : Along (Tally.step jsonText (chain fun _ => 1))
    (keepsBudget (chain fun _ => 1)) (.start .empty 0) (failsTwice ++ [.settle 1]) :=
  budget_along jsonText (chain fun _ => 1) (chain_injective _) .empty 0 _ <|
    Along.of_forall fun t a => by
      cases a with
      | settle c => exact fun _ _ _ _ htwo => absurd htwo (by simp [chain])
      | _ => trivial

/-- The second queue has a budget of two deliveries and gives the message up after one. -/
theorem not_budget :
    ¬ ∀ as, Along (Tally.step jsonText (chain fun c => c + 1))
      (keepsBudget (chain fun c => c + 1)) (.start .empty 0) as := by
  intro hall
  have hrun : (play (Tally.step jsonText (chain fun c => c + 1)) (.start .empty 0)
      failsTwice).any (fun t => t.delivered "m1" = 1 &&
        (Tally.step jsonText (chain fun c => c + 1) t (.settle 1)).isSome &&
          (written (chain fun c => c + 1) t.world (.settle 1 : Action Bytes)).any fun p =>
            p.1 = "m1" && p.2.2 = .deadLettered "qqq") = true := by
    decide
  obtain ⟨t, hplay, ht⟩ := (Option.any_eq_true _ _).mp hrun
  simp only [Bool.and_eq_true, decide_eq_true_eq] at ht
  obtain ⟨⟨hcount, hsome⟩, hleaves⟩ := ht
  obtain ⟨⟨id, m, o⟩, hwritten, hp⟩ := (Option.any_eq_true _ _).mp hleaves
  simp only [Bool.and_eq_true, decide_eq_true_eq] at hp
  obtain ⟨rfl, rfl⟩ := hp
  obtain ⟨t', hstep⟩ := Option.isSome_iff_exists.mp hsome
  have hkeeps := ((hall (failsTwice ++ [.settle 1])).of_play hplay t' hstep).1
  have hbudget : (t.delivered "m1" : ℤ) = max 1 (1 + 1) := hkeeps "m1" m _ hwritten
  rw [hcount] at hbudget
  exact absurd hbudget (by decide)

end Lopata.Queue
