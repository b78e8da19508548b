import Lopata.Queue.Consumer

/-!
# Settled Messages

A message is settled when it is acked or failed. The polling queries look for pending messages
only, so a settled message is out of reach as long as it stays settled. The writes of the
outcomes name the message by its id alone; the one that moves a message to a dead-letter queue
also makes it pending, even if somebody else has acked or failed it in the meantime.

## Main results

* `final_along_iff`: no settled message becomes pending, is handed out, pulled or moved again,
  all along a run, exactly when every move to a dead-letter queue finds its message pending.
* `not_final`: a message that was acked through a lease during its last delivery comes back in
  the dead-letter queue.
-/

namespace Lopata.Queue

/-- The ids of the messages that are acked or failed. -/
def Db.settledIds (db : Db) : List String :=
  (db.messages.rows.filter fun p => p.2.settled).map Prod.fst

/-- A state and the messages that were found acked or failed so far. -/
structure History where
  world : World
  settled : List String

variable {V : Type}

namespace History

/-- The history of consumers that start on a database. -/
def start (db : Db) (now : ℤ) : History := ⟨.start db now, db.settledIds⟩

/-- A step, and what is settled after it. -/
def step (rt : Codec V) (cfg : ℕ → ConsumerConfig) (h : History) (a : Action V) :
    Option History :=
  (act rt cfg h.world a).map fun w => ⟨w, w.db.settledIds ++ h.settled⟩

end History

/-- A step leaves settled messages alone: it does not hand them out, return them from `pull`,
move them or make them pending. -/
def leavesSettled (rt : Codec V) (cfg : ℕ → ConsumerConfig) (h : History) (a : Action V) : Prop :=
  ∀ id ∈ h.settled, id ∉ handed rt cfg h.world a ∧ id ∉ pulled rt h.world a ∧
    moved cfg h.world a ≠ some id ∧
      ∀ h' m, h.step rt cfg a = some h' → h'.world.db.messages.get? id = some m →
        m.status ≠ .pending

/-- A move to a dead-letter queue finds its message pending, if it finds it. -/
def movesPending (cfg : ℕ → ConsumerConfig) (h : History) (a : Action V) : Prop :=
  ∀ id m queue, written cfg h.world a = some (id, m, .deadLettered queue) →
    ∀ m', h.world.db.messages.get? id = some m' → m'.status = .pending

/-! ### The invariant -/

/-- The books of a history: what was settled is not pending, what is not pending was settled, and
ids are drawn before they are used. -/
structure Booked (h : History) : Prop where
  final : ∀ id ∈ h.settled, ∀ m, h.world.db.messages.get? id = some m → m.status ≠ .pending
  noted : ∀ id m, h.world.db.messages.get? id = some m → m.status ≠ .pending → id ∈ h.settled
  issued : ∀ id m, h.world.db.messages.get? id = some m → id ∈ h.world.issued
  drawn : ∀ id ∈ h.settled, id ∈ h.world.issued

section Steps

variable {rt : Codec V} {cfg : ℕ → ConsumerConfig} {w w' : World} {h h' : History} {a : Action V}
  {id : String} {m : Message}

theorem Db.mem_settledIds {db : Db} :
    id ∈ db.settledIds ↔ ∃ m, db.messages.get? id = some m ∧ m.status ≠ .pending := by
  simp [Db.settledIds, Message.settled, ← Table.mem_rows_iff]

/-- What a poll hands out is pending. -/
theorem pending_of_handed (hid : id ∈ handed rt cfg w a) :
    ∃ m, w.db.messages.get? id = some m ∧ m.status = .pending := by
  cases a with
  | poll c =>
    simp only [handed] at hid
    split at hid
    · cases hid
    · by_cases hnil : claimed (cfg c) w.db w.clock = []
      · rw [poll_of_nil hnil] at hid
        cases hid
      · by_cases hall : ∀ p ∈ claimed (cfg c) w.db w.clock, p.2.decodes rt = true
        · rw [poll_of_decodes hnil hall] at hid
          obtain ⟨⟨id, m⟩, hmem, rfl⟩ := List.mem_map.mp hid
          obtain ⟨hm, hdue⟩ := Db.of_mem_due hmem
          rw [get?_deleteCreatedBefore, Option.filter_eq_some_iff] at hm
          exact ⟨m, hm.1, (Message.due_iff.mp hdue).2.1⟩
        · rw [poll_of_not_decodes hall] at hid
          cases hid
  | _ => cases hid

/-- What `pull` returns is pending. -/
theorem pending_of_pulled (hid : id ∈ pulled rt w a) :
    ∃ m, w.db.messages.get? id = some m ∧ m.status = .pending := by
  cases a with
  | pull queue options uuid =>
    simp only [pulled] at hid
    split at hid
    · next messages hpull =>
        obtain ⟨x, hx, rfl⟩ := List.mem_map.mp hid
        obtain ⟨m, hm⟩ := mem_validRows_of_pull hpull hx
        obtain ⟨hget, hdue, -⟩ := Db.of_mem_pullable (List.mem_of_mem_filter hm)
        exact ⟨m, hget, (Message.due_iff.mp hdue).2.1⟩
    · cases hid
  | _ => cases hid

/-- The outcomes that do not move a message do not make it pending. -/
theorem Outcome.status_apply {o : Outcome} {now : ℤ} (ho : ∀ queue, o ≠ .deadLettered queue)
    (hm : m.status ≠ .pending) : (o.apply now m).status ≠ .pending := by
  cases o with
  | acked => exact fun h => nomatch h
  | retried delay => exact hm
  | deadLettered queue => exact absurd rfl (ho queue)
  | failed => exact fun h => nomatch h

/-- A tame change keeps settled messages settled. -/
theorem Tame.status_ne {db db' : Db} (htame : Tame db db')
    (hfinal : ∀ m, db.messages.get? id = some m → m.status ≠ .pending)
    (hm : db'.messages.get? id = some m) : m.status ≠ .pending := by
  obtain ⟨m₀, hm₀, -, -, hstatus⟩ := htame.row id m hm
  rcases hstatus with heq | heq
  · rw [heq]
    exact hfinal m₀ hm₀
  · rw [heq]
    exact fun h => nomatch h

/-- A step that moves pending messages only keeps settled messages settled. -/
theorem Booked.status_ne (hb : Booked h) (hok : movesPending cfg h a)
    (hact : act rt cfg h.world a = some w') (hid : id ∈ h.settled)
    (hm : w'.db.messages.get? id = some m) : m.status ≠ .pending := by
  cases act_cases hact with
  | tame hdb => exact hdb.status_ne (hb.final id hid) hm
  | inserts rows hfresh hnew hdb =>
    rcases hdb id m hm with hmem | hm
    · exact absurd (hb.drawn id hid) (hfresh id (List.mem_map.mpr ⟨_, hmem, rfl⟩))
    · exact hb.final id hid m hm
  | hands c hidle hne hhanded hdecodes =>
    exact ((tame_deleteCreatedBefore _ _).trans (tame_claim _)).status_ne (hb.final id hid) hm
  | handles c hd rows hc => exact hb.final id hid m hm
  | settles c id₀ m₀ rows d hc hwritten =>
    have hm : (h.world.db.update id₀
        ((d.outcome (cfg c) id₀ m₀).apply h.world.clock)).messages.get? id = some m := hm
    rw [get?_update] at hm
    split at hm
    · next heq =>
        subst heq
        obtain ⟨m₁, hm₁, rfl⟩ := Option.map_eq_some_iff.mp hm
        refine Outcome.status_apply ?_ (hb.final id hid m₁ hm₁)
        intro queue hout
        rw [hout] at hwritten
        exact hb.final id hid m₁ hm₁ (hok id m₀ queue hwritten m₁ hm₁)
    · exact hb.final id hid m hm

/-- A step leaves the settled messages alone exactly when it moves pending messages only. -/
theorem Booked.leavesSettled_iff (hb : Booked h) :
    leavesSettled rt cfg h a ↔ movesPending cfg h a := by
  constructor
  · intro hleaves id m queue hwritten m' hm'
    by_contra hstatus
    have hmoved := (hleaves id (hb.noted id m' hm' hstatus)).2.2.1
    refine hmoved ?_
    simp [moved, hwritten, hm']
  · intro hok id hid
    have hpending : ¬ ∃ m, h.world.db.messages.get? id = some m ∧ m.status = .pending := by
      rintro ⟨m, hm, hstatus⟩
      exact hb.final id hid m hm hstatus
    refine ⟨fun hh => hpending (pending_of_handed hh), fun hp => hpending (pending_of_pulled hp),
      ?_, ?_⟩
    · intro hmoved
      simp only [moved] at hmoved
      split at hmoved
      · next id₀ m₀ queue hwritten =>
          split at hmoved
          · next hsome =>
              obtain rfl := Option.some.inj hmoved
              obtain ⟨m, hm⟩ := Option.isSome_iff_exists.mp hsome
              exact hpending ⟨m, hm, hok _ m₀ queue hwritten m hm⟩
          · cases hmoved
      · cases hmoved
    · intro h' m hstep' hm
      obtain ⟨w', hact, rfl⟩ := Option.map_eq_some_iff.mp hstep'
      exact hb.status_ne hok hact hid hm

/-- A step keeps the ids in use among those drawn. -/
theorem issued_of_act (hact : act rt cfg w a = some w')
    (hissued : ∀ id m, w.db.messages.get? id = some m → id ∈ w.issued) :
    (∀ id ∈ w.issued, id ∈ w'.issued) ∧
      ∀ id m, w'.db.messages.get? id = some m → id ∈ w'.issued := by
  have htame : ∀ {db' : Db}, Tame w.db db' → ∀ id m, db'.messages.get? id = some m →
      id ∈ w.issued := by
    intro db' hdb id m hm
    obtain ⟨m₀, hm₀, -⟩ := hdb.row id m hm
    exact hissued id m₀ hm₀
  cases act_cases hact with
  | tame hdb hdeliveries hissued' =>
    rw [hissued']
    exact ⟨fun _ => id, htame hdb⟩
  | inserts rows hfresh hnew hdb hkept hleases hclock hdeliveries hissued' =>
    rw [hissued']
    refine ⟨fun id hid => List.mem_append_right _ hid, fun id m hm => ?_⟩
    rcases hdb id m hm with hmem | hm
    · exact List.mem_append_left _ (List.mem_map.mpr ⟨_, hmem, rfl⟩)
    · exact List.mem_append_right _ (hissued id m hm)
  | hands c => exact ⟨fun _ => id, htame ((tame_deleteCreatedBefore _ _).trans (tame_claim _))⟩
  | handles c => exact ⟨fun _ => id, hissued⟩
  | settles c id₀ m₀ rows d =>
    refine ⟨fun _ => id, fun id m hm => ?_⟩
    have hm : (w.db.update id₀
        ((d.outcome (cfg c) id₀ m₀).apply w.clock)).messages.get? id = some m := hm
    rw [get?_update] at hm
    split at hm
    · obtain ⟨m₁, hm₁, -⟩ := Option.map_eq_some_iff.mp hm
      exact hissued id m₁ hm₁
    · exact hissued id m hm

theorem Booked.step (hb : Booked h) (hleaves : leavesSettled rt cfg h a)
    (hstep : h.step rt cfg a = some h') : Booked h' := by
  have hok := hb.leavesSettled_iff.mp hleaves
  obtain ⟨w', hact, rfl⟩ := Option.map_eq_some_iff.mp hstep
  obtain ⟨hmono, hissued⟩ := issued_of_act hact hb.issued
  refine ⟨?_, ?_, hissued, ?_⟩
  · intro id hid m hm
    rcases List.mem_append.mp hid with hid | hid
    · obtain ⟨m', hm', hstatus⟩ := Db.mem_settledIds.mp hid
      rwa [Option.some.inj (hm.symm.trans hm')]
    · exact hb.status_ne hok hact hid hm
  · intro id m hm hstatus
    exact List.mem_append_left _ (Db.mem_settledIds.mpr ⟨m, hm, hstatus⟩)
  · intro id hid
    rcases List.mem_append.mp hid with hid | hid
    · obtain ⟨m, hm, -⟩ := Db.mem_settledIds.mp hid
      exact hissued id m hm
    · exact hmono id (hb.drawn id hid)

theorem booked_start (db : Db) (now : ℤ) : Booked (.start db now) := by
  have hissued : ∀ id m, db.messages.get? id = some m → id ∈ db.messages.rows.map Prod.fst :=
    fun id m hm => List.mem_map.mpr ⟨_, Table.mem_of_get? hm, rfl⟩
  refine ⟨?_, fun id m hm hstatus => Db.mem_settledIds.mpr ⟨m, hm, hstatus⟩, hissued, ?_⟩
  · intro id hid m hm
    obtain ⟨m', hm', hstatus⟩ := Db.mem_settledIds.mp hid
    rwa [Option.some.inj (hm.symm.trans hm')]
  · intro id hid
    obtain ⟨m, hm, -⟩ := Db.mem_settledIds.mp hid
    exact hissued id m hm

end Steps

/-! ### The results -/

/-- **Settled messages stay settled.** From any database on, whatever consumers, producers and
pull requests do, no message that was acked or failed becomes pending, is handed out, pulled or
moved again exactly when every move to a dead-letter queue finds its message pending. -/
theorem final_along_iff (rt : Codec V) (cfg : ℕ → ConsumerConfig) (db : Db) (now : ℤ)
    (as : List (Action V)) :
    Along (History.step rt cfg) (leavesSettled rt cfg) (.start db now) as ↔
      Along (History.step rt cfg) (movesPending cfg) (.start db now) as :=
  along_iff_along (booked_start db now) (fun _ _ _ hb hleaves hstep => hb.step hleaves hstep)
    fun _ _ _ hb _ => hb.leavesSettled_iff

/-- A consumer that gives up after one delivery. -/
def oneAttempt : ConsumerConfig where
  queue := "jobs"
  maxRetries := 1
  deadLetterQueue := some "dead"

/-- A message is pulled and acked while a consumer handles it; then the handler fails. -/
def ackedMeanwhile : List (Action Bytes) :=
  [.send { queueName := "jobs" } [0x31] {} "m1", .poll 0, .pull "jobs" {} fun _ => "l1",
    .ack "jobs" { acks := some ["l1"] }, .handled 0 ⟨[], true⟩, .settle 0]

/-- The acked message is pending again, in the dead-letter queue. -/
theorem not_final :
    ¬ ∀ h, Reaches (History.step jsonText fun _ => oneAttempt) unguarded (.start .empty 0) h →
      ∀ id ∈ h.settled, ∀ m, h.world.db.messages.get? id = some m → m.status ≠ .pending := by
  intro hall
  have hrun : (play (restrict (History.step jsonText fun _ => oneAttempt) unguarded)
      (.start .empty 0) ackedMeanwhile).any (fun h =>
        "m1" ∈ h.settled &&
          (h.world.db.messages.get? "m1").any fun m => m.status = .pending) = true := by
    decide
  obtain ⟨h, hreach, hh⟩ := exists_reaches_of_play hrun
  obtain ⟨hsettled, hpending⟩ := Bool.and_eq_true_iff.mp hh
  obtain ⟨m, hm, hstatus⟩ := (Option.any_eq_true _ _).mp hpending
  exact hall h hreach "m1" (of_decide_eq_true hsettled) m hm (of_decide_eq_true hstatus)

end Lopata.Queue
