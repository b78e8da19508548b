import Lopata.Queue.Consumer

/-!
# Two Consumers and One Message

A claim counts an attempt and leaves the row as it is: pending, visible and in its queue. So a
second consumer of the queue, such as that of the next generation while the one before drains,
finds the message while its first delivery is still under way.

## Main results

* `World.reach_iff`: the messages a poll claims, by the number of due messages ahead of them.
* `exclusive_throughout_iff`: no message is in flight at two consumers, all along a run, exactly
  when every poll of the run keeps out of reach of what the others have in flight.
* `not_exclusive`: two polls in a row hand out the same message twice.
-/

namespace Lopata.Queue

/-- No message is in flight at two consumers. -/
def Exclusive (w : World) : Prop :=
  ∀ c c' id, w.inFlight c id → w.inFlight c' id → c = c'

/-- The number of due messages a poll takes before this one. -/
def Db.ahead (db : Db) (now : ℤ) (queue : String) (p : String × Message) : ℕ :=
  rank (fun p => p.2.visibleAt) (db.messages.rows.filter fun p => p.2.due now queue) p

/-- A message is within the reach of a consumer's poll: it is within retention and due, and fewer
than `maxBatchSize` due messages are ahead of it. -/
def World.reach (cfg : ℕ → ConsumerConfig) (w : World) (c : ℕ) (id : String) (m : Message) : Prop :=
  let db := w.db.deleteCreatedBefore (cfg c).queue (w.clock - (cfg c).retentionMs)
  db.messages.get? id = some m ∧ m.due w.clock (cfg c).queue = true ∧
    ((cfg c).maxBatchSize < 0 ∨
      (db.ahead w.clock (cfg c).queue (id, m) : ℤ) < (cfg c).maxBatchSize)

variable {V : Type}

/-- A poll keeps apart from the other consumers: it returns at once, or it reaches a message that
cannot be decoded, or it reaches none that another consumer has in flight. -/
def keepsApart (rt : Codec V) (cfg : ℕ → ConsumerConfig) (w : World) : Action V → Prop
  | .poll c => w.busy cfg c = true ∨ (∃ id m, w.reach cfg c id m ∧ m.decodes rt = false) ∨
      ∀ c' id m, c' ≠ c → w.inFlight c' id → ¬ w.reach cfg c id m
  | _ => True

section Steps

variable {rt : Codec V} {cfg : ℕ → ConsumerConfig} {w w' : World} {a : Action V} {c c' : ℕ}
  {id : String} {m : Message}

/-- The messages a poll claims are those within its reach. -/
theorem World.reach_iff : w.reach cfg c id m ↔ (id, m) ∈ claimed (cfg c) w.db w.clock := by
  rw [claimed, Db.due, mem_firstBy_iff (List.filter_sublist.nodup (List.Nodup.of_map _
    (Table.nodup _))), List.mem_filter, Table.mem_rows_iff, and_assoc]
  rfl

theorem World.mem_claimed_iff :
    id ∈ (claimed (cfg c) w.db w.clock).map Prod.fst ↔ ∃ m, w.reach cfg c id m := by
  simp only [List.mem_map, Prod.exists, exists_and_right, exists_eq_right, World.reach_iff]

/-- The messages in flight after the delivery of a consumer has changed. -/
theorem World.inFlight_setDelivery {d : Option Delivery} :
    (w.setDelivery c d).inFlight c' id ↔
      if c' = c then ∃ e, d = some e ∧ id ∈ e.rows.map Prod.fst else w.inFlight c' id := by
  by_cases hc : c' = c
  · subst hc
    simp [World.inFlight, World.setDelivery]
  · simp [World.inFlight, World.setDelivery, hc]

/-- The messages in flight after a batch was handed out. -/
theorem World.inFlight_hands {db : Db} {rows : List (String × Message)} :
    (World.setDelivery { w with db } c (some ⟨rows, none⟩)).inFlight c' id ↔
      if c' = c then id ∈ rows.map Prod.fst else w.inFlight c' id := by
  rw [World.inFlight_setDelivery]
  split
  · constructor
    · rintro ⟨e, he, hid⟩
      obtain rfl := Option.some.inj he
      exact hid
    · exact fun hid => ⟨_, rfl, hid⟩
  · exact Iff.rfl

theorem World.inFlight_congr (h : w'.deliveries = w.deliveries) :
    w'.inFlight c id ↔ w.inFlight c id := by
  rw [World.inFlight, h, World.inFlight]

/-- Only a poll puts messages in flight. -/
theorem World.inFlight_of_act (hact : act rt cfg w a = some w') (ha : ∀ c, a ≠ .poll c)
    (h : w'.inFlight c id) : w.inFlight c id := by
  cases act_cases hact with
  | tame hdb hdeliveries => exact (World.inFlight_congr hdeliveries).mp h
  | inserts rows hfresh hnew hdb hkept hleases hclock hdeliveries =>
    exact (World.inFlight_congr hdeliveries).mp h
  | hands c₀ => exact absurd rfl (ha c₀)
  | handles c₀ hd rows hc =>
    rw [World.inFlight_setDelivery] at h
    split at h
    · next heq =>
        obtain ⟨e, he, hid⟩ := h
        obtain rfl := Option.some.inj he
        exact ⟨⟨rows, none⟩, heq ▸ hc, hid⟩
    · exact h
  | settles c₀ id₀ m₀ rows d hc =>
    rw [World.inFlight_setDelivery] at h
    split at h
    · next heq =>
        obtain ⟨e, he, hid⟩ := h
        split at he
        · cases he
        · obtain rfl := Option.some.inj he
          exact ⟨⟨(id₀, m₀) :: rows, some d⟩, heq ▸ hc, List.mem_cons_of_mem _ hid⟩
    · exact h

/-- A poll that hands nothing out keeps apart. -/
theorem keepsApart_of_handed_eq_nil (hhanded : handed rt cfg w (.poll c) = []) :
    keepsApart rt cfg w (.poll c) := by
  by_cases hbusy : w.busy cfg c = true
  · exact .inl hbusy
  · refine .inr ?_
    by_cases hall : ∀ p ∈ claimed (cfg c) w.db w.clock, p.2.decodes rt = true
    · right
      intro c' id m _ _ hreach
      rw [World.reach_iff] at hreach
      have hne : claimed (cfg c) w.db w.clock ≠ [] := List.ne_nil_of_mem hreach
      simp only [handed, hbusy, poll_of_decodes hne hall, Bool.false_eq_true, if_false,
        List.map_eq_nil_iff] at hhanded
      exact hne hhanded
    · left
      simp only [not_forall, exists_prop, Prod.exists, Bool.not_eq_true] at hall
      obtain ⟨id, m, hmem, hm⟩ := hall
      exact ⟨id, m, World.reach_iff.mpr hmem, hm⟩

/-- A step keeps messages apart exactly when it passes the guard. -/
theorem Exclusive.step (hw : Exclusive w) (hact : act rt cfg w a = some w') :
    Exclusive w' ↔ keepsApart rt cfg w a := by
  by_cases hpoll : ∃ c, a = .poll c
  · obtain ⟨c, rfl⟩ := hpoll
    cases act_cases hact with
    | tame hdb hdeliveries hissued hhanded =>
      refine ⟨fun _ => keepsApart_of_handed_eq_nil hhanded, fun _ => ?_⟩
      intro c c' id h h'
      exact hw c c' id ((World.inFlight_congr hdeliveries).mp h)
        ((World.inFlight_congr hdeliveries).mp h')
    | inserts rows hfresh hnew hdb hkept hleases hclock hdeliveries hissued hhanded =>
      refine ⟨fun _ => keepsApart_of_handed_eq_nil hhanded, fun _ => ?_⟩
      intro c c' id h h'
      exact hw c c' id ((World.inFlight_congr hdeliveries).mp h)
        ((World.inFlight_congr hdeliveries).mp h')
    | hands _ hidle hne hhanded hdecodes =>
      rw [Exclusive]
      simp only [World.inFlight_hands, World.mem_claimed_iff]
      constructor
      · -- a claimed message is in flight at this consumer only
        intro hexcl
        refine .inr (.inr ?_)
        intro c' id m hne hfl hreach
        refine hne (hexcl c' c id ?_ ?_)
        · rwa [if_neg hne]
        · rw [if_pos rfl]
          exact ⟨m, hreach⟩
      · rintro (hbusy | ⟨id, m, hreach, hm⟩ | hapart) c₁ c₂ id h₁ h₂
        · simp only [handed, hbusy, if_true] at hhanded
          exact absurd (List.map_eq_nil_iff.mp hhanded.symm) hne
        · have := hdecodes _ (World.reach_iff.mp hreach)
          rw [hm] at this
          cases this
        · split at h₁ <;> split at h₂
          · next h₁' h₂' => exact h₁'.trans h₂'.symm
          · next h₁' h₂' =>
              obtain ⟨m, hreach⟩ := h₁
              exact absurd hreach (hapart c₂ id m h₂' h₂)
          · next h₁' h₂' =>
              obtain ⟨m, hreach⟩ := h₂
              exact absurd hreach (hapart c₁ id m h₁' h₁)
          · exact hw c₁ c₂ id h₁ h₂
  · have ha : ∀ c, a ≠ .poll c := fun c hc => hpoll ⟨c, hc⟩
    refine ⟨fun _ => ?_, fun _ => ?_⟩
    · cases a with
      | poll c => exact absurd rfl (ha c)
      | _ => trivial
    · intro c c' id h h'
      exact hw c c' id (World.inFlight_of_act hact ha h) (World.inFlight_of_act hact ha h')

end Steps

/-! ### The results -/

/-- **Exclusive hand-out.** From any database on, whatever consumers, producers and pull requests
do, no message is in flight at two consumers at any time exactly when every poll of the run keeps
apart from what the other consumers have in flight. -/
theorem exclusive_throughout_iff (rt : Codec V) (cfg : ℕ → ConsumerConfig) (db : Db) (now : ℤ)
    (as : List (Action V)) :
    Throughout (act rt cfg) Exclusive (.start db now) as ↔
      Along (act rt cfg) (keepsApart rt cfg) (.start db now) as := by
  have hstart : Exclusive (.start db now) := by
    rintro c c' id ⟨d, hd, -⟩
    cases hd
  exact throughout_iff_along (J := fun _ => True) trivial hstart (fun _ _ _ _ _ _ => trivial)
    fun _ _ _ _ hw hact => hw.step hact

/-- A queue with one message. -/
def oneMessage : Db where
  messages := Table.empty.insert "m1" ⟨"jobs", [0x31], .json, 0, .pending, 0, 0, none⟩
  leases := .empty

/-- While the first of two consumers handles the message, the second is given it too. -/
theorem not_exclusive :
    ¬ ∀ w, Reaches (act jsonText fun _ => { queue := "jobs" }) unguarded (.start oneMessage 0) w →
      Exclusive w := by
  intro hall
  have hrun : (play (restrict (act jsonText fun _ => { queue := "jobs" }) unguarded)
      (.start oneMessage 0) [.poll 0, .poll 1]).any (fun w =>
        (w.deliveries 0).any (fun d => "m1" ∈ d.rows.map Prod.fst) &&
          (w.deliveries 1).any fun d => "m1" ∈ d.rows.map Prod.fst) = true := by
    decide
  obtain ⟨w, hreach, hw⟩ := exists_reaches_of_play hrun
  obtain ⟨h₀, h₁⟩ := Bool.and_eq_true_iff.mp hw
  have hfl : ∀ c, (w.deliveries c).any (fun d => "m1" ∈ d.rows.map Prod.fst) = true →
      w.inFlight c "m1" := by
    intro c hc
    cases hd : w.deliveries c with
    | none =>
        rw [hd] at hc
        cases hc
    | some d =>
        rw [hd] at hc
        exact ⟨d, hd, of_decide_eq_true hc⟩
  exact absurd (hall w hreach 0 1 "m1" (hfl 0 h₀) (hfl 1 h₁)) (by decide)

end Lopata.Queue
