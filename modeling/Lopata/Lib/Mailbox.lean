import Mathlib.Data.List.Nodup

/-!
# Mailboxes with Hand-Over

A mailbox takes messages in the order in which they are sent. A message goes to a receiver that
is already there, or into the store, from where a later receiver takes the oldest one of its
topic. The mailbox is fair if every topic is served in the order of sending, nothing of it is
lost or served twice, and no receiver is served twice.

## Main results

* `Mailbox.Fair.post`, `Mailbox.Fair.hand`, `Mailbox.Fair.take`: the three operations keep a
  mailbox fair; a hand-over needs the store to be empty for its topic.
-/

namespace Lopata

/-- The messages sent, the messages served with their receivers, and the messages in the store,
each oldest first. -/
structure Mailbox (κ ε : Type*) where
  sent : List ε
  served : List (κ × ε)
  stored : List ε

variable {κ ε τ : Type*} [DecidableEq τ] {topic : ε → τ}

/-- The messages of one topic. -/
def ofTopic (topic : ε → τ) (t : τ) (es : List ε) : List ε :=
  es.filter fun e => topic e = t

@[simp] theorem ofTopic_nil (t : τ) : ofTopic topic t [] = [] := rfl

theorem ofTopic_append (t : τ) (es es' : List ε) :
    ofTopic topic t (es ++ es') = ofTopic topic t es ++ ofTopic topic t es' :=
  List.filter_append ..

theorem ofTopic_singleton (t : τ) (e : ε) :
    ofTopic topic t [e] = if topic e = t then [e] else [] := by
  by_cases h : topic e = t <;> simp [ofTopic, h]

/-- Removing the oldest message of a topic. -/
theorem ofTopic_eraseP (t t' : τ) (es : List ε) :
    ofTopic topic t' (es.eraseP fun e => topic e = t) =
      if t' = t then (ofTopic topic t' es).tail else ofTopic topic t' es := by
  induction es with
  | nil => simp
  | cons e es ih =>
    by_cases he : topic e = t
    · rw [List.eraseP_cons_of_pos (by simpa using he)]
      by_cases ht : t' = t
      · simp [ofTopic, he, ht]
      · simp [ofTopic, he, ht, Ne.symm ht]
    · rw [List.eraseP_cons_of_neg (by simpa using he)]
      by_cases ht' : topic e = t'
      · have hne : t' ≠ t := fun h => he (ht'.trans h)
        rw [if_neg hne] at ih ⊢
        simp only [ofTopic] at ih ⊢
        simp [ht', ih]
      · simp only [ofTopic] at ih ⊢
        simp only [List.filter_cons, decide_eq_true_eq, if_neg ht', ih]

namespace Mailbox

/-- Every topic is served in the order of sending and nothing of it is lost, and no receiver
is served twice. -/
structure Fair (topic : ε → τ) (b : Mailbox κ ε) : Prop where
  order : ∀ t, ofTopic topic t (b.served.map Prod.snd) ++ ofTopic topic t b.stored =
    ofTopic topic t b.sent
  once : (b.served.map Prod.fst).Nodup

/-- A message is stored. -/
def post (b : Mailbox κ ε) (e : ε) : Mailbox κ ε :=
  { b with sent := b.sent ++ [e], stored := b.stored ++ [e] }

/-- A message is handed to a receiver. -/
def hand (b : Mailbox κ ε) (k : κ) (e : ε) : Mailbox κ ε :=
  { b with sent := b.sent ++ [e], served := b.served ++ [(k, e)] }

/-- A receiver takes the oldest message of a topic out of the store. -/
def take (topic : ε → τ) (b : Mailbox κ ε) (k : κ) (e : ε) : Mailbox κ ε :=
  { b with
    served := b.served ++ [(k, e)]
    stored := b.stored.eraseP fun e' => topic e' = topic e }

variable {b : Mailbox κ ε} {k : κ} {e : ε}

theorem nodup_append_served (h : (b.served.map Prod.fst).Nodup) (hk : ∀ e', (k, e') ∉ b.served) :
    ((b.served ++ [(k, e)]).map Prod.fst).Nodup := by
  rw [List.map_append, List.nodup_append]
  refine ⟨h, List.nodup_singleton _, ?_⟩
  rintro k₁ hk₁ k₂ hk₂ rfl
  obtain ⟨⟨k', e'⟩, hmem, rfl⟩ := List.mem_map.mp hk₁
  obtain rfl : k' = k := List.mem_singleton.mp hk₂
  exact hk e' hmem

theorem Fair.post (h : b.Fair topic) (e : ε) : (b.post e).Fair topic where
  order t := by
    simp only [Mailbox.post, ofTopic_append, ← List.append_assoc, h.order t]
  once := h.once

/-- A message may pass the store by if nothing of its topic is in there. -/
theorem Fair.hand (h : b.Fair topic) (hempty : ofTopic topic (topic e) b.stored = [])
    (hk : ∀ e', (k, e') ∉ b.served) : (b.hand k e).Fair topic where
  order t := by
    have horder := h.order t
    simp only [Mailbox.hand, List.map_append, List.map_cons, List.map_nil, ofTopic_append,
      ofTopic_singleton]
    by_cases ht : topic e = t
    · subst ht
      rw [hempty, List.append_nil] at horder
      simp [horder, hempty]
    · simp [ht, horder]
  once := nodup_append_served h.once hk

/-- What is taken is the oldest message of its topic. -/
theorem Fair.take (h : b.Fair topic) (hfirst : (ofTopic topic (topic e) b.stored).head? = some e)
    (hk : ∀ e', (k, e') ∉ b.served) : (b.take topic k e).Fair topic where
  order t := by
    have horder := h.order t
    simp only [Mailbox.take, List.map_append, List.map_cons, List.map_nil, ofTopic_append,
      ofTopic_singleton, ofTopic_eraseP]
    by_cases ht : topic e = t
    · subst ht
      obtain ⟨rest, hrest⟩ := List.head?_eq_some_iff.mp hfirst
      rw [hrest] at horder
      simp [hrest, horder]
    · simp [ht, Ne.symm ht, horder]
  once := nodup_append_served h.once hk

end Mailbox

end Lopata
