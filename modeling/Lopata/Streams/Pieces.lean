import Lopata.Streams.Channel

/-!
# What the Pieces of a Stream Do

Each piece of a run is said once: what the pump can do, and that whatever happens on the
receiver's side only advances the stream, each pull with a credit on its way to the sender.
-/

namespace Lopata.Streams

variable {α ε : Type*} {w : Option ℕ} {s s' t : State α ε} {a : α} {ev : StreamEvent α ε}
  {st st' : ReadableStream α ε}

namespace State

/-! ### The sender -/

/-- What a settled read of the pump leads to. -/
theorem produce_cases {fails : Option ε} (h : s.produce fails = some s') :
    s.pump = .reading ∧
      ((s.source = [] ∧ s' = s.exit (s.ending.elim .close .error)) ∨
        ∃ a rest, s.source = a :: rest ∧
          ((s.registry = none ∧ s' = exit { s with source := rest } .close) ∨
            ∃ o, s.registry = some o ∧
              ((o.credits = some 0 ∧ s' = { s with
                  source := rest
                  registry := some { o with waiter := true }
                  pump := .parked a }) ∨
                (o.credits ≠ some 0 ∧ s' =
                  postChunk { s with source := rest, registry := some o.take } a fails)))) := by
  unfold produce at h
  split at h
  · next hpump hsource =>
      exact ⟨hpump, .inl ⟨hsource, (Option.some.inj h).symm⟩⟩
  · next a rest hpump hsource hregistry =>
      exact ⟨hpump, .inr ⟨a, rest, hsource, .inl ⟨hregistry, (Option.some.inj h).symm⟩⟩⟩
  · next a rest o hpump hsource hregistry =>
      refine ⟨hpump, .inr ⟨a, rest, hsource, .inr ⟨o, hregistry, ?_⟩⟩⟩
      split at h
      · next hcredits => exact .inl ⟨hcredits, (Option.some.inj h).symm⟩
      · next hcredits => exact .inr ⟨hcredits, (Option.some.inj h).symm⟩
  · cases h

/-- What a pump that resumes does. -/
theorem resume_cases {fails : Option ε} (h : s.resume fails = some s') :
    ∃ a, s.pump = .resuming a ∧
      ((s.registry = none ∧ s' = s.exit .close) ∨
        ∃ o, s.registry = some o ∧
          s' = postChunk { s with registry := some o.take } a fails) := by
  unfold resume at h
  split at h
  · next a hpump hregistry => exact ⟨a, hpump, .inl ⟨hregistry, (Option.some.inj h).symm⟩⟩
  · next a o hpump hregistry =>
      exact ⟨a, hpump, .inr ⟨o, hregistry, (Option.some.inj h).symm⟩⟩
  · cases h

theorem answer_cases (h : s.answer = some s') :
    ∃ reply rest, s.toSender = reply :: rest ∧
      ((reply = .ack ∧ s' = grantCredit { s with toSender := rest }) ∨
        (reply = .cancel ∧ s' = cancelPump { s with toSender := rest })) := by
  unfold answer at h
  split at h
  · cases h
  · next rest hsender => exact ⟨.ack, rest, hsender, .inl ⟨rfl, (Option.some.inj h).symm⟩⟩
  · next rest hsender => exact ⟨.cancel, rest, hsender, .inr ⟨rfl, (Option.some.inj h).symm⟩⟩

theorem deliver_cases (h : s.deliver w = some s') :
    ∃ ev rest, s.toReceiver = ev :: rest ∧ s' = onEvent w { s with toReceiver := rest } ev := by
  unfold deliver at h
  split at h
  · cases h
  · next ev rest hreceiver => exact ⟨ev, rest, hreceiver, (Option.some.inj h).symm⟩

theorem openStream_cases (h : s.openStream w = some s') :
    s.stream = none ∧
      s' = (s.receiver.pending.getD []).foldl (fun s ev => s.apply w ev) (s.opened w) := by
  unfold openStream at h
  split at h
  · next hstream => exact ⟨hstream, (Option.some.inj h).symm⟩
  · cases h

/-! ### The receiver -/

/-- The credits of some pulls, if there is a window. -/
def acks (w : Option ℕ) (n : ℕ) : List Reply :=
  if w.isSome then List.replicate n .ack else []

theorem acks_add (m n : ℕ) : acks w (m + n) = acks w m ++ acks w n := by
  unfold acks
  split
  · exact List.replicate_add ..
  · rfl

/-- Nothing happened on the sender's side, and the stream's pulls granted credits. -/
structure Advances (w : Option ℕ) (s s' : State α ε) : Prop where
  source : s'.source = s.source
  ending : s'.ending = s.ending
  registry : s'.registry = s.registry
  pump : s'.pump = s.pump
  toReceiver : s'.toReceiver = s.toReceiver
  posted : s'.posted = s.posted
  discarded : s'.discarded = s.discarded
  granted : s.granted ≤ s'.granted
  toSender : s'.toSender = s.toSender ++ acks w (s'.granted - s.granted)
  observed : s.observed <+: s'.observed

theorem Advances.refl (s : State α ε) : Advances w s s where
  source := rfl
  ending := rfl
  registry := rfl
  pump := rfl
  toReceiver := rfl
  posted := rfl
  discarded := rfl
  granted := Nat.le_refl _
  toSender := by simp [acks]
  observed := List.prefix_refl _

theorem Advances.trans (h : Advances w s s') (h' : Advances w s' t) : Advances w s t where
  source := h'.source.trans h.source
  ending := h'.ending.trans h.ending
  registry := h'.registry.trans h.registry
  pump := h'.pump.trans h.pump
  toReceiver := h'.toReceiver.trans h.toReceiver
  posted := h'.posted.trans h.posted
  discarded := h'.discarded.trans h.discarded
  granted := Nat.le_trans h.granted h'.granted
  toSender := by
    have hle := h.granted
    have hle' := h'.granted
    have hsum : t.granted - s.granted = (s'.granted - s.granted) + (t.granted - s'.granted) := by
      omega
    rw [h'.toSender, h.toSender, hsum, acks_add, List.append_assoc]
  observed := h.observed.trans h'.observed

@[simp] theorem granted_setStream : (s.setStream w st).granted = st.pulls := rfl

theorem advances_setStream (h : s.granted ≤ st.pulls) (hobserved : s.observed <+: st.observed) :
    Advances w s (s.setStream w st) where
  source := rfl
  ending := rfl
  registry := rfl
  pump := rfl
  toReceiver := rfl
  posted := rfl
  discarded := rfl
  granted := h
  toSender := rfl
  observed := hobserved

theorem granted_of_stream (h : s.stream = some st) : s.granted = st.pulls := by
  rw [granted, h]
  rfl

theorem observed_of_stream (h : s.stream = some st) : s.observed = st.observed := by
  rw [observed, h]
  rfl

/-- An operation of the stream that keeps what it has pulled and given. -/
theorem advances_of_stream (hstream : s.stream = some st) (hpulls : st.pulls ≤ st'.pulls)
    (hobserved : st.observed <+: st'.observed) : Advances w s (s.setStream w st') :=
  advances_setStream (by rw [granted_of_stream hstream]; exact hpulls)
    (by rw [observed_of_stream hstream]; exact hobserved)

/-- What a stream gives and pulls for an event, which it drops if it is over. -/
theorem getD_feed (st : ReadableStream α ε) (ev : StreamEvent α ε) :
    st.pulls ≤ ((st.feed ev).getD st).pulls ∧
      st.observed <+: ((st.feed ev).getD st).observed := by
  cases hfeed : st.feed ev with
  | none => exact ⟨Nat.le_refl _, List.prefix_refl _⟩
  | some st' =>
    exact ⟨(ReadableStream.feed_work hfeed).1, ReadableStream.observed_feed hfeed⟩

theorem advances_apply (s : State α ε) (ev : StreamEvent α ε) : Advances w s (s.apply w ev) := by
  unfold apply
  split
  · exact Advances.refl s
  · next st hstream =>
      obtain ⟨hpulls, hobserved⟩ := getD_feed st ev
      split
      · exact advances_of_stream hstream hpulls hobserved
      · have hset := advances_of_stream (w := w) (s := s.detach) hstream hpulls hobserved
        exact ⟨hset.source, hset.ending, hset.registry, hset.pump, hset.toReceiver, hset.posted,
          hset.discarded, hset.granted, hset.toSender, hset.observed⟩

theorem advances_replay (s : State α ε) (evs : List (StreamEvent α ε)) :
    Advances w s (evs.foldl (fun s ev => s.apply w ev) s) := by
  induction evs generalizing s with
  | nil => exact Advances.refl s
  | cons ev evs ih => exact (advances_apply s ev).trans (ih (s.apply w ev))

theorem advances_onEvent (s : State α ε) (ev : StreamEvent α ε) :
    Advances w s (s.onEvent w ev) := by
  have hsame : ∀ r, Advances w s { s with receiver := r } := fun r =>
    ⟨rfl, rfl, rfl, rfl, rfl, rfl, rfl, Nat.le_refl _, by simp [granted, acks],
      List.prefix_refl _⟩
  unfold onEvent
  split
  · split
    · exact Advances.refl s
    · exact hsame _
  · split
    · exact advances_apply s ev
    · exact hsame _

theorem advances_openStream (h : s.openStream w = some s') : Advances w s s' := by
  obtain ⟨hstream, rfl⟩ := openStream_cases h
  have hopened : Advances w s (s.opened w) :=
    ⟨rfl, rfl, rfl, rfl, rfl, rfl, rfl, by simp [granted, hstream],
      by simp [granted, hstream, opened, acks], by simp [observed, hstream]⟩
  exact hopened.trans (advances_replay (s.opened w) _)

/-- A reaction of the stream. -/
theorem react_cases {p : ReadableStream α ε → Bool} {f : ReadableStream α ε → ReadableStream α ε}
    (h : ((s.stream.filter p).map fun st => s.setStream w (f st)) = some s') :
    ∃ st, s.stream = some st ∧ p st = true ∧ s' = s.setStream w (f st) := by
  obtain ⟨st, hst, rfl⟩ := Option.map_eq_some_iff.mp h
  obtain ⟨hstream, hp⟩ := Option.filter_eq_some_iff.mp hst
  exact ⟨st, hstream, hp, rfl⟩

theorem start_cases (h : step w s .start = some s') :
    ∃ st, s.stream = some st ∧ st.started = false ∧ s' = s.setStream w st.start ∧
      Advances w s s' := by
  obtain ⟨st, hstream, hstarted, rfl⟩ := react_cases h
  have hidle : st.started = false := by simpa using hstarted
  refine ⟨st, hstream, hidle, rfl, ?_⟩
  refine advances_of_stream hstream (ReadableStream.start_work hidle).1 ?_
  rw [ReadableStream.observed_start]

theorem pulled_cases (h : step w s .pulled = some s') :
    ∃ st, s.stream = some st ∧ st.pulling = true ∧ s' = s.setStream w st.pulled ∧
      Advances w s s' := by
  obtain ⟨st, hstream, hpulling, rfl⟩ := react_cases h
  refine ⟨st, hstream, hpulling, rfl, ?_⟩
  refine advances_of_stream hstream (ReadableStream.pulled_work hpulling).1 ?_
  rw [ReadableStream.observed_pulled]

theorem read_cases (h : step w s .read = some s') :
    ∃ st, s.stream = some st ∧ s' = s.setStream w st.read ∧ Advances w s s' := by
  obtain ⟨st, hstream, rfl⟩ := Option.map_eq_some_iff.mp h
  exact ⟨st, hstream, rfl, advances_of_stream hstream (ReadableStream.read_work st).1
    ReadableStream.observed_read⟩

/-- What the consumer's cancel does: nothing to a stream that is over. -/
theorem cancel_cases (h : step w s .cancel = some s') :
    ∃ st, s.stream = some st ∧
      ((st.status.isReadable = true ∧ Advances w s (s.setStream w st.cancel) ∧
          s' = (s.setStream w st.cancel).cancelReceiver) ∨
        (st.status.isReadable = false ∧ s' = s)) := by
  obtain ⟨st, hstream, h⟩ := Option.map_eq_some_iff.mp h
  refine ⟨st, hstream, ?_⟩
  split at h
  · next hstatus =>
      have hadvances : Advances w s (s.setStream w st.cancel) :=
        advances_of_stream hstream (Nat.le_of_eq ReadableStream.pulls_cancel.symm)
          ReadableStream.observed_cancel
      exact .inl ⟨hstatus, hadvances, h.symm⟩
  · next hstatus => exact .inr ⟨by simpa using hstatus, h.symm⟩

end State

end Lopata.Streams
