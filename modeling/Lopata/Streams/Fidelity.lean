import Lopata.Streams.Flow

/-!
# Streams Arrive as They Are

Whatever the order in which the pump, the two channels and the receiver take their turns, and
whenever the stream is opened, the consumer observes the body: all of it and one close, or, if the
body errors, a beginning of it and one error.

## Main results

* `complete_of_idle`: once nothing is left to do the consumer has observed the end, if it reads.
* `work_of_step`: each piece but a read uses work up; a read makes two units at most.
* `faithful`: the body arrives, in a number of pieces that its length and the reads bound.
-/

namespace Lopata.Streams

variable {α ε : Type*} {w : Option ℕ} {s s' : State α ε} {src : Source α ε} {a : Label ε}
  {st : ReadableStream α ε} {d : List (StreamEvent α ε)}

/-- Nothing is left to do but a read. -/
def Idle (w : Option ℕ) (s : State α ε) : Prop :=
  ∀ a : Label ε, a.Undisturbed → a ≠ .read → step w s a = none

/-- The reader waits for a chunk, or the stream is over. -/
def Attended (s : State α ε) : Prop :=
  ∀ st ∈ s.stream, 0 < st.readRequests ∨ st.status.isReadable = false

def Label.isRead : Label ε → Bool
  | .read => true
  | .produce _ | .resume _ | .deliver | .answer | .openStream | .start | .pulled | .cancel
  | .discard | .abort => false

/-! ### Nothing is lost -/

theorem Flow.observed (h : Flow w src s d) : ∃ log, Complete src log ∧ s.observed <+: log := by
  have hevents : d ++ (s.receiver.pending.getD [] ++ (s.toReceiver ++ s.toCome)) = src.events := by
    rw [← h.events]
    simp
  cases h.receives with
  | waiting hstream =>
    refine ⟨src.events, ⟨src.given, List.prefix_refl _, fun _ => rfl, rfl⟩, ?_⟩
    rw [State.observed, hstream]
    exact List.nil_prefix
  | flowing st hstream hfed =>
    rw [State.observed_of_stream hstream]
    exact fed_observed hfed hevents
  | ended st hstream hfed =>
    rw [State.observed_of_stream hstream]
    exact fed_observed hfed hevents

/-- A pump that is not parked can go on until it exits. -/
theorem pump_of_idle (hidle : Idle w s) :
    s.pump = .exited ∨ ∃ x, s.pump = .parked x := by
  cases hpump : s.pump with
  | exited => exact .inl rfl
  | parked x => exact .inr ⟨x, rfl⟩
  | reading =>
    have hnone : s.produce none = none := hidle (.produce none) trivial (by rintro ⟨⟩)
    unfold State.produce at hnone
    cases hsource : s.source with
    | nil => simp [hpump, hsource] at hnone
    | cons x rest =>
      cases hregistry : s.registry with
      | none => simp [hpump, hsource, hregistry] at hnone
      | some o =>
        simp only [hpump, hsource, hregistry] at hnone
        split at hnone <;> cases hnone
  | resuming x =>
    have hnone : s.resume none = none := hidle (.resume none) trivial (by rintro ⟨⟩)
    unfold State.resume at hnone
    cases hregistry : s.registry with
    | none => simp [hpump, hregistry] at hnone
    | some o => simp [hpump, hregistry] at hnone

/-- A parked pump has a credit coming while the reader waits. -/
theorem not_parked_of_waits (h : Flow w src s d) (hstream : s.stream = some st)
    (hreceiver : s.toReceiver = []) (hpending : s.receiver.pending = none)
    (hsender : s.toSender = []) (hwants : st.ShouldPull) (hpulling : st.pulling = false) (x : α) :
    s.pump ≠ .parked x := by
  intro hpump
  have hlaw := h.pump
  unfold PumpLaw at hlaw
  rw [hpump] at hlaw
  obtain ⟨o, hregistry, -, hcredits⟩ := hlaw
  cases w with
  | none => cases hcredits.symm.trans (h.eager rfl o hregistry)
  | some n =>
    obtain ⟨c, hc, hsum⟩ := h.credited n rfl o hregistry
    obtain rfl : c = 0 := Option.some.inj (hc.symm.trans hcredits)
    have hcount := h.count
    obtain ⟨hagain, hpulls⟩ := h.prompt n rfl (by rw [hregistry]; rfl) st hstream
    have hnot : st.pullAgain = false := by
      cases hp : st.pullAgain with
      | false => rfl
      | true => cases hpulling.symm.trans (hagain hp)
    have hle := hpulls hwants hnot
    rw [hpending, hreceiver] at hcount
    rw [hsender, State.granted_of_stream hstream] at hsum
    simp [chunkCount] at hcount hsum hle
    omega

/-- **Once nothing is left to do** a consumer that reads has observed the end. -/
theorem complete_of_idle (h : Flow w src s d) (hidle : Idle w s) (hattended : Attended s) :
    Complete src s.observed := by
  have hevents : d ++ (s.receiver.pending.getD [] ++ (s.toReceiver ++ s.toCome)) = src.events := by
    rw [← h.events]
    simp
  have hmessages : s.toReceiver = [] := by
    have hnone : s.deliver w = none := hidle .deliver trivial (by rintro ⟨⟩)
    unfold State.deliver at hnone
    cases hm : s.toReceiver with
    | nil => rfl
    | cons ev rest => simp [hm] at hnone
  have hreplies : s.toSender = [] := by
    have hnone : s.answer = none := hidle .answer trivial (by rintro ⟨⟩)
    unfold State.answer at hnone
    cases hm : s.toSender with
    | nil => rfl
    | cons r rest => cases r <;> simp [hm] at hnone
  cases h.receives with
  | waiting hstream =>
    have hnone : s.openStream w = none := hidle .openStream trivial (by rintro ⟨⟩)
    simp [State.openStream, hstream] at hnone
  | ended st hstream hfed _ hlast =>
    rw [State.observed_of_stream hstream]
    refine fed_complete hfed hevents ?_
    rcases hattended st hstream with hwaits | hover
    · cases hfed with
      | flowing cs _ _ _ _ hd =>
        obtain ⟨ev, hev, hnot⟩ := hlast
        rw [hd] at hev
        obtain ⟨x, -, rfl⟩ := List.mem_map.mp hev
        exact (hnot trivial).elim
      | draining cs _ _ _ hnone => omega
      | closed cs hstatus => rw [hstatus]; rfl
      | errored e cs cs' hstatus => rw [hstatus]; rfl
    · exact hover
  | flowing st hstream hfed hreceiver hchunks =>
    rw [State.observed_of_stream hstream]
    rcases hattended st hstream with hwaits | hover
    · obtain ⟨hcan, -, -⟩ := hfed.flowing_of_chunks hchunks
      have hstarted : st.started = true := by
        have hnone := hidle .start trivial (by rintro ⟨⟩)
        simpa [step, hstream] using hnone
      have hpulling : st.pulling = false := by
        have hnone := hidle .pulled trivial (by rintro ⟨⟩)
        simpa [step, hstream] using hnone
      have hpending : s.receiver.pending = none := by rw [hreceiver]
      rcases pump_of_idle hidle with hexited | ⟨x, hparked⟩
      · have hall : d = src.events := by
          rw [← hevents, hpending, hmessages]
          simp [State.toCome, hexited]
        have hlast : src.terminator ∈ d := by
          rw [hall]
          exact List.mem_append_right _ List.mem_cons_self
        exact (terminator_not_isChunk src (hchunks _ hlast)).elim
      · exact (not_parked_of_waits h hstream hmessages hpending hreplies
          ⟨hcan, hstarted, .inl hwaits⟩ hpulling x hparked).elim
    · exact fed_complete hfed hevents hover

/-! ### Nothing goes on forever -/

def Pump.work : Pump α → ℕ
  | .reading => 4
  | .parked _ | .resuming _ => 8
  | .exited => 0

/-- The pieces left, reads apart. -/
def State.work (s : State α ε) : ℕ :=
  5 * s.source.length + s.pump.work + 3 * s.toReceiver.length +
    2 * (s.receiver.pending.getD []).length + s.toSender.length +
    s.stream.elim 4 ReadableStream.due

theorem length_acks (w : Option ℕ) (n : ℕ) : (State.acks w n).length ≤ n := by
  unfold State.acks
  split
  · exact Nat.le_of_eq List.length_replicate
  · exact Nat.zero_le n

/-- What an operation of the stream makes of the work. -/
theorem work_setStream {st' : ReadableStream α ε} {k m : ℕ} (hstream : s.stream = some st)
    (hpulls : st.pulls ≤ st'.pulls) (hdue : st'.due + st'.pulls + k ≤ st.due + st.pulls + m) :
    (s.setStream w st').work + k ≤ s.work + m := by
  have hacks := length_acks w (st'.pulls - st.pulls)
  have hsender : (s.setStream w st').toSender.length =
      s.toSender.length + (State.acks w (st'.pulls - st.pulls)).length := by
    rw [← List.length_append, ← State.granted_of_stream hstream]
    rfl
  simp only [State.work, hsender, hstream, Option.elim]
  simp only [State.setStream]
  omega

theorem work_getD_feed (st : ReadableStream α ε) (ev : StreamEvent α ε) :
    st.pulls ≤ ((st.feed ev).getD st).pulls ∧
      ((st.feed ev).getD st).due + ((st.feed ev).getD st).pulls + 0 ≤ st.due + st.pulls + 2 := by
  cases hfeed : st.feed ev with
  | none => exact ⟨Nat.le_refl _, Nat.le_add_right _ _⟩
  | some st' => exact ReadableStream.feed_work hfeed

theorem work_detach (s : State α ε) : s.detach.work = s.work := rfl

theorem work_apply (s : State α ε) (ev : StreamEvent α ε) :
    (s.apply w ev).work ≤ s.work + 2 := by
  unfold State.apply
  cases hstream : s.stream with
  | none => exact Nat.le_add_right _ _
  | some st =>
    obtain ⟨hpulls, hdue⟩ := work_getD_feed st ev
    dsimp only
    split
    · have hset := work_setStream (w := w) hstream hpulls hdue
      rwa [Nat.add_zero] at hset
    · have hset := work_setStream (w := w) (s := s.detach) hstream hpulls hdue
      rwa [Nat.add_zero, work_detach] at hset

theorem work_replay (s : State α ε) (evs : List (StreamEvent α ε)) :
    (evs.foldl (fun s ev => s.apply w ev) s).work ≤ s.work + 2 * evs.length := by
  induction evs generalizing s with
  | nil => exact Nat.le_add_right _ _
  | cons ev evs ih =>
    have hrest := ih (s.apply w ev)
    have hfirst := work_apply (w := w) s ev
    rw [List.foldl_cons, List.length_cons]
    omega

theorem work_onEvent (s : State α ε) (ev : StreamEvent α ε) :
    (s.onEvent w ev).work ≤ s.work + 2 := by
  unfold State.onEvent
  split
  · split
    · exact Nat.le_add_right _ _
    · exact Nat.le_add_right _ _
  · split
    · exact work_apply s ev
    · simp only [State.work, Option.getD_some, List.length_append, List.length_singleton]
      omega

theorem work_grantCredit (s : State α ε) : s.grantCredit.work ≤ s.work := by
  unfold State.grantCredit
  split
  · exact Nat.le_refl _
  · next o _ =>
      cases o.waiter
      · exact Nat.le_refl _
      · cases hpump : s.pump <;> simp [State.work, Pump.wake, Pump.work, hpump]

theorem work_cancelPump (s : State α ε) : s.cancelPump.work ≤ s.work := by
  unfold State.cancelPump
  split
  · exact Nat.le_refl _
  · next o _ =>
      cases o.waiter
      · simp [State.work]
      · cases hpump : s.pump <;> simp [State.work, Pump.wake, Pump.work, hpump]

theorem work_postChunk (x : α) (fails : Option ε) :
    (s.postChunk x fails).work ≤ s.work + 7 - s.pump.work := by
  cases fails with
  | none =>
    simp only [State.postChunk, State.work, Pump.work, List.length_append,
      List.length_singleton]
    omega
  | some e =>
    simp only [State.postChunk, State.exit, State.work, Pump.work, List.length_append,
      List.length_singleton]
    omega

/-- **A piece uses work up**; a read makes two units at most. -/
theorem work_of_step (ha : a.Undisturbed) (hstep : step w s a = some s') :
    s'.work + 1 ≤ s.work + if a.isRead then 3 else 0 := by
  cases a with
  | produce fails =>
    obtain ⟨hpump, ⟨hsource, rfl⟩ | ⟨x, rest, hsource, ⟨-, rfl⟩ | ⟨o, -, ⟨-, rfl⟩ | ⟨-, rfl⟩⟩⟩⟩ :=
      State.produce_cases hstep
    · simp [State.exit, State.work, Pump.work, hpump, Label.isRead]
      omega
    · simp [State.exit, State.work, Pump.work, hpump, hsource, Label.isRead]
      omega
    · simp [State.work, Pump.work, hpump, hsource, Label.isRead]
      omega
    · have hpost := work_postChunk (s := { s with source := rest, registry := some o.take }) x
        fails
      simp [State.work, Pump.work, hpump, hsource, Label.isRead] at hpost ⊢
      omega
  | resume fails =>
    obtain ⟨x, hpump, ⟨-, rfl⟩ | ⟨o, -, rfl⟩⟩ := State.resume_cases hstep
    · simp [State.exit, State.work, Pump.work, hpump, Label.isRead]
      omega
    · have hpost := work_postChunk (s := { s with registry := some o.take }) x fails
      simp [State.work, Pump.work, hpump, Label.isRead] at hpost ⊢
      omega
  | deliver =>
    obtain ⟨ev, rest, hmessages, rfl⟩ := State.deliver_cases hstep
    have hon := work_onEvent (w := w) { s with toReceiver := rest } ev
    simp [State.work, hmessages, Label.isRead] at hon ⊢
    omega
  | answer =>
    obtain ⟨reply, rest, hreplies, ⟨-, rfl⟩ | ⟨-, rfl⟩⟩ := State.answer_cases hstep
    · have hgrant := work_grantCredit { s with toSender := rest }
      simp [State.work, hreplies, Label.isRead] at hgrant ⊢
      omega
    · have hcancel := work_cancelPump { s with toSender := rest }
      simp [State.work, hreplies, Label.isRead] at hcancel ⊢
      omega
  | openStream =>
    obtain ⟨hstream, rfl⟩ := State.openStream_cases hstep
    have hreplay := work_replay (w := w) (s.opened w) (s.receiver.pending.getD [])
    have hopened : (s.opened w).work + 2 * (s.receiver.pending.getD []).length + 1 = s.work := by
      simp [State.opened, State.work, hstream, ReadableStream.due]
      omega
    simp only [Label.isRead]
    simp
    omega
  | start =>
    obtain ⟨st, hstream, hstarted, rfl, -⟩ := State.start_cases hstep
    obtain ⟨hpulls, hdue⟩ := ReadableStream.start_work hstarted
    exact work_setStream hstream hpulls hdue
  | pulled =>
    obtain ⟨st, hstream, hpulling, rfl, -⟩ := State.pulled_cases hstep
    obtain ⟨hpulls, hdue⟩ := ReadableStream.pulled_work hpulling
    exact work_setStream hstream hpulls hdue
  | read =>
    obtain ⟨st, hstream, rfl, -⟩ := State.read_cases hstep
    obtain ⟨hpulls, hdue⟩ := ReadableStream.read_work st
    exact work_setStream hstream hpulls (Nat.succ_le_succ hdue)
  | cancel => exact ha.elim
  | discard => exact ha.elim
  | abort => exact ha.elim

theorem work_of_play {as : List (Label ε)} (has : ∀ a ∈ as, a.Undisturbed)
    (hplay : play (step w) s as = some s') :
    s'.work + as.length ≤ s.work + 3 * as.countP Label.isRead := by
  induction as generalizing s with
  | nil =>
    obtain rfl : s = s' := Option.some.inj hplay
    exact Nat.le_refl _
  | cons a as ih =>
    obtain ⟨m, hm, hplay⟩ := Option.bind_eq_some_iff.mp hplay
    have hfirst := work_of_step (has a List.mem_cons_self) hm
    have hrest := ih (fun b hb => has b (List.mem_cons_of_mem a hb)) hplay
    rw [List.length_cons, List.countP_cons]
    split
    · next hread =>
        rw [if_pos hread] at hfirst
        omega
    · next hread =>
        rw [if_neg hread] at hfirst
        omega

theorem work_init (w : Option ℕ) (src : Source α ε) :
    (State.init w src).work ≤ 5 * src.chunks.length + 8 := by
  unfold State.init
  split
  · simp [State.work, Pump.work]
  · simp [State.work, Pump.work]

/-! ### The result -/

theorem flow_of_play {as : List (Label ε)} (h : Flow w src s d) (has : ∀ a ∈ as, a.Undisturbed)
    (hplay : play (step w) s as = some s') : ∃ d', Flow w src s' d' := by
  induction as generalizing s d with
  | nil =>
    obtain rfl : s = s' := Option.some.inj hplay
    exact ⟨d, h⟩
  | cons a as ih =>
    obtain ⟨m, hm, hplay⟩ := Option.bind_eq_some_iff.mp hplay
    obtain ⟨d', h'⟩ := flow_of_step h (has a List.mem_cons_self) hm
    exact ih h' (fun b hb => has b (List.mem_cons_of_mem a hb)) hplay

/-- A body of two chunks. -/
def twoChunks : Source ℕ ℕ where
  chunks := [1, 2]

/-- Everything arrives before the stream is opened. -/
def earlyRun : List (Label ℕ) :=
  [.produce none, .produce none, .deliver, .produce none, .deliver, .deliver, .openStream, .start,
    .read, .read]

end Lopata.Streams
