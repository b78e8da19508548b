import Lopata.Streams.Credits

/-!
# What Streams Leave Behind

The entries of a stream id: the pump's in the registry of the sender; its controller, its pending
events, and its marks as open and as cancelled on the receiver's side. The mark as cancelled is
taken away by the terminator of the pump. A cancel after the terminator, whose sender has long
exited, sets a mark that nothing takes away: a consumer that cancels while the last chunks are
still in the queue, or a wiring that cancels a body which has arrived but was not read.

## Main results

* `tidy_of_step`: how far the terminator has come, and which entries there are.
* `leakless_throughout`: no entry is left if no cancel comes after the terminator and no
  cancelled stream is opened.
* `not_leakless`: a body of one chunk that arrives before its reader cancels it.
-/

namespace Lopata.Streams

variable {α ε : Type*} {w : Option ℕ} {s s' : State α ε} {src : Source α ε} {a : Label ε}
  {st : ReadableStream α ε} {ev : StreamEvent α ε}

def Pump.isExited : Pump α → Bool
  | .exited => true
  | .reading | .parked _ | .resuming _ => false

/-- The pump has posted its terminator, and the receiver has been given it. -/
def Terminated (s : State α ε) : Prop :=
  s.pump.isExited = true ∧ s.toReceiver.length = 0

instance (s : State α ε) : Decidable (Terminated s) :=
  inferInstanceAs (Decidable (_ ∧ _))

/-- The stream of the consumer is over, its own cancel included. -/
def Finished (s : State α ε) : Prop :=
  ∃ st ∈ s.stream, st.status.isReadable = false

instance (s : State α ε) : Decidable (Finished s) :=
  inferInstanceAs (Decidable (∃ st ∈ s.stream, _))

/-- Once everything has been delivered and the consumer has finished or the stream has been
cancelled, the id has no entry. -/
def Leakless (s : State α ε) : Prop :=
  Terminated s → s.toSender = [] → Finished s ∨ s.discarded = true →
    s.registry = none ∧ s.receiver = {}

instance [DecidableEq α] [DecidableEq ε] : Decidable (Leakless s) :=
  inferInstanceAs (Decidable (_ → _ → _ → _ ∧ _))

/-- A stream that is not over is cancelled before its terminator has been delivered, and a stream
that the wiring has cancelled is not opened. -/
def Timely (s : State α ε) : Label ε → Prop
  | .cancel => (∃ st ∈ s.stream, st.status.isReadable = true) → ¬ Terminated s
  | .discard => ¬ Terminated s
  | .openStream => s.discarded = false
  | .produce _ | .resume _ | .deliver | .answer | .start | .pulled | .read | .abort => True

instance (s : State α ε) : (a : Label ε) → Decidable (Timely s a)
  | .cancel => inferInstanceAs (Decidable ((∃ st ∈ s.stream, _) → _))
  | .discard => inferInstanceAs (Decidable (¬ _))
  | .openStream => inferInstanceAs (Decidable (_ = _))
  | .produce _ | .resume _ | .deliver | .answer | .start | .pulled | .read | .abort =>
      .isTrue trivial

/-! ### The invariant -/

/-- The entries of the receiver before the terminator. -/
inductive Live (s : State α ε) : Prop
  | cancelled (hreceiver : s.receiver = { cancelled := true })
      (hover : s.stream.isSome ∨ s.discarded = true)
  | waiting (hstream : s.stream = none) (hdiscarded : s.discarded = false)
      (pending : Option (List (StreamEvent α ε))) (hreceiver : s.receiver = { pending })
      (hchunks : ∀ ev ∈ pending.getD [], ev.IsChunk)
  | flowing (st : ReadableStream α ε) (hstream : s.stream = some st)
      (hdiscarded : s.discarded = false) (hcan : st.CanCloseOrEnqueue)
      (hreceiver : s.receiver = { controller := true, isOpen := true })

/-- The entries of the receiver after the terminator. -/
inductive Done (s : State α ε) : Prop
  | ended (hreceiver : s.receiver = {}) (hover : s.stream.isSome ∨ s.discarded = true)
  | waiting (hstream : s.stream = none) (hdiscarded : s.discarded = false)
      (evs : List (StreamEvent α ε)) (ev : StreamEvent α ε)
      (hreceiver : s.receiver = { pending := some (evs ++ [ev]) })
      (hchunks : ∀ ev ∈ evs, ev.IsChunk) (hlast : ¬ ev.IsChunk)

/-- How far the terminator has come, and the entries at that time. -/
inductive Tidy (s : State α ε) : Prop
  | pumping (hpump : s.pump.isExited = false) (hchunks : ∀ ev ∈ s.toReceiver, ev.IsChunk)
      (live : Live s)
  | underWay (hpump : s.pump.isExited = true) (evs : List (StreamEvent α ε))
      (ev : StreamEvent α ε) (hreceiver : s.toReceiver = evs ++ [ev])
      (hchunks : ∀ ev ∈ evs, ev.IsChunk) (hlast : ¬ ev.IsChunk) (live : Live s)
  | delivered (hpump : s.pump.isExited = true) (hreceiver : s.toReceiver = []) (done : Done s)

/-- Only these three matter. -/
theorem Live.congr (h : Live s) (hreceiver : s'.receiver = s.receiver)
    (hstream : s'.stream = s.stream) (hdiscarded : s'.discarded = s.discarded) : Live s' := by
  cases h with
  | cancelled h hover => exact .cancelled (hreceiver.trans h) (by rwa [hstream, hdiscarded])
  | waiting h h' pending h'' hchunks =>
    exact .waiting (hstream.trans h) (hdiscarded.trans h') pending (hreceiver.trans h'') hchunks
  | flowing st h h' hcan h'' =>
    exact .flowing st (hstream.trans h) (hdiscarded.trans h') hcan (hreceiver.trans h'')

theorem Done.congr (h : Done s) (hreceiver : s'.receiver = s.receiver)
    (hstream : s'.stream = s.stream) (hdiscarded : s'.discarded = s.discarded) : Done s' := by
  cases h with
  | ended h hover => exact .ended (hreceiver.trans h) (by rwa [hstream, hdiscarded])
  | waiting h h' evs ev h'' hchunks hlast =>
    exact .waiting (hstream.trans h) (hdiscarded.trans h') evs ev (hreceiver.trans h'') hchunks
      hlast

/-- A piece of the sender that posts nothing and does not exit. -/
theorem Tidy.congr (h : Tidy s) (hpump : s'.pump.isExited = s.pump.isExited)
    (hmessages : s'.toReceiver = s.toReceiver) (hreceiver : s'.receiver = s.receiver)
    (hstream : s'.stream = s.stream) (hdiscarded : s'.discarded = s.discarded) : Tidy s' := by
  cases h with
  | pumping h hchunks live =>
    exact .pumping (hpump.trans h) (hmessages ▸ hchunks) (live.congr hreceiver hstream hdiscarded)
  | underWay h evs ev h' hchunks hlast live =>
    exact .underWay (hpump.trans h) evs ev (hmessages.trans h') hchunks hlast
      (live.congr hreceiver hstream hdiscarded)
  | delivered h h' done =>
    exact .delivered (hpump.trans h) (hmessages.trans h') (done.congr hreceiver hstream hdiscarded)

/-- What the pump exits with is the last message. -/
theorem tidy_exit (hchunks : ∀ ev ∈ s.toReceiver, ev.IsChunk) (live : Live s)
    (hlast : ¬ ev.IsChunk) : Tidy (s.exit ev) :=
  .underWay rfl s.toReceiver ev rfl hchunks hlast (live.congr rfl rfl rfl)

theorem tidy_postChunk {x : α} (hchunks : ∀ ev ∈ s.toReceiver, ev.IsChunk) (live : Live s)
    (fails : Option ε) : Tidy (s.postChunk x fails) := by
  cases fails with
  | some e => exact tidy_exit hchunks live id
  | none =>
    refine .pumping rfl ?_ (live.congr rfl rfl rfl)
    intro ev hev
    rcases List.mem_append.mp hev with hev | hev
    · exact hchunks ev hev
    · obtain rfl := List.mem_singleton.mp hev
      trivial

theorem isExited_wake (p : Pump α) : p.wake.isExited = p.isExited := by
  cases p <;> rfl

theorem tidy_grantCredit (h : Tidy s) : Tidy s.grantCredit := by
  unfold State.grantCredit
  split
  · exact h
  · refine h.congr ?_ rfl rfl rfl rfl
    show (if _ then s.pump.wake else s.pump).isExited = _
    split
    · exact isExited_wake _
    · rfl

theorem tidy_cancelPump (h : Tidy s) : Tidy s.cancelPump := by
  unfold State.cancelPump
  split
  · exact h
  · refine h.congr ?_ rfl rfl rfl rfl
    show (if _ then s.pump.wake else s.pump).isExited = _
    split
    · exact isExited_wake _
    · rfl

/-- Before it exits the pump has posted chunks only. -/
theorem Tidy.pumping_of (h : Tidy s) (hpump : s.pump.isExited = false) :
    (∀ ev ∈ s.toReceiver, ev.IsChunk) ∧ Live s := by
  cases h with
  | pumping _ hchunks live => exact ⟨hchunks, live⟩
  | underWay h => cases hpump.symm.trans h
  | delivered h => cases hpump.symm.trans h

/-! ### The receiver -/

/-- A chunk for a stream that takes it changes no entry. -/
theorem apply_chunk (hstream : s.stream = some st) (hcan : st.CanCloseOrEnqueue)
    (hchunk : ev.IsChunk) : ∃ st', st'.CanCloseOrEnqueue ∧ s.apply w ev = s.setStream w st' := by
  cases ev with
  | chunk x =>
    obtain ⟨st', hfeed, hcan'⟩ := hcan.enqueue x
    refine ⟨st', hcan', ?_⟩
    rw [State.apply, hstream]
    simp only [hchunk, if_true, hfeed, Option.getD_some]
  | close => exact hchunk.elim
  | error e => exact hchunk.elim

/-- The terminator takes the controller and the mark as open away. -/
theorem apply_last (hstream : s.stream = some st) (hlast : ¬ ev.IsChunk) :
    (s.apply w ev).receiver = { s.receiver with controller := false, isOpen := false } ∧
      (s.apply w ev).stream.isSome := by
  rw [State.apply, hstream]
  simp only [hlast, if_false]
  exact ⟨rfl, rfl⟩

/-- The replay of chunks changes no entry. -/
theorem replay_chunks {evs : List (StreamEvent α ε)} (hstream : s.stream = some st)
    (hcan : st.CanCloseOrEnqueue) (hchunks : ∀ ev ∈ evs, ev.IsChunk) :
    ∃ st', (evs.foldl (fun s ev => s.apply w ev) s).stream = some st' ∧ st'.CanCloseOrEnqueue ∧
      (evs.foldl (fun s ev => s.apply w ev) s).receiver = s.receiver := by
  induction evs generalizing s st with
  | nil => exact ⟨st, hstream, hcan, rfl⟩
  | cons ev evs ih =>
    obtain ⟨st', hcan', happly⟩ := apply_chunk (w := w) hstream hcan
      (hchunks ev List.mem_cons_self)
    rw [List.foldl_cons, happly]
    exact ih rfl hcan' fun ev' hev' => hchunks ev' (List.mem_cons_of_mem ev hev')

/-- A chunk leaves the receiver live. -/
theorem live_onEvent (live : Live s) (hchunk : ev.IsChunk) : Live (s.onEvent w ev) := by
  have hdiscarded := (State.advances_onEvent (w := w) s ev).discarded
  unfold State.onEvent
  cases live with
  | cancelled hreceiver hover =>
    simp only [hreceiver, hchunk, if_true]
    exact .cancelled hreceiver hover
  | waiting hstream hnot pending hreceiver hchunks =>
    simp only [hreceiver, Bool.false_eq_true, if_false]
    refine .waiting hstream hnot _ rfl ?_
    intro ev' hev'
    rcases List.mem_append.mp hev' with hev' | hev'
    · exact hchunks ev' hev'
    · obtain rfl := List.mem_singleton.mp hev'
      exact hchunk
  | flowing st hstream hnot hcan hreceiver =>
    simp only [hreceiver, Bool.false_eq_true, if_false, if_true]
    obtain ⟨st', hcan', happly⟩ := apply_chunk (w := w) hstream hcan hchunk
    rw [happly]
    exact .flowing st' rfl hnot hcan' hreceiver

/-- **The terminator** leaves no entry but the pending events of a stream not yet opened. -/
theorem done_onEvent (live : Live s) (hlast : ¬ ev.IsChunk) : Done (s.onEvent w ev) := by
  unfold State.onEvent
  cases live with
  | cancelled hreceiver hover =>
    simp only [hreceiver, hlast, if_true, if_false]
    exact .ended rfl hover
  | waiting hstream hnot pending hreceiver hchunks =>
    simp only [hreceiver, Bool.false_eq_true, if_false]
    exact .waiting hstream hnot _ ev rfl hchunks hlast
  | flowing st hstream hnot hcan hreceiver =>
    simp only [hreceiver, Bool.false_eq_true, if_false, if_true]
    obtain ⟨hentries, hsome⟩ := apply_last (w := w) hstream hlast
    refine .ended ?_ (.inl hsome)
    rw [hentries, hreceiver]

/-- A stream opened before its terminator has come. -/
theorem live_openStream (live : Live s) (hnot : s.discarded = false)
    (h : s.openStream w = some s') : Live s' := by
  have hdiscarded := (State.advances_openStream h).discarded
  obtain ⟨hstream, rfl⟩ := State.openStream_cases h
  cases live with
  | cancelled _ hover => simp [hstream, hnot] at hover
  | waiting _ _ pending hreceiver hchunks =>
    have hpending : s.receiver.pending.getD [] = pending.getD [] := by rw [hreceiver]
    rw [hpending] at hdiscarded ⊢
    obtain ⟨st', hstream', hcan, hentries⟩ := replay_chunks (w := w) (s := s.opened w) rfl
      ⟨rfl, rfl⟩ hchunks
    refine .flowing st' hstream' (hdiscarded.trans hnot) hcan ?_
    rw [hentries]
    simp [State.opened, hreceiver]
  | flowing st hstream' => cases hstream.symm.trans hstream'

/-- A stream opened after its terminator has come. -/
theorem done_openStream (done : Done s) (hnot : s.discarded = false)
    (h : s.openStream w = some s') : Done s' := by
  obtain ⟨hstream, rfl⟩ := State.openStream_cases h
  cases done with
  | ended _ hover => simp [hstream, hnot] at hover
  | waiting _ _ evs ev hreceiver hchunks hlast =>
    obtain ⟨st', hstream', hcan, hentries⟩ := replay_chunks (w := w) (s := s.opened w) rfl
      ⟨rfl, rfl⟩ hchunks
    have hpending : s.receiver.pending.getD [] = evs ++ [ev] := by rw [hreceiver]; rfl
    rw [hpending, List.foldl_append, List.foldl_cons, List.foldl_nil]
    obtain ⟨hentries', hsome⟩ := apply_last (w := w) hstream' hlast
    refine .ended ?_ (.inl hsome)
    rw [hentries', hentries]
    simp [State.opened, hreceiver]

/-- A reaction or a read of a stream that goes on. -/
theorem tidy_setStream {st' : ReadableStream α ε} (h : Tidy s) (hstream : s.stream = some st)
    (hcan : st.CanCloseOrEnqueue → st'.CanCloseOrEnqueue) : Tidy (s.setStream w st') := by
  have hlive : Live s → Live (s.setStream w st') := by
    intro live
    cases live with
    | cancelled hreceiver _ => exact .cancelled hreceiver (.inl rfl)
    | waiting hnone => cases hnone.symm.trans hstream
    | flowing st₀ hstream₀ hnot hcan₀ hreceiver =>
      obtain rfl := Option.some.inj (hstream.symm.trans hstream₀)
      exact .flowing st' rfl hnot (hcan hcan₀) hreceiver
  cases h with
  | pumping h hchunks live => exact .pumping h hchunks (hlive live)
  | underWay h evs ev h' hchunks hlast live =>
    exact .underWay h evs ev h' hchunks hlast (hlive live)
  | delivered h h' done =>
    refine .delivered h h' ?_
    cases done with
    | ended hreceiver _ => exact .ended hreceiver (.inl rfl)
    | waiting hnone => cases hnone.symm.trans hstream

/-- A cancel before the terminator. -/
theorem tidy_cancelled (h : Tidy s) (hterminated : ¬ Terminated s)
    (hpump : s'.pump = s.pump) (hmessages : s'.toReceiver = s.toReceiver)
    (hreceiver : s'.receiver = { cancelled := true })
    (hover : s'.stream.isSome ∨ s'.discarded = true) : Tidy s' := by
  have live : Live s' := .cancelled hreceiver hover
  cases h with
  | pumping h hchunks _ => exact .pumping (hpump ▸ h) (hmessages ▸ hchunks) live
  | underWay h evs ev h' hchunks hlast _ =>
    exact .underWay (hpump ▸ h) evs ev (hmessages.trans h') hchunks hlast live
  | delivered h h' => exact (hterminated ⟨h, by rw [h']; rfl⟩).elim

/-! ### The results -/

theorem not_isChunk_elim (e : Option ε) :
    ¬ (e.elim .close .error : StreamEvent α ε).IsChunk := by
  cases e <;> exact id

/-- **A timely piece** keeps the entries tidy. -/
theorem tidy_of_step (h : Tidy s) (htimely : Timely s a) (hstep : step w s a = some s') :
    Tidy s' := by
  cases a with
  | produce fails =>
    obtain ⟨hpump, hcases⟩ := State.produce_cases hstep
    obtain ⟨hchunks, live⟩ := h.pumping_of (by rw [hpump]; rfl)
    obtain ⟨-, rfl⟩ | ⟨x, rest, -, ⟨-, rfl⟩ | ⟨o, -, ⟨-, rfl⟩ | ⟨-, rfl⟩⟩⟩ := hcases
    · exact tidy_exit hchunks live (not_isChunk_elim _)
    · exact tidy_exit (s := { s with source := rest }) hchunks (live.congr rfl rfl rfl) id
    · exact .pumping rfl hchunks (live.congr rfl rfl rfl)
    · exact tidy_postChunk (s := { s with source := rest, registry := some o.take }) hchunks
        (live.congr rfl rfl rfl) fails
  | resume fails =>
    obtain ⟨x, hpump, hcases⟩ := State.resume_cases hstep
    obtain ⟨hchunks, live⟩ := h.pumping_of (by rw [hpump]; rfl)
    obtain ⟨-, rfl⟩ | ⟨o, -, rfl⟩ := hcases
    · exact tidy_exit hchunks live id
    · exact tidy_postChunk (s := { s with registry := some o.take }) hchunks
        (live.congr rfl rfl rfl) fails
  | deliver =>
    obtain ⟨ev, rest, hmessages, rfl⟩ := State.deliver_cases hstep
    have hadvances := State.advances_onEvent (w := w) { s with toReceiver := rest } ev
    have hpump' := congrArg Pump.isExited hadvances.pump
    cases h with
    | pumping hpump hchunks live =>
      rw [hmessages] at hchunks
      refine .pumping (hpump'.trans hpump) ?_
        (live_onEvent (live.congr rfl rfl rfl) (hchunks ev List.mem_cons_self))
      rw [hadvances.toReceiver]
      exact fun ev' hev' => hchunks ev' (List.mem_cons_of_mem ev hev')
    | underWay hpump evs last hreceiver hchunks hlast live =>
      cases evs with
      | nil =>
        obtain ⟨rfl, rfl⟩ := List.cons.inj (hmessages.symm.trans hreceiver)
        exact .delivered (hpump'.trans hpump) hadvances.toReceiver
          (done_onEvent (live.congr rfl rfl rfl) hlast)
      | cons ev' evs =>
        obtain ⟨rfl, rfl⟩ := List.cons.inj (hmessages.symm.trans hreceiver)
        exact .underWay (hpump'.trans hpump) evs last hadvances.toReceiver
          (fun x hx => hchunks x (List.mem_cons_of_mem ev hx)) hlast
          (live_onEvent (live.congr rfl rfl rfl) (hchunks ev List.mem_cons_self))
    | delivered _ hnone => cases hmessages.symm.trans hnone
  | answer =>
    obtain ⟨reply, rest, -, ⟨-, rfl⟩ | ⟨-, rfl⟩⟩ := State.answer_cases hstep
    · exact tidy_grantCredit (h.congr rfl rfl rfl rfl rfl)
    · exact tidy_cancelPump (h.congr rfl rfl rfl rfl rfl)
  | openStream =>
    have hadvances := State.advances_openStream hstep
    have hpump' := congrArg Pump.isExited hadvances.pump
    cases h with
    | pumping hpump hchunks live =>
      exact .pumping (hpump'.trans hpump) (hadvances.toReceiver ▸ hchunks)
        (live_openStream live htimely hstep)
    | underWay hpump evs last hreceiver hchunks hlast live =>
      exact .underWay (hpump'.trans hpump) evs last (hadvances.toReceiver.trans hreceiver)
        hchunks hlast (live_openStream live htimely hstep)
    | delivered hpump hnone done =>
      exact .delivered (hpump'.trans hpump) (hadvances.toReceiver.trans hnone)
        (done_openStream done htimely hstep)
  | start =>
    obtain ⟨st, hstream, -, rfl, -⟩ := State.start_cases hstep
    exact tidy_setStream h hstream ReadableStream.CanCloseOrEnqueue.start
  | pulled =>
    obtain ⟨st, hstream, -, rfl, -⟩ := State.pulled_cases hstep
    exact tidy_setStream h hstream ReadableStream.CanCloseOrEnqueue.pulled
  | read =>
    obtain ⟨st, hstream, rfl, -⟩ := State.read_cases hstep
    exact tidy_setStream h hstream ReadableStream.CanCloseOrEnqueue.read
  | cancel =>
    obtain ⟨st, hstream, ⟨hreadable, -, rfl⟩ | ⟨-, rfl⟩⟩ := State.cancel_cases hstep
    · exact tidy_cancelled h (htimely ⟨st, hstream, hreadable⟩) rfl rfl rfl (.inl rfl)
    · exact h
  | discard =>
    obtain rfl := Option.some.inj hstep
    exact tidy_cancelled h htimely rfl rfl rfl (.inr rfl)
  | abort =>
    obtain rfl := Option.some.inj hstep
    exact tidy_cancelPump h

theorem tidy_init (w : Option ℕ) (src : Source α ε) : Tidy (State.init w src) := by
  have hnone : ∀ ev ∈ (none : Option (List (StreamEvent α ε))).getD [], ev.IsChunk := by
    intro ev hev
    cases hev
  unfold State.init
  split
  · exact .underWay rfl [] _ rfl (fun _ h => by cases h) id (.waiting rfl rfl none rfl hnone)
  · exact .pumping rfl (fun _ h => by cases h) (.waiting rfl rfl none rfl hnone)

theorem Tidy.leakless (h : Tidy s) (hpump : PumpLaw s) : Leakless s := by
  rintro ⟨hexited, hempty⟩ - hover
  have hregistry : s.registry = none := by
    unfold PumpLaw at hpump
    cases hp : s.pump with
    | exited =>
      rw [hp] at hpump
      exact hpump
    | reading => cases hp ▸ hexited
    | parked x => cases hp ▸ hexited
    | resuming x => cases hp ▸ hexited
  refine ⟨hregistry, ?_⟩
  cases h with
  | pumping hnot => cases hnot.symm.trans hexited
  | underWay _ evs ev hreceiver => simp [hreceiver] at hempty
  | delivered _ _ done =>
    cases done with
    | ended hreceiver _ => exact hreceiver
    | waiting hstream hnot =>
      rcases hover with ⟨st, hst, -⟩ | hdiscarded
      · cases hstream.symm.trans hst
      · cases hnot.symm.trans hdiscarded

/-- **Nothing is left.** In every run, with any body, in which a stream that is not over is only
cancelled before its terminator has been delivered and no stream is opened that the wiring has
cancelled, the id has no entry left on either side once everything has been delivered and the
consumer has finished or cancelled. -/
theorem leakless_throughout {as : List (Label ε)}
    (h : Along (step w) Timely (State.init w src) as) :
    Throughout (step w) Leakless (State.init w src) as := by
  refine h.throughout (J := fun s => PumpLaw s ∧ Tidy s) ⟨pumpLaw_init _ _, tidy_init _ _⟩
    (fun _ hx => hx.2.leakless hx.1) ?_
  rintro x a y ⟨hpump, htidy⟩ hok hstep
  exact ⟨pumpLaw_of_step hpump hstep, tidy_of_step htidy hok hstep⟩

/-- A body of one chunk. -/
def oneChunk : Source ℕ ℕ where
  chunks := [7]

/-- The consumer cancels while the pump waits for the source; a chunk and the terminator cross the
cancel. -/
def crossingRun : List (Label ℕ) :=
  [.openStream, .start, .produce none, .cancel, .produce none, .deliver, .deliver, .answer,
    .answer]

theorem leakless_throughout_crossingRun :
    Throughout (step (some 8)) Leakless (State.init (some 8) oneChunk) crossingRun :=
  leakless_throughout (by decide)

/-- The body has arrived, and a wiring whose handler has not read it cancels it. -/
def unreadRun : List (Label ℕ) :=
  [.openStream, .start, .produce none, .produce none, .deliver, .deliver, .discard, .answer,
    .answer]

/-- The mark as cancelled stays. -/
theorem not_leakless :
    ¬ ∀ s, Reaches (step (some 8)) unguarded (State.init (some 8) oneChunk) s → Leakless s := by
  intro hall
  have hrun : (play (restrict (step (some 8)) unguarded) (State.init (some 8) oneChunk)
      unreadRun).any (fun s => decide (¬ Leakless s)) = true := by
    decide
  obtain ⟨s, hreach, hs⟩ := exists_reaches_of_play hrun
  exact of_decide_eq_true hs (hall s hreach)

end Lopata.Streams
