import Lopata.Streams.Credits

/-!
# The Flow of Chunks

A stream that nobody cancels, on a channel whose posts do not throw. What the receiver's stream has
been fed with, what it has pending, what is on its way and what the pump has still to post are, one
after the other, the chunks of the body and its end.

## Main results

* `Flow.of_step`: the flow after every undisturbed piece.
* `Flow.observed`: what the consumer has observed is the beginning of a complete observation.
-/

namespace Lopata.Streams

variable {α ε : Type*} {w : Option ℕ} {s s' : State α ε} {src : Source α ε} {a : Label ε}
  {st : ReadableStream α ε} {ev : StreamEvent α ε} {d : List (StreamEvent α ε)}

/-- The chunks the pump gets. -/
def Source.given (src : Source α ε) : List α :=
  match src.locked with
  | some _ => []
  | none => src.chunks

/-- How the pump sees the body end. -/
def Source.terminator (src : Source α ε) : StreamEvent α ε :=
  match src.locked with
  | some e => .error e
  | none => src.ending.elim .close .error

def Source.events (src : Source α ε) : List (StreamEvent α ε) :=
  src.given.map .chunk ++ [src.terminator]

/-- All chunks in order and one close; or, if the body errors, the first ones in order and one
error. -/
def Complete (src : Source α ε) (log : List (StreamEvent α ε)) : Prop :=
  ∃ cs, cs <+: src.given ∧ (src.terminator = .close → cs = src.given) ∧
    log = cs.map .chunk ++ [src.terminator]

/-- The stream is neither cancelled, nor does a post throw. -/
def Label.Undisturbed : Label ε → Prop
  | .produce none | .resume none | .deliver | .answer | .openStream | .start | .pulled
  | .read => True
  | .produce (some _) | .resume (some _) | .cancel | .discard | .abort => False

instance : (a : Label ε) → Decidable a.Undisturbed
  | .produce none | .resume none | .deliver | .answer | .openStream | .start | .pulled
  | .read => .isTrue trivial
  | .produce (some _) | .resume (some _) | .cancel | .discard | .abort => .isFalse id

/-- What the pump has still to post. -/
def State.toCome (s : State α ε) : List (StreamEvent α ε) :=
  match s.pump with
  | .reading => s.source.map .chunk ++ [s.ending.elim .close .error]
  | .parked a | .resuming a => .chunk a :: (s.source.map .chunk ++ [s.ending.elim .close .error])
  | .exited => []

/-- The receiver's entries, and what its stream has been fed with. -/
inductive Receives (s : State α ε) (d : List (StreamEvent α ε)) : Prop
  | waiting (hstream : s.stream = none) (pending : Option (List (StreamEvent α ε)))
      (hreceiver : s.receiver = { pending }) (hd : d = [])
  | flowing (st : ReadableStream α ε) (hstream : s.stream = some st) (hfed : st.Fed d)
      (hreceiver : s.receiver = { controller := true, isOpen := true })
      (hchunks : ∀ ev ∈ d, ev.IsChunk)
  | ended (st : ReadableStream α ε) (hstream : s.stream = some st) (hfed : st.Fed d)
      (hreceiver : s.receiver = {}) (hlast : ∃ ev ∈ d, ¬ ev.IsChunk)

/-- The events of the body, from the consumer back to the source, and the credits for them. -/
structure Flow (w : Option ℕ) (src : Source α ε) (s : State α ε) (d : List (StreamEvent α ε)) :
    Prop where
  events : d ++ s.receiver.pending.getD [] ++ s.toReceiver ++ s.toCome = src.events
  receives : Receives s d
  registered : s.registry = none → s.pump = .exited
  acks : ∀ r ∈ s.toSender, r = .ack
  posted : s.posted + chunkCount s.toCome = chunkCount src.events
  pump : PumpLaw s
  eager : w = none → ∀ o ∈ s.registry, o.credits = none
  credited : ∀ n ∈ w, Credited n s
  /-- While the pump goes on the stream has pulled for the chunk after those it has. -/
  prompt : ∀ n ∈ w, s.registry.isSome → ∀ st ∈ s.stream, st.Prompt (chunkCount d + 1 - n)

/-! ### Events -/

/-- Only the last event is not a chunk. -/
theorem isChunk_of_append {d' : List (StreamEvent α ε)} (h : d ++ ev :: d' = src.events)
    {x : StreamEvent α ε} (hx : x ∈ d) : x.IsChunk := by
  have hlen := congrArg List.length h
  simp only [Source.events, List.length_append, List.length_cons, List.length_nil,
    List.length_map] at hlen
  have hd : d = (src.given.map StreamEvent.chunk).take d.length := by
    have htake := congrArg (List.take d.length) h
    rw [List.take_left, Source.events, List.take_append_of_le_length (by simp; omega)] at htake
    exact htake
  rw [hd] at hx
  obtain ⟨y, -, rfl⟩ := List.mem_map.mp (List.mem_of_mem_take hx)
  trivial

theorem terminator_not_isChunk (src : Source α ε) : ¬ src.terminator.IsChunk := by
  unfold Source.terminator
  split
  · exact id
  · cases src.ending <;> exact id

variable (src) in
/-- Nothing comes after the terminator. -/
theorem eq_nil_of_last (d' : List (StreamEvent α ε)) (h : d ++ d' = src.events)
    (hlast : ∃ ev ∈ d, ¬ ev.IsChunk) : d' = [] := by
  cases d' with
  | nil => rfl
  | cons ev d' =>
    obtain ⟨x, hx, hnot⟩ := hlast
    exact (hnot (isChunk_of_append h hx)).elim

theorem map_chunk_injective : Function.Injective (List.map (StreamEvent.chunk (α := α) (ε := ε))) :=
  List.map_injective_iff.mpr fun _ _ h => StreamEvent.chunk.inj h

/-- **A stream fed with a beginning of the body** has given its reader the beginning of a complete
observation. -/
theorem fed_observed {d' : List (StreamEvent α ε)} (h : st.Fed d) (hd : d ++ d' = src.events) :
    ∃ log, Complete src log ∧ st.observed <+: log := by
  have hall : Complete src src.events := ⟨src.given, List.prefix_refl _, fun _ => rfl, rfl⟩
  cases h with
  | flowing cs _ _ _ hobserved hd' =>
    refine ⟨src.events, hall, ?_⟩
    rw [hobserved, ← hd, hd', List.map_append, List.append_assoc]
    exact List.prefix_append _ _
  | draining cs _ _ _ _ hobserved hd' =>
    refine ⟨src.events, hall, ?_⟩
    rw [hobserved, ← hd, hd', List.map_append, List.append_assoc, List.append_assoc]
    exact List.prefix_append _ _
  | closed cs _ hobserved hd' =>
    refine ⟨src.events, hall, ?_⟩
    rw [hobserved, ← hd, hd']
    exact List.prefix_append _ _
  | errored e cs cs' _ hobserved hd' =>
    have hnil := eq_nil_of_last _ _ hd ⟨.error e, by simp [hd'], id⟩
    rw [hnil, List.append_nil, hd'] at hd
    obtain ⟨hchunks, hlast⟩ := List.append_inj' hd rfl
    obtain hlast : StreamEvent.error e = src.terminator := (List.cons.inj hlast).1
    have hgiven : cs ++ cs' = src.given := map_chunk_injective hchunks
    refine ⟨st.observed, ⟨cs, ⟨cs', hgiven⟩, fun hclose => ?_, ?_⟩, List.prefix_refl _⟩
    · cases hlast.trans hclose
    · rw [hobserved, hlast]

/-- A stream that is over has been fed with all of the body. -/
theorem fed_complete {d' : List (StreamEvent α ε)} (h : st.Fed d) (hd : d ++ d' = src.events)
    (hover : st.status.isReadable = false) : Complete src st.observed := by
  cases h with
  | flowing cs hstatus => cases hstatus ▸ hover
  | draining cs hstatus => cases hstatus ▸ hover
  | closed cs _ hobserved hd' =>
    have hnil := eq_nil_of_last _ _ hd ⟨.close, by simp [hd'], id⟩
    rw [hnil, List.append_nil, hd'] at hd
    obtain ⟨hchunks, hlast⟩ := List.append_inj' hd rfl
    have hgiven : cs = src.given := map_chunk_injective hchunks
    refine ⟨cs, ⟨[], by rw [hgiven, List.append_nil]⟩, fun _ => hgiven, ?_⟩
    rw [hobserved, hlast]
  | errored e cs cs' _ hobserved hd' =>
    have hnil := eq_nil_of_last _ _ hd ⟨.error e, by simp [hd'], id⟩
    rw [hnil, List.append_nil, hd'] at hd
    obtain ⟨hchunks, hlast⟩ := List.append_inj' hd rfl
    obtain hlast : StreamEvent.error e = src.terminator := (List.cons.inj hlast).1
    refine ⟨cs, ⟨cs', map_chunk_injective hchunks⟩, fun hclose => ?_, ?_⟩
    · cases hlast.trans hclose
    · rw [hobserved, hlast]

@[simp] theorem chunkCount_append (d d' : List (StreamEvent α ε)) :
    chunkCount (d ++ d') = chunkCount d + chunkCount d' :=
  List.countP_append ..

@[simp] theorem chunkCount_chunk (x : α) (d : List (StreamEvent α ε)) :
    chunkCount (.chunk x :: d) = chunkCount d + 1 :=
  List.countP_cons_of_pos rfl

/-! ### The sender -/

theorem Receives.congr (h : Receives s d) (hstream : s'.stream = s.stream)
    (hreceiver : s'.receiver = s.receiver) : Receives s' d := by
  cases h with
  | waiting h pending h' hd => exact .waiting (hstream.trans h) pending (hreceiver.trans h') hd
  | flowing st h hfed h' hchunks =>
    exact .flowing st (hstream.trans h) hfed (hreceiver.trans h') hchunks
  | ended st h hfed h' hlast => exact .ended st (hstream.trans h) hfed (hreceiver.trans h') hlast

/-- The pump's read settles, or the pump resumes, and it posts its terminator. -/
theorem Flow.exit (h : Flow w src s d) (hcome : s.toCome = [ev]) (hlast : ¬ ev.IsChunk) :
    Flow w src (s.exit ev) d where
  events := by
    rw [← h.events, hcome]
    simp [State.exit, State.toCome]
  receives := h.receives.congr rfl rfl
  registered := fun _ => rfl
  acks := h.acks
  posted := by
    have hposted := h.posted
    rw [hcome] at hposted
    rw [← hposted]
    simp [State.exit, State.toCome, chunkCount, hlast]
  pump := rfl
  eager := fun _ o ho => by cases ho
  credited := fun _ _ => credited_of_none rfl
  prompt := fun _ _ hsome => by cases hsome

/-- The pump posts a chunk. -/
theorem Flow.postChunk {o : Outbound} {x : α} (rest : List α) (h : Flow w src s d)
    (hregistry : s.registry = some o) (hwaiter : o.waiter = false) (hcredits : o.credits ≠ some 0)
    (hcome : s.toCome =
      .chunk x :: (rest.map .chunk ++ [s.ending.elim StreamEvent.close .error])) :
    Flow w src (State.postChunk { s with source := rest, registry := some o.take } x none) d where
  events := by
    rw [← h.events, hcome]
    simp [State.postChunk, State.toCome]
  receives := h.receives.congr rfl rfl
  registered := fun hnone => by cases hnone
  acks := h.acks
  posted := by
    have hposted := h.posted
    rw [hcome] at hposted
    rw [chunkCount_chunk] at hposted
    rw [← hposted]
    show s.posted + 1 + chunkCount (rest.map .chunk ++ [s.ending.elim .close .error]) = _
    omega
  pump := pumpLaw_postChunk (o := o.take) rfl hwaiter none
  eager := by
    rintro hw o' ho'
    obtain rfl := Option.some.inj ho'
    simp [Outbound.take, h.eager hw o hregistry]
  credited := fun n hn =>
    credited_postChunk (s := { s with source := rest }) (h.credited n hn) hregistry hcredits none
  prompt := fun n hn _ => h.prompt n hn (by rw [hregistry]; rfl)

/-- The pump parks. -/
theorem Flow.park {o : Outbound} {x : α} {rest : List α} (h : Flow w src s d)
    (hpump : s.pump = .reading) (hsource : s.source = x :: rest) (hregistry : s.registry = some o)
    (hcredits : o.credits = some 0) :
    Flow w src { s with
      source := rest
      registry := some { o with waiter := true }
      pump := .parked x } d where
  events := by
    rw [← h.events]
    simp [State.toCome, hpump, hsource]
  receives := h.receives.congr rfl rfl
  registered := fun hnone => by cases hnone
  acks := h.acks
  posted := by
    rw [← h.posted]
    simp [State.toCome, hpump, hsource]
  pump := ⟨_, rfl, rfl, hcredits⟩
  eager := by
    rintro hw o' ho'
    cases hcredits.symm.trans (h.eager hw o hregistry)
  credited := by
    rintro n hn o' ho'
    obtain rfl := Option.some.inj ho'
    exact h.credited n hn o hregistry
  prompt := fun n hn _ => h.prompt n hn (by rw [hregistry]; rfl)

theorem flow_produce (h : Flow w src s d) (hproduce : s.produce none = some s') :
    Flow w src s' d := by
  obtain ⟨hpump, hcases⟩ := State.produce_cases hproduce
  have hlaw := h.pump
  unfold PumpLaw at hlaw
  rw [hpump] at hlaw
  obtain ⟨hsource, rfl⟩ | ⟨x, rest, hsource, ⟨hregistry, -⟩ | ⟨o, hregistry, ⟨hcredits, rfl⟩ |
    ⟨hcredits, rfl⟩⟩⟩ := hcases
  · refine h.exit ?_ ?_
    · simp [State.toCome, hpump, hsource]
    · cases s.ending <;> exact id
  · cases hpump.symm.trans (h.registered hregistry)
  · exact h.park hpump hsource hregistry hcredits
  · exact h.postChunk _ hregistry (hlaw o hregistry) hcredits (by simp [State.toCome, hpump, hsource])

theorem flow_resume (h : Flow w src s d) (hresume : s.resume none = some s') :
    Flow w src s' d := by
  obtain ⟨x, hpump, ⟨hregistry, -⟩ | ⟨o, hregistry, rfl⟩⟩ := State.resume_cases hresume
  · cases hpump.symm.trans (h.registered hregistry)
  · have hlaw := h.pump
    unfold PumpLaw at hlaw
    rw [hpump] at hlaw
    obtain ⟨hwaiter, hcredits⟩ := hlaw o hregistry
    exact h.postChunk s.source hregistry hwaiter hcredits
      (by simp [State.toCome, hpump])

/-- A credit changes nothing but the entry of the registry, and wakes the pump. -/
theorem grantCredit_frame (s : State α ε) :
    s.grantCredit.receiver = s.receiver ∧ s.grantCredit.stream = s.stream ∧
      s.grantCredit.toReceiver = s.toReceiver ∧ s.grantCredit.toSender = s.toSender ∧
      s.grantCredit.posted = s.posted ∧ s.grantCredit.toCome = s.toCome := by
  unfold State.grantCredit
  split
  · exact ⟨rfl, rfl, rfl, rfl, rfl, rfl⟩
  · next o _ =>
      refine ⟨rfl, rfl, rfl, rfl, rfl, ?_⟩
      cases o.waiter
      · rfl
      · cases hpump : s.pump <;> simp [State.toCome, Pump.wake, hpump]

theorem registry_grantCredit (s : State α ε) :
    (s.registry = none ∧ s.grantCredit = s) ∨ ∃ o, s.registry = some o ∧
      s.grantCredit.registry =
        some { credits := o.credits.map fun n => n + 1, waiter := false } := by
  unfold State.grantCredit
  split
  · next hnone => exact .inl ⟨hnone, rfl⟩
  · next o hregistry => exact .inr ⟨o, hregistry, rfl⟩

/-- A credit reaches the sender. -/
theorem flow_answer (h : Flow w src s d) (hanswer : s.answer = some s') : Flow w src s' d := by
  obtain ⟨reply, rest, hsender, ⟨rfl, rfl⟩ | ⟨rfl, -⟩⟩ := State.answer_cases hanswer
  · obtain ⟨hreceiver, hstream, hmessages, hreplies, hposted, hcome⟩ :=
      grantCredit_frame { s with toSender := rest }
    refine ⟨?_, h.receives.congr hstream hreceiver, fun hnone => ?_, fun r hr => ?_, ?_,
      pumpLaw_grantCredit (h.pump.congr rfl rfl), fun hw o ho => ?_, ?_, ?_⟩
    · rw [hreceiver, hmessages, hcome]
      exact h.events
    · obtain ⟨hregistry, hsame⟩ | ⟨o, -, hsome⟩ := registry_grantCredit { s with toSender := rest }
      · rw [hsame]
        exact h.registered hregistry
      · cases hsome.symm.trans hnone
    · rw [hreplies] at hr
      exact h.acks r (by rw [hsender]; exact List.mem_cons_of_mem _ hr)
    · rw [hposted, hcome]
      exact h.posted
    · obtain ⟨hregistry, hsame⟩ | ⟨o', ho', hsome⟩ :=
        registry_grantCredit { s with toSender := rest }
      · rw [hsame] at ho
        cases hregistry.symm.trans ho
      · obtain rfl := Option.some.inj (hsome.symm.trans ho)
        simp [h.eager hw o' ho']
    · rintro n rfl
      exact credited_of_step (a := .answer) h.pump (h.credited n rfl) hanswer
    · intro n hn hsome st hst
      rw [hstream] at hst
      refine h.prompt n hn ?_ st hst
      obtain ⟨hregistry, hsame⟩ | ⟨o, ho, -⟩ := registry_grantCredit { s with toSender := rest }
      · rw [hsame] at hsome
        exact hsome
      · exact Option.isSome_of_mem ho
  · cases h.acks .cancel (by rw [hsender]; exact List.mem_cons_self)

/-! ### The receiver -/

/-- The chunks posted, wherever they are. -/
theorem Flow.count (h : Flow w src s d) :
    chunkCount d + chunkCount (s.receiver.pending.getD []) + chunkCount s.toReceiver = s.posted := by
  have hevents := congrArg chunkCount h.events
  have hposted := h.posted
  simp only [chunkCount_append] at hevents
  omega

/-- While the pump goes on there have been credits for what it has posted. -/
theorem Flow.supply {n : ℕ} (h : Flow w src s d) (hn : n ∈ w) (hsome : s.registry.isSome) :
    s.posted ≤ n + s.granted := by
  obtain ⟨o, ho⟩ := Option.isSome_iff_exists.mp hsome
  obtain ⟨c, -, hsum⟩ := h.credited n hn o ho
  omega

/-- The receiver's side has moved on: its stream has been fed with what there was, and perhaps
more, and each of its pulls has granted a credit. -/
theorem Flow.advance {d' evs : List (StreamEvent α ε)} (h : Flow w src s d)
    (ha : State.Advances w { s with toReceiver := evs } s') (hreceives : Receives s' d')
    (hevents : d' ++ s'.receiver.pending.getD [] ++ s'.toReceiver =
      d ++ s.receiver.pending.getD [] ++ s.toReceiver)
    (hprompt : ∀ n ∈ w, s.registry.isSome → ∀ st ∈ s'.stream,
      st.Prompt (chunkCount d' + 1 - n)) : Flow w src s' d' := by
  have hcome : s'.toCome = s.toCome := by
    unfold State.toCome
    rw [ha.pump, ha.source, ha.ending]
  refine ⟨?_, hreceives, ?_, ?_, ?_, h.pump.congr ha.pump ha.registry, ?_, ?_, ?_⟩
  · rw [hevents, hcome]
    exact h.events
  · rw [ha.registry, ha.pump]
    exact h.registered
  · intro r hr
    rw [ha.toSender] at hr
    rcases List.mem_append.mp hr with hr | hr
    · exact h.acks r hr
    · unfold State.acks at hr
      split at hr
      · exact List.eq_of_mem_replicate hr
      · cases hr
  · rw [ha.posted, hcome]
    exact h.posted
  · rw [ha.registry]
    exact h.eager
  · rintro n rfl
    have hcredited : Credited n { s with toReceiver := evs } := h.credited n rfl
    exact hcredited.advances ha
  · intro n hn
    rw [ha.registry]
    exact hprompt n hn

/-- Feeding the stream with an event. -/
theorem receives_apply (hstream : s.stream = some st) (hfed : st.Fed d)
    (hreceiver : s.receiver = { controller := true, isOpen := true })
    (hchunks : ∀ ev ∈ d, ev.IsChunk) (ev : StreamEvent α ε) :
    ∃ st', st.feed ev = some st' ∧ (s.apply w ev).stream = some st' ∧
      Receives (s.apply w ev) (d ++ [ev]) := by
  obtain ⟨st', hfeed, hfed'⟩ := hfed.feed hchunks ev
  refine ⟨st', hfeed, ?_⟩
  rw [State.apply, hstream]
  simp only [hfeed, Option.getD_some]
  split
  · next hchunk =>
      refine ⟨rfl, .flowing st' rfl hfed' hreceiver ?_⟩
      intro x hx
      rcases List.mem_append.mp hx with hx | hx
      · exact hchunks x hx
      · obtain rfl := List.mem_singleton.mp hx
        exact hchunk
  · next hlast =>
      refine ⟨rfl, .ended st' rfl hfed' ?_ ⟨ev, by simp, hlast⟩⟩
      simp [State.setStream, State.detach, hreceiver]

/-- A message reaches the receiver. -/
theorem flow_deliver (h : Flow w src s d) (hdeliver : s.deliver w = some s') :
    ∃ d', Flow w src s' d' := by
  obtain ⟨ev, rest, hmessages, rfl⟩ := State.deliver_cases hdeliver
  have hadvances := State.advances_onEvent (w := w) { s with toReceiver := rest } ev
  have hcount := h.count
  rw [hmessages] at hcount
  cases h.receives with
  | waiting hstream pending hreceiver hd =>
    have hon : State.onEvent w { s with toReceiver := rest } ev = { s with
        toReceiver := rest
        receiver := { pending := some (pending.getD [] ++ [ev]) } } := by
      simp [State.onEvent, hreceiver]
    rw [hon] at hadvances ⊢
    refine ⟨d, h.advance hadvances (.waiting hstream _ rfl hd) ?_ ?_⟩
    · simp [hmessages, hreceiver]
    · intro n hn hsome st hst
      cases hstream.symm.trans hst
  | flowing st hstream hfed hreceiver hchunks =>
    have hon : State.onEvent w { s with toReceiver := rest } ev =
        State.apply w { s with toReceiver := rest } ev := by
      simp [State.onEvent, hreceiver]
    obtain ⟨st', hfeed, hstream', hreceives⟩ := receives_apply (w := w)
      (s := { s with toReceiver := rest }) hstream hfed hreceiver hchunks ev
    rw [hon] at hadvances ⊢
    refine ⟨d ++ [ev], h.advance hadvances hreceives ?_ ?_⟩
    · have hpending : (State.apply w { s with toReceiver := rest } ev).receiver.pending = none := by
        cases hreceives with
        | waiting hnone => cases hnone.symm.trans hstream'
        | flowing _ _ _ h => rw [h]
        | ended _ _ _ h => rw [h]
      rw [hpending, hadvances.toReceiver, hmessages, hreceiver]
      simp
    · intro n hn hsome st₀ hst₀
      obtain rfl := Option.some.inj (hstream'.symm.trans hst₀)
      refine (h.prompt n hn hsome st hstream).feed ?_ hfeed
      have hsupply := h.supply hn hsome
      rw [State.granted_of_stream hstream] at hsupply
      have hsplit : chunkCount (ev :: rest) = chunkCount [ev] + chunkCount rest :=
        chunkCount_append [ev] rest
      rw [chunkCount_append]
      omega
  | ended st hstream hfed hreceiver hlast =>
    have hnil := eq_nil_of_last src (ev :: (rest ++ s.toCome)) ?_ hlast
    · cases hnil
    · rw [← h.events, hmessages, hreceiver]
      simp

variable (src) in
/-- The replay of what is pending. -/
theorem receives_replay (evs rest : List (StreamEvent α ε)) (hstream : s.stream = some st)
    (hfed : st.Fed d) (hreceiver : s.receiver = { controller := true, isOpen := true })
    (hchunks : ∀ ev ∈ d, ev.IsChunk) (hevents : d ++ (evs ++ rest) = src.events) :
    ∃ st', (evs.foldl (fun s ev => s.apply w ev) s).stream = some st' ∧
      Receives (evs.foldl (fun s ev => s.apply w ev) s) (d ++ evs) ∧
      ∀ n, st.Prompt (chunkCount d + 1 - n) → chunkCount (d ++ evs) ≤ n + st.pulls →
        st'.Prompt (chunkCount (d ++ evs) + 1 - n) := by
  induction evs generalizing s st d with
  | nil =>
    refine ⟨st, hstream, ?_, ?_⟩
    · rw [List.append_nil]
      exact .flowing st hstream hfed hreceiver hchunks
    · intro n hprompt _
      rw [List.append_nil]
      exact hprompt
  | cons ev evs ih =>
    obtain ⟨st₁, hfeed, hstream₁, hreceives⟩ := receives_apply (w := w) hstream hfed hreceiver
      hchunks ev
    have hpulls := (ReadableStream.feed_work hfeed).1
    have hsplit : d ++ ev :: evs = d ++ [ev] ++ evs := by simp
    rw [List.foldl_cons, hsplit]
    have hfirst : ∀ n, st.Prompt (chunkCount d + 1 - n) →
        chunkCount (d ++ [ev] ++ evs) ≤ n + st.pulls →
          st₁.Prompt (chunkCount (d ++ [ev]) + 1 - n) := by
      intro n hprompt hle
      refine hprompt.feed ?_ hfeed
      rw [chunkCount_append] at hle
      omega
    cases hreceives with
    | waiting hnone => cases hnone.symm.trans hstream₁
    | flowing st₂ hst₂ hfed₂ hreceiver₂ hchunks₂ =>
      obtain rfl := Option.some.inj (hstream₁.symm.trans hst₂)
      obtain ⟨st', hstream', hreceives', hprompt'⟩ := ih hst₂ hfed₂ hreceiver₂ hchunks₂
        (by rw [← hevents]; simp)
      refine ⟨st', hstream', hreceives', fun n hprompt hle => ?_⟩
      exact hprompt' n (hfirst n hprompt hle) (by omega)
    | ended st₂ hst₂ hfed₂ hreceiver₂ hlast₂ =>
      have hnil := eq_nil_of_last src (evs ++ rest)
        (by rw [← hevents]; simp) hlast₂
      obtain ⟨rfl, -⟩ := List.append_eq_nil_iff.mp hnil
      obtain rfl := Option.some.inj (hstream₁.symm.trans hst₂)
      refine ⟨st₁, hstream₁, ?_, fun n hprompt hle => ?_⟩
      · rw [List.append_nil]
        exact .ended st₁ hst₂ hfed₂ hreceiver₂ hlast₂
      · rw [List.append_nil] at hle ⊢
        exact hfirst n hprompt (by rw [List.append_nil]; exact hle)

/-- The stream is opened. -/
theorem flow_openStream (h : Flow w src s d) (hopen : s.openStream w = some s') :
    ∃ d', Flow w src s' d' := by
  have hadvances := State.advances_openStream hopen
  obtain ⟨hstream, rfl⟩ := State.openStream_cases hopen
  cases h.receives with
  | flowing st hst => cases hstream.symm.trans hst
  | ended st hst => cases hstream.symm.trans hst
  | waiting _ pending hreceiver hd =>
    subst hd
    have hpending : s.receiver.pending.getD [] = pending.getD [] := by rw [hreceiver]
    have hevents := h.events
    have hcount := h.count
    rw [hpending] at hadvances hevents hcount ⊢
    obtain ⟨st', hstream', hreceives, hprompt⟩ := receives_replay src (pending.getD [])
      (s.toReceiver ++ s.toCome) (w := w) (s := s.opened w) rfl
      (ReadableStream.Fed.new _) (by simp [State.opened, hreceiver]) (fun _ hev => by cases hev)
      (by rw [← hevents]; simp)
    refine ⟨[] ++ pending.getD [], h.advance hadvances hreceives ?_ ?_⟩
    · have hnone : ((pending.getD []).foldl (fun s ev => State.apply w s ev)
          (s.opened w)).receiver.pending = none := by
        cases hreceives with
        | waiting hnone => cases hnone.symm.trans hstream'
        | flowing _ _ _ h => rw [h]
        | ended _ _ _ h => rw [h]
      rw [hnone, hadvances.toReceiver, hpending]
      simp
    · intro n hn hsome st hst
      obtain rfl := Option.some.inj (hstream'.symm.trans hst)
      have hsupply := h.supply hn hsome
      have hnever : s.granted = 0 := by simp [State.granted, hstream]
      refine hprompt n (ReadableStream.Prompt.new _ _) ?_
      rw [List.nil_append]
      show chunkCount (pending.getD []) ≤ n + 0
      omega

/-- A reaction of the stream, or a read. -/
theorem flow_setStream {st' : ReadableStream α ε} (h : Flow w src s d)
    (hstream : s.stream = some st) (ha : State.Advances w s (s.setStream w st'))
    (hfed : st.Fed d → st'.Fed d)
    (hprompt : ∀ n, st.Prompt n → n ≤ st.pulls + 1 → st'.Prompt n) :
    Flow w src (s.setStream w st') d := by
  refine h.advance ha ?_ rfl ?_
  · cases h.receives with
    | waiting hnone => cases hnone.symm.trans hstream
    | flowing st₀ hst₀ hfed₀ hreceiver hchunks =>
      obtain rfl := Option.some.inj (hstream.symm.trans hst₀)
      exact .flowing st' rfl (hfed hfed₀) hreceiver hchunks
    | ended st₀ hst₀ hfed₀ hreceiver hlast =>
      obtain rfl := Option.some.inj (hstream.symm.trans hst₀)
      exact .ended st' rfl (hfed hfed₀) hreceiver hlast
  · intro n hn hsome st₀ hst₀
    obtain rfl := Option.some.inj hst₀
    refine hprompt _ (h.prompt n hn hsome st hstream) ?_
    have hsupply := h.supply hn hsome
    have hcount := h.count
    rw [State.granted_of_stream hstream] at hsupply
    omega

/-- **The flow** after an undisturbed piece. -/
theorem flow_of_step (h : Flow w src s d) (ha : a.Undisturbed) (hstep : step w s a = some s') :
    ∃ d', Flow w src s' d' := by
  cases a with
  | produce fails =>
    cases fails with
    | none => exact ⟨d, flow_produce h hstep⟩
    | some e => exact ha.elim
  | resume fails =>
    cases fails with
    | none => exact ⟨d, flow_resume h hstep⟩
    | some e => exact ha.elim
  | deliver => exact flow_deliver h hstep
  | answer => exact ⟨d, flow_answer h hstep⟩
  | openStream => exact flow_openStream h hstep
  | start =>
    obtain ⟨st, hstream, -, rfl, hadvances⟩ := State.start_cases hstep
    exact ⟨d, flow_setStream h hstream hadvances ReadableStream.Fed.start
      fun _ hprompt hn => hprompt.start hn⟩
  | pulled =>
    obtain ⟨st, hstream, -, rfl, hadvances⟩ := State.pulled_cases hstep
    exact ⟨d, flow_setStream h hstream hadvances ReadableStream.Fed.pulled
      fun _ hprompt hn => hprompt.pulled hn⟩
  | read =>
    obtain ⟨st, hstream, rfl, hadvances⟩ := State.read_cases hstep
    exact ⟨d, flow_setStream h hstream hadvances ReadableStream.Fed.read
      fun _ hprompt hn => hprompt.read hn⟩
  | cancel => exact ha.elim
  | discard => exact ha.elim
  | abort => exact ha.elim

theorem flow_init (w : Option ℕ) (src : Source α ε) : Flow w src (State.init w src) [] := by
  have hlaw := pumpLaw_init w src
  have hcredited : ∀ n ∈ w, Credited n (State.init w src) := by
    rintro n rfl
    exact credited_init n src
  unfold State.init at hlaw hcredited ⊢
  cases he : src.locked with
  | some e =>
    have hevents : src.events = [.error e] := by
      simp [Source.events, Source.given, Source.terminator, he]
    simp only [he] at hlaw hcredited
    refine ⟨?_, .waiting rfl none rfl rfl, fun _ => rfl, fun r hr => ?_, ?_, hlaw,
      fun _ o ho => ?_, hcredited, fun _ _ hsome => ?_⟩
    · rw [hevents]
      rfl
    · cases hr
    · rw [hevents]
      rfl
    · cases ho
    · cases hsome
  | none =>
    have hevents : src.events = src.chunks.map .chunk ++ [src.ending.elim .close .error] := by
      simp [Source.events, Source.given, Source.terminator, he]
    simp only [he] at hlaw hcredited
    refine ⟨?_, .waiting rfl none rfl rfl, fun hnone => ?_, fun r hr => ?_, ?_, hlaw,
      fun hw o ho => ?_, hcredited, fun _ _ _ st hst => ?_⟩
    · rw [hevents]
      rfl
    · cases hnone
    · cases hr
    · rw [hevents]
      exact Nat.zero_add _
    · obtain rfl := Option.some.inj ho
      exact hw
    · cases hst

end Lopata.Streams
