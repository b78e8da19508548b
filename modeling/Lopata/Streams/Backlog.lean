import Lopata.Streams.Credits

/-!
# The Backlog of a Stream

With a window of `w` chunks the sender starts with `w` credits and gets another one for each pull
of the receiver's stream. The stream pulls when it starts, after an enqueue with room in the queue
and after a read: a chunk that passes through a queue with room brings two credits for the one it
used. Under a consumer that keeps up with a slow producer credits pile up, and a burst of the
producer spends them all.

## Main results

* `bounded_throughout`: the backlog is bounded by twice the window if no chunk is posted while
  more than `w` credits have been granted beyond the chunks read.
* `not_bounded`: eight chunks read one by one, then a burst of seventeen.
-/

namespace Lopata.Streams

variable {α ε : Type*} {w : ℕ} {s s' : State α ε} {src : Source α ε} {a : Label ε}

/-- The chunks the consumer has read. -/
def State.chunksRead (s : State α ε) : ℕ :=
  chunkCount s.observed

/-- The pump has a chunk, and a credit for it, when the piece runs: it posts the chunk. -/
def Posts (s : State α ε) : Label ε → Prop
  | .produce none => s.source ≠ [] ∧ ∃ o ∈ s.registry, o.credits ≠ some 0
  | .resume none => s.registry.isSome
  | .produce (some _) | .resume (some _) | .deliver | .answer | .openStream | .start | .pulled
  | .read | .cancel | .discard | .abort => False

instance (s : State α ε) : (a : Label ε) → Decidable (Posts s a)
  | .produce none => inferInstanceAs (Decidable (_ ∧ ∃ o ∈ s.registry, o.credits ≠ some 0))
  | .resume none => inferInstanceAs (Decidable (s.registry.isSome = true))
  | .produce (some _) | .resume (some _) | .deliver | .answer | .openStream | .start | .pulled
  | .read | .cancel | .discard | .abort => .isFalse id

/-- When the pump posts a chunk, the credits granted are at most a window ahead of the chunks
read. -/
def Measured (w : ℕ) (s : State α ε) (a : Label ε) : Prop :=
  Posts s a → s.granted ≤ s.chunksRead + w

instance : Decidable (Measured w s a) :=
  inferInstanceAs (Decidable (_ → _))

theorem posted_init (v : Option ℕ) (src : Source α ε) : (State.init v src).posted = 0 := by
  unfold State.init
  split <;> rfl

/-! ### The bound -/

theorem chunkCount_mono {d d' : List (StreamEvent α ε)} (h : d <+: d') :
    chunkCount d ≤ chunkCount d' :=
  h.sublist.countP_le

/-- The backlog is at most twice the window. -/
def Bounded (w : ℕ) (s : State α ε) : Prop :=
  s.posted ≤ s.chunksRead + 2 * w

instance : Decidable (Bounded w s) :=
  inferInstanceAs (Decidable (_ ≤ _))

theorem Bounded.advances {v : Option ℕ} (h : Bounded w s) (ha : State.Advances v s s') :
    Bounded w s' := by
  have hread := chunkCount_mono ha.observed
  unfold Bounded State.chunksRead at h ⊢
  rw [ha.posted]
  omega

/-- A chunk is posted against a credit. -/
theorem bounded_postChunk {o : Outbound} {x : α} {fails : Option ε} (hcredited : Credited w s)
    (hregistry : s.registry = some o) (hcredits : o.credits ≠ some 0) (h : Bounded w s)
    (hahead : fails = none → s.granted ≤ s.chunksRead + w) :
    Bounded w (State.postChunk { s with registry := some o.take } x fails) := by
  cases fails with
  | some e => exact h
  | none =>
    obtain ⟨c, hc, hsum⟩ := hcredited o hregistry
    have hpos : c ≠ 0 := fun hzero => hcredits (by rw [hc, hzero])
    have hle := hahead rfl
    show s.posted + 1 ≤ s.chunksRead + 2 * w
    omega

theorem bounded_cancelPump (h : Bounded w s) : Bounded w s.cancelPump := by
  unfold State.cancelPump
  split <;> exact h

theorem bounded_grantCredit (h : Bounded w s) : Bounded w s.grantCredit := by
  unfold State.grantCredit
  split <;> exact h

/-- **A measured piece** keeps the backlog bounded. -/
theorem bounded_of_step (hpump : PumpLaw s) (hcredited : Credited w s) (h : Bounded w s)
    (hmeasured : Measured w s a) (hstep : step (some w) s a = some s') : Bounded w s' := by
  cases a with
  | produce fails =>
    obtain ⟨-, ⟨-, rfl⟩ | ⟨x, rest, hsource, ⟨-, rfl⟩ | ⟨o, hregistry, ⟨-, rfl⟩ |
      ⟨hcredits, rfl⟩⟩⟩⟩ := State.produce_cases hstep
    · exact h
    · exact h
    · exact h
    · refine bounded_postChunk (s := { s with source := rest }) hcredited hregistry hcredits h ?_
      rintro rfl
      exact hmeasured ⟨by simp [hsource], o, hregistry, hcredits⟩
  | resume fails =>
    obtain ⟨x, hresuming, ⟨-, rfl⟩ | ⟨o, hregistry, rfl⟩⟩ := State.resume_cases hstep
    · exact h
    · unfold PumpLaw at hpump
      rw [hresuming] at hpump
      refine bounded_postChunk hcredited hregistry (hpump o hregistry).2 h ?_
      rintro rfl
      exact hmeasured (by simp [Posts, hregistry])
  | deliver =>
    obtain ⟨ev, rest, -, rfl⟩ := State.deliver_cases hstep
    have hrest : Bounded w { s with toReceiver := rest } := h
    exact hrest.advances (State.advances_onEvent (w := some w) _ ev)
  | answer =>
    obtain ⟨reply, rest, -, ⟨-, rfl⟩ | ⟨-, rfl⟩⟩ := State.answer_cases hstep
    · exact bounded_grantCredit (s := { s with toSender := rest }) h
    · exact bounded_cancelPump (s := { s with toSender := rest }) h
  | openStream => exact h.advances (State.advances_openStream hstep)
  | start =>
    obtain ⟨st, -, -, -, hadvances⟩ := State.start_cases hstep
    exact h.advances hadvances
  | pulled =>
    obtain ⟨st, -, -, -, hadvances⟩ := State.pulled_cases hstep
    exact h.advances hadvances
  | read =>
    obtain ⟨st, -, -, hadvances⟩ := State.read_cases hstep
    exact h.advances hadvances
  | cancel =>
    obtain ⟨st, -, ⟨-, hadvances, rfl⟩ | ⟨-, rfl⟩⟩ := State.cancel_cases hstep
    · have hset : Bounded w (s.setStream (some w) st.cancel) := h.advances hadvances
      exact hset
    · exact h
  | discard =>
    obtain rfl := Option.some.inj hstep
    exact h
  | abort =>
    obtain rfl := Option.some.inj hstep
    exact bounded_cancelPump h

/-- **The bounded backlog.** In every run, with any body, consumer and interleaving, in which no
chunk is posted while more than a window of credits has been granted beyond the chunks read, the
chunks posted and not yet read never number more than twice the window. -/
theorem bounded_throughout {as : List (Label ε)}
    (h : Along (step (some w)) (Measured w) (State.init (some w) src) as) :
    Throughout (step (some w)) (Bounded w) (State.init (some w) src) as := by
  have hstart : Bounded w (State.init (some w) src) := by
    rw [Bounded, posted_init]
    exact Nat.zero_le _
  refine h.throughout (J := fun s => PumpLaw s ∧ Credited w s ∧ Bounded w s)
    ⟨pumpLaw_init _ _, credited_init _ _, hstart⟩ (fun _ hx => hx.2.2) ?_
  rintro x a y ⟨hpump, hcredited, hbounded⟩ hok hstep
  exact ⟨pumpLaw_of_step hpump hstep, credited_of_step hpump hcredited hstep,
    bounded_of_step hpump hcredited hbounded hok hstep⟩

/-- A body of `n` chunks. -/
def chunksOf (n : ℕ) : Source ℕ ℕ where
  chunks := List.range n

/-- The stream is opened. -/
def opening : List (Label ℕ) :=
  [.openStream, .start, .pulled, .answer]

/-- A read waits, a chunk comes and is handed over, and both pulls grant a credit. -/
def readOne : List (Label ℕ) :=
  [.read, .pulled, .answer, .produce none, .deliver, .pulled, .answer]

/-- Two chunks are posted and read. -/
def slowRun : List (Label ℕ) :=
  opening ++ readOne ++ [.produce none, .deliver, .read]

theorem bounded_throughout_slowRun :
    Throughout (step (some 8)) (Bounded 8) (State.init (some 8) (chunksOf 9)) slowRun :=
  bounded_throughout (by decide)

/-- Eight chunks are read one by one; then the producer has the rest at once. -/
def burstRun : List (Label ℕ) :=
  opening ++ (List.replicate 8 readOne).flatten ++ List.replicate 17 (.produce none)

/-- Seventeen chunks are posted and not read, with a window of eight. -/
theorem not_bounded :
    ¬ ∀ s, Reaches (step (some 8)) unguarded (State.init (some 8) (chunksOf 25)) s →
      Bounded 8 s := by
  intro hall
  have hrun : (play (restrict (step (some 8)) unguarded) (State.init (some 8) (chunksOf 25))
      burstRun).any (fun s => decide (¬ Bounded 8 s)) = true := by
    decide
  obtain ⟨s, hreach, hs⟩ := exists_reaches_of_play hrun
  exact of_decide_eq_true hs (hall s hreach)

end Lopata.Streams
