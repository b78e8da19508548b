import Lopata.Streams.Pieces

/-!
# Credits

What the sender knows: where its pump waits goes with the entry of the registry, and the credits
of the entry are the window and the credits granted, less those used and those on their way.

## Main results

* `pumpLaw_of_step`: a parked pump has no credit, a woken one has one.
* `credited_of_step`: the credits left, the chunks posted and the credits on their way add up to
  the window and the credits granted.
-/

namespace Lopata.Streams

variable {α ε : Type*} {w : ℕ} {s s' : State α ε} {src : Source α ε} {a : Label ε}

/-- What the pump waits for agrees with its entry in the registry. -/
def PumpLaw (s : State α ε) : Prop :=
  match s.pump with
  | .reading => ∀ o ∈ s.registry, o.waiter = false
  | .parked _ => ∃ o, s.registry = some o ∧ o.waiter = true ∧ o.credits = some 0
  | .resuming _ => ∀ o ∈ s.registry, o.waiter = false ∧ o.credits ≠ some 0
  | .exited => s.registry = none

theorem PumpLaw.congr (h : PumpLaw s) (hpump : s'.pump = s.pump)
    (hregistry : s'.registry = s.registry) : PumpLaw s' := by
  unfold PumpLaw at h ⊢
  rw [hpump, hregistry]
  exact h

theorem pumpLaw_exit (s : State α ε) (ev : StreamEvent α ε) : PumpLaw (s.exit ev) :=
  rfl

theorem pumpLaw_postChunk {o : Outbound} {x : α} (hregistry : s.registry = some o)
    (hwaiter : o.waiter = false) (fails : Option ε) : PumpLaw (s.postChunk x fails) := by
  cases fails with
  | none =>
    intro o' ho'
    obtain rfl := Option.some.inj (hregistry.symm.trans ho')
    exact hwaiter
  | some e => exact pumpLaw_exit s _

theorem pumpLaw_cancelPump (h : PumpLaw s) : PumpLaw s.cancelPump := by
  unfold State.cancelPump
  split
  · exact h
  · next o hregistry =>
      unfold PumpLaw at h ⊢
      cases hpump : s.pump with
      | reading =>
        rw [hpump] at h
        simp [h o hregistry]
      | parked x =>
        rw [hpump] at h
        obtain ⟨o', ho', hwaiter, -⟩ := h
        obtain rfl := Option.some.inj (hregistry.symm.trans ho')
        simp [hwaiter, Pump.wake]
      | resuming x =>
        rw [hpump] at h
        simp [(h o hregistry).1]
      | exited =>
        rw [hpump, hregistry] at h
        cases h

theorem pumpLaw_grantCredit (h : PumpLaw s) : PumpLaw s.grantCredit := by
  unfold State.grantCredit
  split
  · exact h
  · next o hregistry =>
      unfold PumpLaw at h ⊢
      cases hpump : s.pump with
      | reading =>
        rw [hpump] at h
        simp [h o hregistry]
      | parked x =>
        rw [hpump] at h
        obtain ⟨o', ho', hwaiter, hcredits⟩ := h
        obtain rfl := Option.some.inj (hregistry.symm.trans ho')
        simp [hwaiter, hcredits, Pump.wake]
      | resuming x =>
        rw [hpump] at h
        obtain ⟨hwaiter, hcredits⟩ := h o hregistry
        cases hc : o.credits <;> simp [hwaiter]
      | exited =>
        rw [hpump, hregistry] at h
        cases h

/-- **The pump and the registry agree** after every piece. -/
theorem pumpLaw_of_step {v : Option ℕ} (h : PumpLaw s) (hstep : step v s a = some s') :
    PumpLaw s' := by
  cases a with
  | produce fails =>
    obtain ⟨hpump, ⟨-, rfl⟩ | ⟨x, rest, -, ⟨-, rfl⟩ | ⟨o, hregistry, ⟨hcredits, rfl⟩ |
      ⟨-, rfl⟩⟩⟩⟩ := State.produce_cases hstep
    · exact pumpLaw_exit _ _
    · exact pumpLaw_exit _ _
    · exact ⟨_, rfl, rfl, hcredits⟩
    · unfold PumpLaw at h
      rw [hpump] at h
      exact pumpLaw_postChunk (o := o.take) rfl (h o hregistry) fails
  | resume fails =>
    obtain ⟨x, hpump, ⟨-, rfl⟩ | ⟨o, hregistry, rfl⟩⟩ := State.resume_cases hstep
    · exact pumpLaw_exit _ _
    · unfold PumpLaw at h
      rw [hpump] at h
      exact pumpLaw_postChunk (o := o.take) rfl (h o hregistry).1 fails
  | deliver =>
    obtain ⟨ev, rest, -, rfl⟩ := State.deliver_cases hstep
    have hadvances := State.advances_onEvent (w := v) { s with toReceiver := rest } ev
    exact h.congr hadvances.pump hadvances.registry
  | answer =>
    obtain ⟨reply, rest, -, ⟨-, rfl⟩ | ⟨-, rfl⟩⟩ := State.answer_cases hstep
    · exact pumpLaw_grantCredit (h.congr rfl rfl)
    · exact pumpLaw_cancelPump (h.congr rfl rfl)
  | openStream =>
    have hadvances := State.advances_openStream hstep
    exact h.congr hadvances.pump hadvances.registry
  | start =>
    obtain ⟨st, -, -, rfl, -⟩ := State.start_cases hstep
    exact h.congr rfl rfl
  | pulled =>
    obtain ⟨st, -, -, rfl, -⟩ := State.pulled_cases hstep
    exact h.congr rfl rfl
  | read =>
    obtain ⟨st, -, rfl, -⟩ := State.read_cases hstep
    exact h.congr rfl rfl
  | cancel =>
    obtain ⟨st, -, ⟨-, -, rfl⟩ | ⟨-, rfl⟩⟩ := State.cancel_cases hstep
    · exact h.congr rfl rfl
    · exact h
  | discard =>
    obtain rfl := Option.some.inj hstep
    exact h.congr rfl rfl
  | abort =>
    obtain rfl := Option.some.inj hstep
    exact pumpLaw_cancelPump h

/-- The window and the credits granted are the credits left, used and on their way. -/
def Credited (w : ℕ) (s : State α ε) : Prop :=
  ∀ o ∈ s.registry, ∃ c, o.credits = some c ∧
    c + s.posted + s.toSender.count .ack = w + s.granted

theorem count_acks (v n : ℕ) : (State.acks (some v) n).count .ack = n := by
  simp [State.acks]

theorem Credited.advances {v : ℕ} (h : Credited w s) (ha : State.Advances (some v) s s') :
    Credited w s' := by
  intro o ho
  rw [ha.registry] at ho
  obtain ⟨c, hc, hsum⟩ := h o ho
  refine ⟨c, hc, ?_⟩
  have hle := ha.granted
  rw [ha.toSender, ha.posted, List.count_append, count_acks]
  omega

/-- Only these four matter. -/
theorem Credited.congr (h : Credited w s) (hregistry : s'.registry = s.registry)
    (hposted : s'.posted = s.posted) (hsender : s'.toSender.count .ack = s.toSender.count .ack)
    (hgranted : s'.granted = s.granted) : Credited w s' := by
  intro o ho
  obtain ⟨c, hc, hsum⟩ := h o (hregistry ▸ ho)
  exact ⟨c, hc, by rw [hposted, hsender, hgranted]; exact hsum⟩

theorem credited_of_none (h : s.registry = none) : Credited w s := by
  intro o ho
  cases h.symm.trans ho

theorem credited_postChunk {o : Outbound} {x : α} (h : Credited w s)
    (hregistry : s.registry = some o) (hcredits : o.credits ≠ some 0) (fails : Option ε) :
    Credited w ((State.postChunk { s with registry := some o.take } x fails)) := by
  obtain ⟨c, hc, hsum⟩ := h o hregistry
  cases fails with
  | some e => exact credited_of_none rfl
  | none =>
    rintro o' ho'
    obtain rfl := Option.some.inj ho'
    have hpos : c ≠ 0 := fun hzero => hcredits (by rw [hc, hzero])
    refine ⟨c - 1, by simp [Outbound.take, hc], ?_⟩
    show c - 1 + (s.posted + 1) + s.toSender.count .ack = w + s.granted
    omega

theorem credited_cancelPump (h : Credited w s) : Credited w s.cancelPump := by
  unfold State.cancelPump
  split
  · exact h
  · exact credited_of_none rfl

/-- **Credits are conserved** by every piece. -/
theorem credited_of_step (hpump : PumpLaw s) (h : Credited w s)
    (hstep : step (some w) s a = some s') : Credited w s' := by
  cases a with
  | produce fails =>
    obtain ⟨-, ⟨-, rfl⟩ | ⟨x, rest, -, ⟨-, rfl⟩ | ⟨o, hregistry, ⟨-, rfl⟩ |
      ⟨hcredits, rfl⟩⟩⟩⟩ := State.produce_cases hstep
    · exact credited_of_none rfl
    · exact credited_of_none rfl
    · rintro o' ho'
      obtain rfl := Option.some.inj ho'
      exact h o hregistry
    · exact credited_postChunk (s := { s with source := rest }) h hregistry hcredits fails
  | resume fails =>
    obtain ⟨x, hresuming, ⟨-, rfl⟩ | ⟨o, hregistry, rfl⟩⟩ := State.resume_cases hstep
    · exact credited_of_none rfl
    · unfold PumpLaw at hpump
      rw [hresuming] at hpump
      exact credited_postChunk h hregistry (hpump o hregistry).2 fails
  | deliver =>
    obtain ⟨ev, rest, -, rfl⟩ := State.deliver_cases hstep
    have hrest : Credited w { s with toReceiver := rest } := h
    exact hrest.advances (State.advances_onEvent _ ev)
  | answer =>
    obtain ⟨reply, rest, hsender, ⟨rfl, rfl⟩ | ⟨rfl, rfl⟩⟩ := State.answer_cases hstep
    · unfold State.grantCredit
      split
      · next hnone => exact credited_of_none hnone
      · next o hregistry =>
          rintro o' ho'
          obtain rfl := Option.some.inj ho'
          obtain ⟨c, hc, hsum⟩ := h o hregistry
          rw [hsender, List.count_cons_self] at hsum
          refine ⟨c + 1, by simp [hc], ?_⟩
          show c + 1 + s.posted + rest.count .ack = w + s.granted
          omega
    · have hrest : Credited w { s with toSender := rest } :=
        h.congr rfl rfl (by simp [hsender]) rfl
      exact credited_cancelPump hrest
  | openStream => exact h.advances (State.advances_openStream hstep)
  | start =>
    obtain ⟨st, -, -, -, hadvances⟩ := State.start_cases hstep
    exact h.advances hadvances
  | pulled =>
    obtain ⟨st, -, -, -, hadvances⟩ := State.pulled_cases hstep
    exact h.advances hadvances
  | read =>
    obtain ⟨st, -, -, hadvances⟩ := State.read_cases hstep
    exact h.advances hadvances
  | cancel =>
    obtain ⟨st, -, ⟨-, hadvances, rfl⟩ | ⟨-, rfl⟩⟩ := State.cancel_cases hstep
    · exact (h.advances hadvances).congr rfl rfl (by simp [State.cancelReceiver]) rfl
    · exact h
  | discard =>
    obtain rfl := Option.some.inj hstep
    exact h.congr rfl rfl (by simp [State.cancelReceiver]) rfl
  | abort =>
    obtain rfl := Option.some.inj hstep
    exact credited_cancelPump h

theorem pumpLaw_init (v : Option ℕ) (src : Source α ε) : PumpLaw (State.init v src) := by
  unfold State.init
  split
  · exact rfl
  · intro o ho
    obtain rfl := Option.some.inj ho
    rfl

theorem credited_init (w : ℕ) (src : Source α ε) : Credited w (State.init (some w) src) := by
  unfold State.init
  split
  · exact credited_of_none rfl
  · intro o ho
    obtain rfl := Option.some.inj ho
    exact ⟨w, rfl, rfl⟩

end Lopata.Streams
