import Lopata.WebSocket.Bridge

/-!
# Fidelity of the Bridge

A bridge is a two-way line: what an end has heard is what its socket has dispatched or queued, and
what is on its way to it is pending, in the channel, or in the queue of a half that has not been
shipped. An end that is closed has no entry for the id, so what still arrives reaches nobody.

## Main results

* `wired_of_reaches`: entries, halves and peers in every run.
* `refines`: each step of a bridge is a step of the line, or several, or none.
* `bridge_faithful`: what the two sockets receive, in every run.
-/

namespace Lopata.WebSocket

open Bridge

variable {α : Type*} {w : Wiring} {s s' : Bridge α} {a : Bridge.Label α} {e : End} {x : Station α}
  {ev : Event α}

/-! ### Sockets -/

namespace Socket

/-- A socket whose methods are not running. -/
structure Settled (y : Socket α) : Prop where
  calm : y.readyState ≠ .closing
  queue : y.accepted = true → y.eventQueue = []
  unheard : y.accepted = false → y.received = []

/-- The events that a socket has dispatched or queued. -/
def heard (y : Socket α) : List (Event α) :=
  y.received ++ y.eventQueue

variable {y : Socket α}

theorem Settled.init : Settled ({} : Socket α) where
  calm := fun h => by cases h
  queue := fun _ => rfl
  unheard := fun _ => rfl

theorem dispatchOrQueue_readyState (ev : Event α) :
    (y.dispatchOrQueue ev).readyState = y.readyState := by
  unfold dispatchOrQueue
  split <;> rfl

theorem dispatchOrQueue_setReady (y : Socket α) (ev : Event α) :
    (y.dispatchOrQueue ev).setReady .closed = y.shut ev := by
  unfold shut dispatchOrQueue setReady
  split <;> rfl

theorem Settled.dispatchOrQueue (h : Settled y) (ev : Event α) :
    Settled (y.dispatchOrQueue ev) ∧ (y.dispatchOrQueue ev).heard = y.heard ++ [ev] := by
  unfold Socket.dispatchOrQueue
  split
  · next haccepted =>
      refine ⟨⟨h.calm, h.queue, fun hnot => ?_⟩, ?_⟩
      · cases haccepted.symm.trans hnot
      · simp [heard, dispatch, h.queue haccepted]
  · next haccepted =>
      refine ⟨⟨h.calm, fun hyes => absurd hyes haccepted, h.unheard⟩, ?_⟩
      simp [heard, enqueue]

theorem Settled.shut (h : Settled y) (ev : Event α) :
    Settled (y.shut ev) ∧ (y.shut ev).heard = y.heard ++ [ev] ∧
      (y.shut ev).readyState = .closed := by
  have hclosed : Settled (y.setReady .closed) := ⟨fun hfalse => (by cases hfalse), h.queue, h.unheard⟩
  obtain ⟨hsettled, hheard⟩ := hclosed.dispatchOrQueue ev
  exact ⟨hsettled, hheard, dispatchOrQueue_readyState ev⟩

theorem accept_readyState :
    (y.accept.readyState = .closed ↔ y.readyState = .closed) ∧ y.accept.readyState ≠ .closing ∧
      (y.readyState ≠ .closed → y.accept.readyState = .opened) := by
  unfold accept
  split
  · next heq => exact ⟨iff_of_true rfl heq, fun h => (by cases h), fun h => absurd heq h⟩
  · next hne => exact ⟨iff_of_false (fun h => by cases h) hne, fun h => (by cases h), fun _ => rfl⟩

theorem Settled.acceptAll (h : Settled y) :
    Settled y.acceptAll ∧ y.acceptAll.heard = y.heard ∧
      (y.acceptAll.readyState = .closed ↔ y.readyState = .closed) := by
  unfold Socket.acceptAll
  split
  · exact ⟨h, rfl, Iff.rfl⟩
  · obtain ⟨hclosed, hcalm, -⟩ := accept_readyState (y := y)
    refine ⟨⟨hcalm, fun _ => rfl, fun hnot => (by cases hnot)⟩, ?_, hclosed⟩
    simp [heard, accept]

end Socket

/-! ### The line of a bridge -/

namespace Bridge

variable (w : Wiring) (s : Bridge α)

/-- The part of what is on its way that has not left the half. -/
def fromHalf (e : End) : List (Event α) :=
  if e = w.origin then [] else s.half.eventQueue

/-- What has been posted to an end and has not reached its socket. -/
def way (e : End) : List (Event α) :=
  (s.station e).pending ++ (s.station e).incoming ++ s.fromHalf w e

def Deaf (e : End) : Prop := e = .host ∧ s.disposed = true

instance (e : End) : Decidable (s.Deaf e) :=
  inferInstanceAs (Decidable (_ ∧ _))

def line : Duplex α := fun e =>
  { posted := (s.station e).posted
    heard := (s.station e).user.heard
    onWay :=
      if (s.station e).user.readyState = .closed ∨ s.Deaf e then [] else s.way w e
    closed := decide ((s.station e).user.readyState = .closed)
    left := (s.station e).left
    deaf := decide (s.Deaf e) }

/-- A socket is wired to the bridge. -/
def Attached (e : End) : Prop :=
  if e = w.origin then s.shipped = true else s.created = true

end Bridge

/-- What holds in every run. -/
structure Wired (w : Wiring) (s : Bridge α) : Prop where
  settled : ∀ e, (s.station e).user.Settled
  halfCalm : s.half.readyState ≠ .closing
  halfAccepted : s.half.accepted = s.shipped
  halfQueue : s.shipped = true → s.half.eventQueue = []
  halfClosed : s.half.readyState = .closed → (s.station w.origin).user.readyState = .closed
  halfOpened : s.shipped = true → s.half.readyState ≠ .closed → s.half.readyState = .opened
  halfClose : s.shipped = false →
    (HasClose s.half.eventQueue ↔ (s.station w.origin).user.readyState = .closed)
  peer : (s.station w.origin.other).user.readyState ≠ .closed → s.peerReady = .opened
  entryOpen : ∀ e, s.Attached w e → (s.station e).user.readyState ≠ .closed →
    (s.station e).entry = true
  entry : ∀ e, (s.station e).entry = true →
    s.Attached w e ∧ (s.station e).user.readyState ≠ .closed ∧ (s.station e).pending = []
  uncreated : s.created = false → (s.station w.origin.other).user = {} ∧
    (s.station w.origin.other).forgotten = false
  unshipped : s.shipped = false → s.created = false ∧
    ∀ e, (s.station e).incoming = [] ∧ (s.station e).pending = []
  disposed : s.disposed = true → s.Attached w .host →
    (s.station .host).user.readyState = .closed

theorem wired_init : Wired w ({} : Bridge α) where
  settled := fun _ => Socket.Settled.init
  halfCalm := fun h => by cases h
  halfAccepted := rfl
  halfQueue := fun _ => rfl
  halfClosed := fun h => by cases h
  halfOpened := fun h => by cases h
  halfClose := fun _ => ⟨fun ⟨_, h, _⟩ => (by cases h), fun h => by cases h⟩
  peer := fun _ => rfl
  entryOpen := fun e h => by
    unfold Attached at h
    split at h <;> cases h
  entry := fun _ h => by cases h
  uncreated := fun _ => ⟨rfl, rfl⟩
  unshipped := fun _ => ⟨rfl, fun _ => ⟨rfl, rfl⟩⟩
  disposed := fun h => by cases h

/-! ### Stations -/

namespace Bridge

variable (s : Bridge α) (e : End) (f : Station α → Station α)

@[simp] theorem modify_self : (s.modify e f).station e = f (s.station e) :=
  Function.update_self ..

@[simp] theorem modify_other : (s.modify e f).station e.other = s.station e.other :=
  Function.update_of_ne e.other_ne ..

@[simp] theorem modify_other_self : (s.modify e.other f).station e = s.station e :=
  Function.update_of_ne e.ne_other ..

end Bridge

theorem modify_guest (f : Station α → Station α) :
    (s.modify .host f).station .guest = s.station .guest :=
  modify_other (e := .host) ..

theorem modify_way {f : Station α → Station α}
    (hf : ∀ y, (f y).pending = y.pending ∧ (f y).incoming = y.incoming) (y : End) :
    (s.modify e f).way w y = s.way w y := by
  rw [way, way]
  congr 1
  rcases End.eq_or_eq_other y e with rfl | rfl
  · rw [modify_self, (hf _).1, (hf _).2]
  · rw [modify_other]

/-- A socket that is wired, or is not built yet. -/
theorem attached_origin : s.Attached w w.origin ↔ s.shipped = true := by
  rw [Attached, if_pos rfl]

theorem attached_far : s.Attached w w.origin.other ↔ s.created = true := by
  rw [Attached, if_neg w.origin.other_ne]

/-- The effect of a relay on both ends. -/
theorem relay_station :
    (s.relay e ev).station e = (if ev.isClose then (s.station e).forget else s.station e) ∧
      (s.relay e ev).station e.other = (s.station e.other).arrive ev := by
  unfold relay
  cases ev.isClose <;> simp

variable (ev) in
theorem relay_rest : (s.relay e ev).half = s.half ∧ (s.relay e ev).peerReady = s.peerReady ∧
    (s.relay e ev).shipped = s.shipped ∧ (s.relay e ev).created = s.created ∧
      (s.relay e ev).disposed = s.disposed := by
  unfold relay
  cases ev.isClose <;> exact ⟨rfl, rfl, rfl, rfl, rfl⟩

theorem line_apply : s.line w e =
    { posted := (s.station e).posted
      heard := (s.station e).user.heard
      onWay := if (s.station e).user.readyState = .closed ∨ s.Deaf e then [] else s.way w e
      closed := decide ((s.station e).user.readyState = .closed)
      left := (s.station e).left
      deaf := decide (s.Deaf e) } := rfl

theorem deaf_congr (h : s'.disposed = s.disposed) : s'.Deaf e ↔ s.Deaf e := by
  rw [Deaf, Deaf, h]

/-- An end at which nothing happens. -/
theorem line_same (huser : (s'.station e).user = (s.station e).user)
    (hposted : (s'.station e).posted = (s.station e).posted)
    (hleft : (s'.station e).left = (s.station e).left) (hdeaf : s'.Deaf e ↔ s.Deaf e)
    (hway : (s.station e).user.readyState ≠ .closed → ¬ s.Deaf e → s'.way w e = s.way w e) :
    s'.line w e = s.line w e := by
  rw [line_apply, line_apply]
  simp only [huser, hposted, hleft, hdeaf]
  congr 1
  split
  · rfl
  · next hnot =>
      rw [not_or] at hnot
      exact hway hnot.1 hnot.2

/-- An end that posts an event. -/
theorem line_log (huser : (s'.station e).user = (s.station e).user)
    (hposted : (s'.station e).posted = (s.station e).posted ++ [ev])
    (hleft : (s'.station e).left = (s.station e).left) (hdeaf : s'.Deaf e ↔ s.Deaf e)
    (hway : s'.way w e = s.way w e) : s'.line w e = (s.line w e).log ev := by
  rw [line_apply, line_apply, Terminal.log]
  simp only [huser, hposted, hleft, hdeaf, hway]

/-- An end to which an event is posted. -/
theorem line_push (huser : (s'.station e).user = (s.station e).user)
    (hposted : (s'.station e).posted = (s.station e).posted)
    (hleft : (s'.station e).left = (s.station e).left) (hdeaf : s'.Deaf e ↔ s.Deaf e)
    (hway : s'.way w e = s.way w e ++ [ev]) : s'.line w e = (s.line w e).push ev := by
  rw [line_apply, line_apply, Terminal.push]
  simp only [huser, hposted, hleft, hdeaf, hway]
  by_cases hclosed : (s.station e).user.readyState = .closed
  · simp [hclosed]
  · by_cases hdeaf : s.Deaf e
    · simp [hdeaf]
    · simp [hclosed, hdeaf]

/-- An end that closes, or hears a close event, or fails. -/
theorem line_finish {left deaf : Bool} (h : (s.station e).user.Settled)
    (huser : (s'.station e).user = (s.station e).user.shut ev)
    (hleft : (s'.station e).left = ((s.station e).left || left))
    (hdeaf : s'.Deaf e ↔ s.Deaf e ∨ deaf = true) :
    s'.line w e = { (s.line w e).finish ev left deaf with posted := (s'.station e).posted } := by
  obtain ⟨-, hheard, hclosed⟩ := h.shut ev
  rw [line_apply, line_apply, Terminal.finish]
  simp only [huser, hheard, hclosed, hleft, true_or, if_true, hdeaf]
  congr 1
  simp [Bool.decide_or]

/-- Steps that open and close no socket, and leave the entries as they are. -/
theorem Wired.of_stations (h : Wired w s) (hsettled : ∀ e, (s'.station e).user.Settled)
    (hstation : ∀ e, ((s'.station e).user.readyState = .closed ↔
        (s.station e).user.readyState = .closed) ∧
      (s'.station e).entry = (s.station e).entry ∧
      ((s.station e).entry = true → (s'.station e).pending = (s.station e).pending))
    (huncreated : s.created = false →
      (s'.station w.origin.other).user = (s.station w.origin.other).user ∧
        (s'.station w.origin.other).forgotten = (s.station w.origin.other).forgotten)
    (hunshipped : s.shipped = false →
      (∀ e, (s.station e).incoming = [] ∧ (s.station e).pending = []) →
        ∀ e, (s'.station e).incoming = [] ∧ (s'.station e).pending = [])
    (hrest : s'.half.readyState = s.half.readyState ∧ s'.half.accepted = s.half.accepted ∧
      s'.peerReady = s.peerReady ∧ s'.shipped = s.shipped ∧ s'.created = s.created)
    (hdisposed : s'.disposed = true → s.Attached w .host →
      (s.station .host).user.readyState = .closed)
    (hhalf : (s.shipped = true → s'.half.eventQueue = s.half.eventQueue) ∧
      (s.shipped = false → (HasClose s'.half.eventQueue ↔ HasClose s.half.eventQueue))) :
    Wired w s' := by
  obtain ⟨hready, haccepted, hpeer, hshipped, hcreated⟩ := hrest
  have hattached : ∀ e, s'.Attached w e ↔ s.Attached w e := by
    intro e
    rw [Attached, Attached, hshipped, hcreated]
  have hclosed := fun e => (hstation e).1
  have hentry := fun e => (hstation e).2.1
  refine ⟨hsettled, ?_, ?_, ?_, ?_, ?_, ?_, ?_, ?_, ?_, ?_, ?_, ?_⟩
  all_goals simp only [ne_eq, hclosed, hentry, hready, haccepted, hpeer, hshipped, hcreated,
    hattached]
  · exact h.halfCalm
  · exact h.halfAccepted
  · exact fun hyes => (hhalf.1 hyes).trans (h.halfQueue hyes)
  · exact h.halfClosed
  · exact h.halfOpened
  · exact fun hnot => (hhalf.2 hnot).trans (h.halfClose hnot)
  · exact h.peer
  · exact h.entryOpen
  · intro e hhas
    obtain ⟨hat, hopen, hpending⟩ := h.entry e hhas
    exact ⟨hat, hopen, ((hstation e).2.2 hhas).trans hpending⟩
  · intro hnot
    rw [(huncreated hnot).1, (huncreated hnot).2]
    exact h.uncreated hnot
  · exact fun hnot => ⟨(h.unshipped hnot).1, hunshipped hnot (h.unshipped hnot).2⟩
  · exact hdisposed

/-- The line of a bridge takes some steps. -/
def Follows (w : Wiring) (s s' : Bridge α) : Prop :=
  ∃ bs, play Duplex.step (s.line w) bs = some (s'.line w)

theorem Follows.stay (h : s'.line w = s.line w) : Follows w s s' :=
  ⟨[], congrArg some h.symm⟩

theorem Follows.one {b : Duplex.Label α} (h : (s.line w).step b = some (s'.line w)) :
    Follows w s s' := by
  refine ⟨[b], ?_⟩
  rw [play, h]
  rfl

/-- **A socket is accepted.** -/
theorem refines_accept (h : Wired w s) (hpresent : s.Present w e) :
    Wired w (s.modify e fun x => { x with user := x.user.acceptAll }) ∧
      Follows w s (s.modify e fun x => { x with user := x.user.acceptAll }) := by
  obtain ⟨hsettled, hheard, hclosed⟩ := (h.settled e).acceptAll
  constructor
  · refine h.of_stations ?_ ?_ ?_ ?_ ⟨rfl, rfl, rfl, rfl, rfl⟩ h.disposed
      ⟨fun _ => rfl, fun _ => Iff.rfl⟩
    · refine (End.forall_iff e).mpr ⟨?_, ?_⟩
      · rw [modify_self]
        exact hsettled
      · rw [modify_other]
        exact h.settled e.other
    · refine (End.forall_iff e).mpr ⟨?_, ?_⟩
      · rw [modify_self]
        exact ⟨hclosed, rfl, fun _ => rfl⟩
      · rw [modify_other]
        exact ⟨Iff.rfl, rfl, fun _ => rfl⟩
    · intro hnot
      rcases hpresent with rfl | hcreated
      · rw [modify_other]
        exact ⟨rfl, rfl⟩
      · cases hnot.symm.trans hcreated
    · intro _ hall
      refine (End.forall_iff e).mpr ⟨?_, ?_⟩
      · rw [modify_self]
        exact hall e
      · rw [modify_other]
        exact hall e.other
  · refine Follows.stay (funext ((End.forall_iff e).mpr ⟨?_, ?_⟩))
    · have hdeaf : (s.modify e fun x => { x with user := x.user.acceptAll }).Deaf e ↔ s.Deaf e :=
        Iff.rfl
      have hway : (s.modify e fun x => { x with user := x.user.acceptAll }).way w e =
          s.way w e := by
        rw [way, modify_self]
        rfl
      rw [line_apply, line_apply]
      simp only [modify_self, hheard, hclosed, hdeaf, hway]
    · refine line_same ?_ ?_ ?_ Iff.rfl fun _ _ => ?_
      all_goals first | rw [way] | skip
      all_goals rw [modify_other]
      rfl

/-! ### Sending and closing -/

/-- An event that goes to the other thread, or to the queue of a half that has not been shipped. -/
def Bridge.out (w : Wiring) (s : Bridge α) (e : End) (ev : Event α) : Bridge α :=
  if e = w.origin ∧ s.shipped = false then { s with half := s.half.enqueue ev } else s.relay e ev

variable (ev) in
theorem out_station (x : End) :
    ((s.out w e ev).station x).user = (s.station x).user ∧
      ((s.out w e ev).station x).posted = (s.station x).posted ∧
      ((s.out w e ev).station x).left = (s.station x).left := by
  unfold out
  split
  · exact ⟨rfl, rfl, rfl⟩
  · revert x
    refine (End.forall_iff e).mpr ⟨?_, ?_⟩
    · rw [relay_station.1]
      split <;> exact ⟨rfl, rfl, rfl⟩
    · rw [relay_station.2]
      exact ⟨rfl, rfl, rfl⟩

variable (ev) in
theorem out_rest : (s.out w e ev).half.readyState = s.half.readyState ∧
    (s.out w e ev).half.accepted = s.half.accepted ∧ (s.out w e ev).peerReady = s.peerReady ∧
    (s.out w e ev).shipped = s.shipped ∧ (s.out w e ev).created = s.created ∧
      (s.out w e ev).disposed = s.disposed := by
  unfold out
  split
  · exact ⟨rfl, rfl, rfl, rfl, rfl, rfl⟩
  · obtain ⟨hhalf, hrest⟩ := relay_rest (s := s) (e := e) ev
    rw [hhalf]
    exact ⟨rfl, rfl, hrest⟩

/-- A socket that the program uses is wired, or the peer of a half that has not been shipped. -/
theorem shipped_of_present (h : Wired w s) (hpresent : s.Present w e)
    (hhalf : ¬ (e = w.origin ∧ s.shipped = false)) : s.shipped = true := by
  by_contra hshipped
  have hshipped : s.shipped = false := Bool.not_eq_true _ ▸ hshipped
  refine hhalf ⟨hpresent.resolve_right fun hcreated => ?_, hshipped⟩
  cases (h.unshipped hshipped).1.symm.trans hcreated

/-- The event is on its way to the other end. -/
theorem out_way_other (h : Wired w s) (hpresent : s.Present w e) :
    (s.out w e ev).way w e.other = s.way w e.other ++ [ev] := by
  unfold out
  split
  · next hhalf =>
      obtain ⟨rfl, hshipped⟩ := hhalf
      rw [way, way, fromHalf, fromHalf, if_neg w.origin.other_ne, if_neg w.origin.other_ne,
        List.append_assoc]
      simp [Socket.enqueue]
  · next hhalf =>
      have hnil : s.fromHalf w e.other = [] := by
        unfold fromHalf
        split
        · rfl
        · exact h.halfQueue (shipped_of_present h hpresent hhalf)
      have hfrom : (s.relay e ev).fromHalf w e.other = s.fromHalf w e.other := by
        rw [fromHalf, fromHalf, (relay_rest _).1]
      rw [way, way, relay_station.2, hfrom, hnil]
      simp [Station.arrive]

theorem out_station_message (hev : ev.isClose = false) :
    (s.out w e ev).station e = s.station e := by
  unfold out
  split
  · rfl
  · rw [relay_station.1, hev]
    rfl

theorem out_way_message (hev : ev.isClose = false) : (s.out w e ev).way w e = s.way w e := by
  rw [way, way, out_station_message hev]
  congr 1
  unfold fromHalf
  split
  · rfl
  · next hne =>
      rw [out, if_neg fun hhalf => hne hhalf.1, (relay_rest _).1]

theorem toHalf_eq (h : Wired w s) (horigin : e = w.origin) : s.toHalf e ev = s.out w e ev := by
  rw [toHalf, out, h.halfAccepted]
  cases hshipped : s.shipped <;> simp [horigin]

theorem toPeer_eq (h : Wired w s) (horigin : e ≠ w.origin)
    (hopen : (s.station e).user.readyState ≠ .closed) : s.toPeer w e ev = s.out w e ev := by
  obtain rfl : e = w.origin.other := (End.eq_or_eq_other e w.origin).resolve_left horigin
  rw [toPeer, out, h.peer hopen]
  simp

/-- What an open socket sends is not dropped. -/
theorem sendPeer_eq (h : Wired w s) (hopen : (s.station e).user.readyState ≠ .closed) :
    s.sendPeer w e ev = s.out w e ev := by
  unfold sendPeer
  split
  · next horigin =>
      rw [if_neg, toHalf_eq h horigin]
      intro hclosed
      exact hopen (horigin ▸ h.halfClosed hclosed)
  · next horigin =>
      rw [if_neg, toPeer_eq h horigin hopen]
      have heq : e = w.origin.other := (End.eq_or_eq_other e w.origin).resolve_left horigin
      rw [h.peer (heq ▸ hopen)]
      exact fun hfalse => by cases hfalse

theorem out_station_other (hhalf : ¬ (e = w.origin ∧ s.shipped = false)) :
    (s.out w e ev).station e.other = (s.station e.other).arrive ev := by
  rw [out, if_neg hhalf, relay_station.2]

/-- A message leaves entries and sockets as they are. -/
theorem wired_out_message (h : Wired w s) (hpresent : s.Present w e) (hev : ev.isClose = false) :
    Wired w ((s.out w e ev).modify e (·.log ev)) := by
  have hself : ((s.out w e ev).modify e (·.log ev)).station e = (s.station e).log ev := by
    rw [modify_self, out_station_message hev]
  have hother : ((s.out w e ev).modify e (·.log ev)).station e.other = s.station e.other ∨
      (s.shipped = true ∧ ((s.out w e ev).modify e (·.log ev)).station e.other =
        (s.station e.other).arrive ev) := by
    rw [modify_other]
    by_cases hhalf : e = w.origin ∧ s.shipped = false
    · refine .inl ?_
      rw [out, if_pos hhalf]
    · exact .inr ⟨shipped_of_present h hpresent hhalf, out_station_other hhalf⟩
  obtain ⟨hready, haccepted, hpeer, hshipped, hcreated, hdisposed⟩ := out_rest (s := s) (w := w)
    (e := e) ev
  refine h.of_stations ?_ ?_ ?_ ?_ ⟨hready, haccepted, hpeer, hshipped, hcreated⟩
    (fun hyes => h.disposed (hdisposed.symm.trans hyes))
    ⟨fun hshipped => ?_, fun hshipped => ?_⟩
  · refine (End.forall_iff e).mpr ⟨?_, ?_⟩
    · rw [hself]
      exact h.settled e
    · rcases hother with hother | ⟨-, hother⟩ <;> rw [hother] <;> exact h.settled e.other
  · refine (End.forall_iff e).mpr ⟨?_, ?_⟩
    · rw [hself]
      exact ⟨Iff.rfl, rfl, fun _ => rfl⟩
    · rcases hother with hother | ⟨-, hother⟩ <;> rw [hother] <;>
        exact ⟨Iff.rfl, rfl, fun _ => rfl⟩
  · intro _
    rcases End.eq_or_eq_other w.origin.other e with heq | heq
    · rw [heq, hself]
      exact ⟨rfl, rfl⟩
    · rw [heq]
      rcases hother with hother | ⟨-, hother⟩ <;> rw [hother] <;> exact ⟨rfl, rfl⟩
  · intro hshipped hall
    refine (End.forall_iff e).mpr ⟨?_, ?_⟩
    · rw [hself]
      exact hall e
    · rcases hother with hother | ⟨hyes, -⟩
      · rw [hother]
        exact hall e.other
      · cases hshipped.symm.trans hyes
  · show (s.out w e ev).half.eventQueue = s.half.eventQueue
    rw [out, if_neg fun hhalf => (by cases hshipped.symm.trans hhalf.2), (relay_rest _).1]
  · show HasClose (s.out w e ev).half.eventQueue ↔ HasClose s.half.eventQueue
    unfold out
    split
    · show HasClose (s.half.eventQueue ++ [ev]) ↔ HasClose s.half.eventQueue
      rw [hasClose_append, hasClose_singleton, hev]
      simp
    · rw [(relay_rest _).1]

/-- **A message is sent.** -/
theorem refines_send (h : Wired w s) (hpresent : s.Present w e) (data : α) :
    Wired w (s.send w e data) ∧ Follows w s (s.send w e data) := by
  by_cases hopened : (s.station e).user.readyState = .opened
  · have hopen : (s.station e).user.readyState ≠ .closed := by
      rw [hopened]
      exact fun hfalse => by cases hfalse
    have hstep : (s.line w).step (.post e data) = some ((s.line w).post e (.message data)) :=
      if_neg (by simp [line, hopen])
    have hrest := out_rest (s := s) (w := w) (e := e) (.message data)
    rw [send, if_neg (Decidable.not_not.mpr hopened), sendPeer_eq h hopen]
    refine ⟨wired_out_message h hpresent rfl, Follows.one (hstep.trans (congrArg some (funext
      ((End.forall_iff e).mpr ⟨?_, ?_⟩))))⟩
    · rw [Duplex.post_self]
      symm
      have hself : ((s.out w e (.message data)).modify e (·.log (.message data))).station e =
          (s.station e).log (.message data) := by
        rw [modify_self, out_station_message rfl]
      refine line_log ?_ ?_ ?_ (deaf_congr hrest.2.2.2.2.2) ?_
      · rw [hself]
        rfl
      · rw [hself]
        rfl
      · rw [hself]
        exact Bool.or_false _
      · rw [modify_way (f := (·.log (.message data))) fun _ => ⟨rfl, rfl⟩, out_way_message rfl]
    · rw [Duplex.post_other]
      symm
      obtain ⟨huser, hposted, hleft⟩ := out_station (s := s) (w := w) (e := e)
        (.message data) e.other
      refine line_push ?_ ?_ ?_ (deaf_congr hrest.2.2.2.2.2) ?_
      · rw [modify_other, huser]
      · rw [modify_other, hposted]
      · rw [modify_other, hleft]
      · rw [modify_way (f := (·.log (.message data))) fun _ => ⟨rfl, rfl⟩, out_way_other h hpresent]
  · rw [send, if_pos hopened]
    exact ⟨h, Follows.stay rfl⟩

/-- An end whose close event has gone out has no entry. -/
theorem out_close_entry (h : Wired w s) (hev : ev.isClose = true) :
    ((s.out w e ev).station e).entry = false := by
  unfold out
  split
  · next hhalf =>
      obtain ⟨rfl, hshipped⟩ := hhalf
      by_contra hentry
      have hat := (h.entry _ (Bool.not_eq_false _ ▸ hentry)).1
      rw [attached_origin, hshipped] at hat
      cases hat
  · rw [relay_station.1, if_pos hev]
    rfl

variable (ev) in
theorem out_other_entry (x : End) (hx : x = e.other) :
    ((s.out w e ev).station x).entry = (s.station x).entry ∧
      ((s.out w e ev).station x).pending = (s.station x).pending ∧
      ((s.out w e ev).station x).forgotten = (s.station x).forgotten := by
  subst hx
  by_cases hhalf : e = w.origin ∧ s.shipped = false
  · rw [out, if_pos hhalf]
    exact ⟨rfl, rfl, rfl⟩
  · rw [out_station_other hhalf]
    exact ⟨rfl, rfl, rfl⟩

/-- What `close` of an open socket does with the peer. -/
theorem closePeer_eq (h : Wired w s) (hopen : (s.station e).user.readyState ≠ .closed) :
    s.closePeer w e ev =
      if e = w.origin then
        { s.out w e ev with half := (s.out w e ev).half.setReady .closed }
      else { s.out w e ev with peerReady := .closed } := by
  unfold closePeer
  split
  · next horigin =>
      rw [if_neg, toHalf_eq h horigin]
      rintro (hclosed | hclosing)
      · exact hopen (horigin ▸ h.halfClosed hclosed)
      · exact h.halfCalm hclosing
  · next horigin =>
      have heq : e = w.origin.other := (End.eq_or_eq_other e w.origin).resolve_left horigin
      rw [if_neg, toPeer_eq h horigin hopen]
      rw [h.peer (heq ▸ hopen)]
      rintro (hfalse | hfalse) <;> cases hfalse

/-- The state after `close` of an open socket. -/
def Bridge.closeOut (w : Wiring) (s : Bridge α) (e : End) (ev : Event α) : Bridge α :=
  (if e = w.origin then { s.out w e ev with half := (s.out w e ev).half.setReady .closed }
    else { s.out w e ev with peerReady := .closed }).modify e
      fun x => { x.log ev with user := x.user.shut ev }

variable (ev) in
theorem closeOut_station :
    (s.closeOut w e ev).station e = { ((s.out w e ev).station e).log ev with
        user := ((s.out w e ev).station e).user.shut ev } ∧
      (s.closeOut w e ev).station e.other = (s.out w e ev).station e.other := by
  unfold closeOut
  split
  · rw [modify_self, modify_other]
    exact ⟨rfl, rfl⟩
  · rw [modify_self, modify_other]
    exact ⟨rfl, rfl⟩

variable (ev) in
theorem closeOut_rest : (s.closeOut w e ev).half.accepted = s.half.accepted ∧
    (s.closeOut w e ev).half.eventQueue = (s.out w e ev).half.eventQueue ∧
    (s.closeOut w e ev).shipped = s.shipped ∧ (s.closeOut w e ev).created = s.created ∧
      (s.closeOut w e ev).disposed = s.disposed := by
  obtain ⟨-, haccepted, -, hshipped, hcreated, hdisposed⟩ := out_rest (s := s) (w := w) (e := e)
    ev
  unfold closeOut
  split <;> exact ⟨haccepted, rfl, hshipped, hcreated, hdisposed⟩

theorem closeOut_ready (horigin : e = w.origin) :
    (s.closeOut w e ev).half.readyState = .closed ∧
      (s.closeOut w e ev).peerReady = s.peerReady := by
  rw [closeOut, if_pos horigin]
  exact ⟨rfl, (out_rest _).2.2.1⟩

theorem closeOut_ready_far (hfar : e ≠ w.origin) :
    (s.closeOut w e ev).half.readyState = s.half.readyState := by
  rw [closeOut, if_neg hfar]
  exact (out_rest _).1

theorem wired_closeOut (h : Wired w s) (hpresent : s.Present w e) (hev : ev.isClose = true) :
    Wired w (s.closeOut w e ev) := by
  obtain ⟨hself, hother⟩ := closeOut_station (s := s) (w := w) (e := e) ev
  obtain ⟨haccepted, hqueue, hshipped, hcreated, hdisposed⟩ :=
    closeOut_rest (s := s) (w := w) (e := e) ev
  obtain ⟨hsettled, -, hclosed⟩ := (h.settled e).shut ev
  have huser : ((s.closeOut w e ev).station e).user = (s.station e).user.shut ev := by
    rw [hself]
    exact congrArg (Socket.shut · ev) (out_station _ e).1
  have hready : ((s.closeOut w e ev).station e).user.readyState = .closed := by
    rw [huser, hclosed]
  have hotherUser : ((s.closeOut w e ev).station e.other).user = (s.station e.other).user := by
    rw [hother, (out_station _ e.other).1]
  obtain ⟨hotherEntry, hotherPending, hotherForgotten⟩ :=
    out_other_entry (s := s) (w := w) ev e.other rfl
  have hattached : ∀ x, (s.closeOut w e ev).Attached w x ↔ s.Attached w x := by
    intro x
    rw [Attached, Attached, hshipped, hcreated]
  have horigin : s.shipped = false → e = w.origin := fun hnot =>
    hpresent.resolve_right fun hyes => by cases (h.unshipped hnot).1.symm.trans hyes
  have hfar : e ≠ w.origin → e = w.origin.other := fun hne =>
    (End.eq_or_eq_other e w.origin).resolve_left hne
  refine ⟨?_, ?_, ?_, ?_, ?_, ?_, ?_, ?_, ?_, ?_, ?_, ?_, ?_⟩
  · refine (End.forall_iff e).mpr ⟨?_, ?_⟩
    · rw [huser]
      exact hsettled
    · rw [hotherUser]
      exact h.settled e.other
  · by_cases heq : e = w.origin
    · rw [(closeOut_ready heq).1]
      exact fun hfalse => by cases hfalse
    · rw [closeOut_ready_far heq]
      exact h.halfCalm
  · rw [haccepted, hshipped]
    exact h.halfAccepted
  · intro hyes
    rw [hshipped] at hyes
    rw [hqueue, out, if_neg fun hhalf => (by cases hyes.symm.trans hhalf.2), (relay_rest _).1]
    exact h.halfQueue hyes
  · intro hhalf
    by_cases heq : e = w.origin
    · subst heq
      exact hready
    · have heq' := hfar heq
      rw [closeOut_ready_far heq] at hhalf
      have horiginUser := hotherUser
      rw [heq', End.other_other] at horiginUser
      rw [heq', horiginUser]
      exact h.halfClosed hhalf
  · intro hyes hnot
    rw [hshipped] at hyes
    by_cases heq : e = w.origin
    · exact absurd (closeOut_ready heq).1 hnot
    · rw [closeOut_ready_far heq] at hnot ⊢
      exact h.halfOpened hyes hnot
  · intro hnot
    rw [hshipped] at hnot
    obtain rfl := horigin hnot
    rw [hqueue, out, if_pos ⟨rfl, hnot⟩]
    refine iff_of_true ?_ hready
    exact hasClose_append.mpr (.inr (hasClose_singleton.mpr hev))
  · intro hnot
    by_cases heq : e = w.origin
    · subst heq
      rw [hotherUser] at hnot
      rw [(closeOut_ready rfl).2]
      exact h.peer hnot
    · exact absurd (hfar heq ▸ hready) hnot
  · refine (End.forall_iff e).mpr ⟨fun _ hnot => absurd hready hnot, ?_⟩
    rw [hattached, hotherUser, hother, hotherEntry]
    exact h.entryOpen e.other
  · refine (End.forall_iff e).mpr ⟨?_, ?_⟩
    · rw [hself]
      intro hentry
      have hentry : ((s.out w e ev).station e).entry = true := hentry
      rw [out_close_entry h hev] at hentry
      cases hentry
    · rw [hattached, hotherUser, hother, hotherEntry, hotherPending]
      exact h.entry e.other
  · intro hnot
    rw [hcreated] at hnot
    obtain rfl : e = w.origin := hpresent.resolve_right fun hyes => by cases hnot.symm.trans hyes
    rw [hotherUser, hother, hotherForgotten]
    exact h.uncreated hnot
  · intro hnot
    rw [hshipped] at hnot
    obtain rfl := horigin hnot
    rw [hcreated]
    refine ⟨(h.unshipped hnot).1, ?_⟩
    have hout : ∀ x, (s.out w w.origin ev).station x = s.station x := by
      intro x
      rw [out, if_pos ⟨rfl, hnot⟩]
    refine (End.forall_iff w.origin).mpr ⟨?_, ?_⟩
    · rw [hself, hout]
      exact (h.unshipped hnot).2 _
    · rw [hother, hout]
      exact (h.unshipped hnot).2 _
  · rw [hdisposed, hattached]
    intro hyes hat
    rcases End.eq_or_eq_other .host e with heq | heq
    · rw [heq]
      exact hready
    · rw [heq, hotherUser]
      have := h.disposed hyes hat
      rwa [heq] at this

/-- **A socket closes.** -/
theorem refines_close (h : Wired w s) (hpresent : s.Present w e) (code : Option ℕ)
    (reason : Option String) :
    Wired w (s.close w e code reason) ∧ Follows w s (s.close w e code reason) := by
  unfold Bridge.close
  generalize hev : (Event.close (code.getD 1000) (reason.getD "") : Event α) = ev
  have hev : ev.isClose = true := hev ▸ rfl
  dsimp only
  split
  · exact ⟨h, Follows.stay rfl⟩
  · next hover =>
      have hopen : (s.station e).user.readyState ≠ .closed := fun hclosed => hover (.inl hclosed)
      rw [closePeer_eq h hopen]
      show Wired w (s.closeOut w e ev) ∧ Follows w s (s.closeOut w e ev)
      have hstep : (s.line w).step (.close e ev) =
          some ((s.line w).shut e ev true true false) :=
        if_neg (by simp [line, hopen, hev])
      obtain ⟨hself, hother⟩ := closeOut_station (s := s) (w := w) (e := e) ev
      have hrest := closeOut_rest (s := s) (w := w) (e := e) ev
      have hdisposed := hrest.2.2.2.2
      obtain ⟨huser, hposted, hleft⟩ := out_station (s := s) (w := w) (e := e) ev e
      refine ⟨wired_closeOut h hpresent hev, Follows.one (hstep.trans (congrArg some (funext
        ((End.forall_iff e).mpr ⟨?_, ?_⟩))))⟩
      · rw [Duplex.shut_self]
        have hline : (s.closeOut w e ev).line w e = { (s.line w e).finish ev true false with
            posted := ((s.closeOut w e ev).station e).posted } := by
          refine line_finish (h.settled e) ?_ ?_ ?_
          · rw [hself]
            exact congrArg (Socket.shut · ev) huser
          · rw [hself]
            show (((s.out w e ev).station e).left || ev.isClose) = _
            rw [hleft, hev]
          · rw [Deaf, Deaf, hdisposed]
            simp
        have hlogged : ((s.closeOut w e ev).station e).posted = (s.station e).posted ++ [ev] := by
          rw [hself]
          exact congrArg (· ++ [ev]) hposted
        rw [hline, hlogged]
        rfl
      · rw [Duplex.shut_other]
        symm
        obtain ⟨huser, hposted, hleft⟩ :=
          out_station (s := s) (w := w) (e := e) ev e.other
        refine line_push ?_ ?_ ?_ (deaf_congr hdisposed) ?_
        · rw [hother, huser]
        · rw [hother, hposted]
        · rw [hother, hleft]
        · rw [← out_way_other h hpresent, way, way, hother, fromHalf, fromHalf, hrest.2.1]

/-! ### Shipping -/

/-- A queue that is relayed. -/
theorem relays (l : List (Event α)) :
    (l.foldl (·.relay e ·) s).station e.other = { s.station e.other with
        incoming := (s.station e.other).incoming ++ l } ∧
      (l.foldl (·.relay e ·) s).station e =
        (if l.any Event.isClose then (s.station e).forget else s.station e) ∧
      (l.foldl (·.relay e ·) s).half = s.half ∧
      (l.foldl (·.relay e ·) s).peerReady = s.peerReady ∧
      (l.foldl (·.relay e ·) s).shipped = s.shipped ∧
      (l.foldl (·.relay e ·) s).created = s.created ∧
      (l.foldl (·.relay e ·) s).disposed = s.disposed := by
  induction l generalizing s with
  | nil => simp
  | cons ev l ih =>
    obtain ⟨hother, hself, hhalf, hpeer, hshipped, hcreated, hdisposed⟩ := ih (s := s.relay e ev)
    obtain ⟨hhalf', hpeer', hshipped', hcreated', hdisposed'⟩ :=
      relay_rest (s := s) (e := e) ev
    rw [List.foldl_cons, hother, hself, hhalf, hpeer, hshipped, hcreated, hdisposed]
    refine ⟨?_, ?_, hhalf', hpeer', hshipped', hcreated', hdisposed'⟩
    · rw [relay_station.2]
      simp [Station.arrive]
    · rw [relay_station.1, List.any_cons]
      cases ev.isClose <;> cases l.any Event.isClose <;> rfl

theorem hasClose_iff_any (l : List (Event α)) : HasClose l ↔ l.any Event.isClose = true := by
  rw [HasClose, List.any_eq_true]

/-- What shipping leaves of a half. -/
theorem half_acceptAll (h : Wired w s) (hshipped : s.shipped = false) :
    s.half.acceptAll.accepted = true ∧ s.half.acceptAll.eventQueue = [] ∧
      s.half.acceptAll.readyState ≠ .closing ∧
      (s.half.acceptAll.readyState = .closed → s.half.readyState = .closed) ∧
      (s.half.acceptAll.readyState ≠ .closed → s.half.acceptAll.readyState = .opened) := by
  have haccepted : ¬ s.half.accepted = true := by simp [h.halfAccepted, hshipped]
  obtain ⟨hclosed, hcalm, hopened⟩ := Socket.accept_readyState (y := s.half)
  rw [Socket.acceptAll, if_neg haccepted]
  exact ⟨rfl, rfl, hcalm, hclosed.mp, fun hnot => hopened fun heq => hnot (hclosed.mpr heq)⟩

/-- **A half is shipped.** -/
theorem refines_ship (h : Wired w s) (hship : s.ship w = some s') :
    Wired w s' ∧ Follows w s s' := by
  unfold ship at hship
  split at hship
  · cases hship
  · next hguard =>
      obtain rfl := Option.some.inj hship
      simp only [Bool.or_eq_true, Bool.and_eq_true, decide_eq_true_eq, not_or, not_and,
        Bool.not_eq_true] at hguard
      obtain ⟨hshipped, hdisposed⟩ := hguard
      obtain ⟨hcreated, hempty⟩ := h.unshipped hshipped
      obtain ⟨haccepted, hqueue, hcalm, hclosed, hopened⟩ := half_acceptAll h hshipped
      obtain ⟨hother, hself, hhalf, hpeer, hyes, hcreated', hdisposed'⟩ :=
        relays (e := w.origin) (s := { s.modify w.origin (fun x => { x with entry := true }) with
          half := s.half.acceptAll, shipped := true }) s.half.eventQueue
      generalize s.half.eventQueue.foldl (·.relay w.origin ·)
        { s.modify w.origin (fun x => { x with entry := true }) with
          half := s.half.acceptAll, shipped := true } = t at *
      have hother : t.station w.origin.other = { s.station w.origin.other with
          incoming := (s.station w.origin.other).incoming ++ s.half.eventQueue } := by
        rw [hother]
        simp
      have hself : t.station w.origin = if s.half.eventQueue.any Event.isClose then
          ({ s.station w.origin with entry := true } : Station α).forget else
            { s.station w.origin with entry := true } := by
        rw [hself]
        simp
      have huser : (t.station w.origin).user = (s.station w.origin).user ∧
          (t.station w.origin).posted = (s.station w.origin).posted ∧
          (t.station w.origin).left = (s.station w.origin).left ∧
          (t.station w.origin).pending = [] ∧ (t.station w.origin).incoming = [] := by
        rw [hself]
        split
        · exact ⟨rfl, rfl, rfl, rfl, (hempty _).1⟩
        · exact ⟨rfl, rfl, rfl, (hempty _).2, (hempty _).1⟩
      have hentry : (t.station w.origin).entry = true ↔
          (s.station w.origin).user.readyState ≠ .closed := by
        rw [hself, Ne, ← h.halfClose hshipped, hasClose_iff_any]
        cases s.half.eventQueue.any Event.isClose <;> simp [Station.forget]
      have hfarEntry : (s.station w.origin.other).entry ≠ true := fun hentry => by
        have hat := (h.entry _ hentry).1
        rw [attached_far, hcreated] at hat
        cases hat
      constructor
      · refine ⟨?_, ?_, ?_, ?_, ?_, ?_, ?_, ?_, ?_, ?_, ?_, ?_, ?_⟩
        · refine (End.forall_iff w.origin).mpr ⟨?_, ?_⟩
          · rw [huser.1]
            exact h.settled _
          · rw [hother]
            exact h.settled _
        · rw [hhalf]
          exact hcalm
        · rw [hhalf, hyes]
          exact haccepted
        · rw [hhalf]
          exact fun _ => hqueue
        · rw [hhalf, huser.1]
          exact fun hready => h.halfClosed (hclosed hready)
        · rw [hhalf]
          exact fun _ => hopened
        · exact fun hnot => by cases hnot.symm.trans hyes
        · rw [hother, hpeer]
          exact h.peer
        · refine (End.forall_iff w.origin).mpr ⟨?_, ?_⟩
          · rw [huser.1]
            exact fun _ hnot => hentry.mpr hnot
          · rw [attached_far, hcreated']
            exact fun hat => by cases hcreated.symm.trans hat
        · refine (End.forall_iff w.origin).mpr ⟨?_, ?_⟩
          · intro hhas
            rw [attached_origin, huser.1]
            exact ⟨hyes, hentry.mp hhas, huser.2.2.2.1⟩
          · rw [hother]
            exact fun hhas => absurd hhas hfarEntry
        · rw [hother]
          exact fun _ => h.uncreated hcreated
        · exact fun hnot => by cases hnot.symm.trans hyes
        · intro hdis hat
          rw [hdisposed'] at hdis
          cases w with
          | fromGuest =>
            have hat : t.created = true := (attached_far (w := .fromGuest)).mp hat
            rw [hcreated'] at hat
            cases hcreated.symm.trans hat
          | fromHost => cases (hdisposed rfl).symm.trans hdis
      · refine Follows.stay (funext ((End.forall_iff w.origin).mpr ⟨?_, ?_⟩))
        · refine line_same huser.1 huser.2.1 huser.2.2.1 (deaf_congr hdisposed') fun _ _ => ?_
          rw [way, way, huser.2.2.2.1, huser.2.2.2.2, (hempty _).1, (hempty _).2, fromHalf,
            fromHalf, if_pos rfl, if_pos rfl]
        · refine line_same ?_ ?_ ?_ (deaf_congr hdisposed') fun _ _ => ?_
          · rw [hother]
          · rw [hother]
          · rw [hother]
          · rw [way, way, hother, fromHalf, fromHalf, if_neg w.origin.other_ne,
              if_neg w.origin.other_ne, hhalf]
            simp [hqueue]

/-! ### Building the other socket -/

/-- Events that are delivered to a socket that has not been accepted. -/
theorem delivers {l : List (Event α)} (haccepted : x.user.accepted = false)
    (hentry : x.entry = true) (hlast : ClosesLast l) (hpending : x.pending = []) :
    l.foldl Station.deliver x =
      (let y := { x with user := { x.user with eventQueue := x.user.eventQueue ++ l } }
      if l.any Event.isClose then { y with user := y.user.setReady .closed }.forget else y) := by
  induction l generalizing x with
  | nil => simp
  | cons ev l ih =>
    have hne : ¬ x.user.accepted = true := by simp [haccepted]
    rw [List.foldl_cons]
    cases hev : ev.isClose with
    | true =>
      obtain rfl := eq_nil_of_closesLast (l := []) hlast hev
      rw [Station.deliver, if_pos hentry, if_pos hev]
      simp [Socket.shut, Socket.dispatchOrQueue, Socket.setReady, Socket.enqueue, haccepted,
        hev, Station.forget]
    | false =>
      have hdeliver : x.deliver ev =
          { x with user := { x.user with eventQueue := x.user.eventQueue ++ [ev] } } := by
        rw [Station.deliver, if_pos hentry, if_neg (by simp [hev]), Socket.dispatchOrQueue,
          if_neg hne]
        rfl
      rw [hdeliver]
      have hrest : ClosesLast l := by
        intro ev' hev'
        refine hlast ev' ?_
        rw [List.dropLast_cons_of_ne_nil (by rintro rfl; cases hev')]
        exact List.mem_cons_of_mem _ hev'
      refine (ih (x := { x with
        user := { x.user with eventQueue := x.user.eventQueue ++ [ev] } })
        haccepted hentry hrest hpending).trans ?_
      simp [hev]

/-- Both threads build their socket in the same way. -/
theorem createBridgedSocket_eq (haccepted : x.user.accepted = false)
    (hlast : ClosesLast x.pending) : x.createBridgedSocket = x.register := by
  rw [Station.createBridgedSocket, delivers (x := { x with entry := true, pending := [] })
    haccepted rfl hlast rfl]
  rfl

theorem build_eq (haccepted : x.user.accepted = false) (hlast : ClosesLast x.pending) :
    Station.build w x = x.register := by
  cases w with
  | fromGuest => rfl
  | fromHost => exact createBridgedSocket_eq haccepted hlast

/-- A socket with the events that were pending. -/
theorem register_fields (huser : x.user = {}) :
    x.register.user.Settled ∧ x.register.user.heard = x.pending ∧ x.register.pending = [] ∧
      x.register.incoming = x.incoming ∧ x.register.posted = x.posted ∧
      x.register.left = x.left ∧
      (x.register.entry = true ↔ x.register.user.readyState ≠ .closed) ∧
      (x.register.user.readyState = .closed ↔ x.pending.any Event.isClose = true) := by
  unfold Station.register
  rw [huser]
  cases x.pending.any Event.isClose with
  | true =>
    refine ⟨⟨fun hfalse => (by cases hfalse), fun hfalse => (by cases hfalse),
      fun _ => rfl⟩, rfl, rfl, rfl, rfl, rfl, ?_, iff_of_true rfl rfl⟩
    exact iff_of_false (fun hfalse => by cases hfalse) fun hnot => hnot rfl
  | false =>
    refine ⟨⟨fun hfalse => (by cases hfalse), fun hfalse => (by cases hfalse),
      fun _ => rfl⟩, rfl, rfl, rfl, rfl, rfl, ?_, ?_⟩
    · exact iff_of_true rfl fun hfalse => by cases hfalse
    · exact iff_of_false (fun hfalse => by cases hfalse) Bool.false_ne_true

theorem wired_create (h : Wired w s) (hcreated : s.created = false) (hshipped : s.shipped = true)
    (hdisposed : w = .fromGuest → s.disposed = false)
    (hbuild : Station.build w (s.station w.origin.other) =
      (s.station w.origin.other).register) :
    Wired w { s.modify w.origin.other (Station.build w) with created := true } := by
  obtain ⟨hsettled, -, hpending, -, -, -, hentry, -⟩ := register_fields (h.uncreated hcreated).1
  have hready : (s.station w.origin.other).user.readyState ≠ .closed := by
    rw [(h.uncreated hcreated).1]
    exact fun hfalse => by cases hfalse
  have hfar : (s.modify w.origin.other (Station.build w)).station w.origin.other =
      (s.station w.origin.other).register := by
    rw [modify_self, hbuild]
  have horigin : (s.modify w.origin.other (Station.build w)).station w.origin =
      s.station w.origin := modify_other_self ..
  refine ⟨?_, h.halfCalm, h.halfAccepted, h.halfQueue, ?_, h.halfOpened, ?_, ?_, ?_, ?_, ?_, ?_,
    ?_⟩
  · refine (End.forall_iff w.origin).mpr ⟨?_, ?_⟩
    · exact horigin ▸ h.settled _
    · exact hfar ▸ hsettled
  · intro hhalf
    exact horigin ▸ h.halfClosed hhalf
  · exact fun hnot => by cases hnot.symm.trans hshipped
  · exact fun _ => h.peer hready
  · refine (End.forall_iff w.origin).mpr ⟨fun _ hnot => ?_, fun _ hnot => ?_⟩
    · have hnot : ((s.modify w.origin.other (Station.build w)).station w.origin).user.readyState ≠
          .closed := hnot
      rw [horigin] at hnot
      exact horigin ▸ h.entryOpen _ (attached_origin.mpr hshipped) hnot
    · have hnot : ((s.modify w.origin.other
          (Station.build w)).station w.origin.other).user.readyState ≠ .closed := hnot
      rw [hfar] at hnot
      exact hfar ▸ hentry.mpr hnot
  · refine (End.forall_iff w.origin).mpr ⟨fun hhas => ?_, fun hhas => ?_⟩
    · have hhas : ((s.modify w.origin.other (Station.build w)).station w.origin).entry = true :=
        hhas
      rw [horigin] at hhas
      rw [attached_origin]
      exact ⟨hshipped, horigin ▸ (h.entry _ hhas).2⟩
    · have hhas : ((s.modify w.origin.other
          (Station.build w)).station w.origin.other).entry = true := hhas
      rw [hfar] at hhas
      rw [attached_far]
      exact ⟨rfl, hfar ▸ ⟨hentry.mp hhas, hpending⟩⟩
  · exact fun hnot => by cases hnot
  · exact fun hnot => by cases hnot.symm.trans hshipped
  · intro hdis _
    cases w with
    | fromGuest => cases (hdisposed rfl).symm.trans hdis
    | fromHost => exact horigin ▸ h.disposed hdis (attached_origin.mpr hshipped)

/-- An end whose socket is built. -/
theorem line_hearAll {p rest : List (Event α)} (hready : (s.station e).user.readyState ≠ .closed)
    (hdeaf : ¬ s.Deaf e) (hempty : (s.station e).user.heard = [])
    (hheard : (s'.station e).user.heard = p)
    (hclosed : (s'.station e).user.readyState = .closed ↔ p.any Event.isClose = true)
    (hposted : (s'.station e).posted = (s.station e).posted)
    (hleft : (s'.station e).left = (s.station e).left) (hdisposed : s'.disposed = s.disposed)
    (hway : s'.way w e = rest) : s'.line w e = (s.line w e).hearAll p rest := by
  have hdeaf' : ¬ s'.Deaf e := by
    rw [Deaf, hdisposed]
    exact hdeaf
  rw [line_apply, line_apply, Terminal.hearAll]
  simp only [hheard, hclosed, hposted, hleft, hdeaf', hway, hdeaf, hready, hempty, or_false,
    List.nil_append, decide_false, Bool.false_or, Bool.decide_eq_true]

/-- **The other thread builds its socket.** -/
theorem refines_create (h : Wired w s) (hexact : Exact (s.line w)) (hcreate : s.create w = some s') :
    Wired w s' ∧ Follows w s s' := by
  unfold create at hcreate
  split at hcreate
  · cases hcreate
  · next hguard =>
      simp only [Bool.or_eq_true, Bool.and_eq_true, decide_eq_true_eq, not_or, not_and,
        Bool.not_eq_true, Bool.not_eq_true', Bool.not_eq_false] at hguard
      obtain ⟨⟨hcreated, hshipped⟩, hdisposed⟩ := hguard
      obtain ⟨huser, -⟩ := h.uncreated hcreated
      have hdeaf : ¬ s.Deaf w.origin.other := by
        rintro ⟨heq, hyes⟩
        cases w with
        | fromGuest => cases (hdisposed rfl).symm.trans hyes
        | fromHost => cases heq
      have hready : (s.station w.origin.other).user.readyState ≠ .closed := by
        rw [huser]
        exact fun hfalse => by cases hfalse
      have honWay : (s.line w w.origin.other).onWay = (s.station w.origin.other).pending ++
          ((s.station w.origin.other).incoming ++ s.fromHalf w w.origin.other) := by
        rw [line_apply, ← List.append_assoc]
        exact if_neg (not_or.mpr ⟨hready, hdeaf⟩)
      have hheard : (s.line w w.origin.other).heard = [] := by
        rw [line_apply, huser]
        rfl
      have hflow := hexact.flow w.origin.other (by simp [line, hready]) (by simp [line, hdeaf])
      rw [hheard, honWay, List.nil_append] at hflow
      have hlast : ClosesLast (s.station w.origin.other).pending :=
        (hexact.postedLast w.origin.other.other).prefixed ⟨_, hflow⟩
      have hbuild := build_eq (w := w) (by rw [huser]) hlast
      obtain rfl := Option.some.inj hcreate
      refine ⟨wired_create h hcreated hshipped hdisposed hbuild, ?_⟩
      obtain ⟨bs, hplay⟩ := exists_play_hearAll hexact honWay
      obtain ⟨-, hheard', hpending', hincoming', hposted', hleft', -, hclosed'⟩ :=
        register_fields huser
      refine ⟨bs, hplay.trans (congrArg some (funext
        ((End.forall_iff w.origin.other).mpr ⟨?_, ?_⟩)))⟩
      · rw [Duplex.modify_self]
        symm
        have hfar : ({ s.modify w.origin.other (Station.build w) with
            created := true } : Bridge α).station w.origin.other =
              (s.station w.origin.other).register :=
          (modify_self ..).trans hbuild
        refine line_hearAll hready hdeaf (by rw [huser]; rfl) ?_ ?_ ?_ ?_ rfl ?_
        · rw [hfar, hheard']
        · rw [hfar, hclosed']
        · rw [hfar, hposted']
        · rw [hfar, hleft']
        · rw [way, hfar, hpending', hincoming']
          rfl
      · rw [Duplex.modify_other, End.other_other]
        symm
        have horigin : ({ s.modify w.origin.other (Station.build w) with
            created := true } : Bridge α).station w.origin = s.station w.origin :=
          modify_other_self ..
        refine line_same ?_ ?_ ?_ Iff.rfl fun _ _ => ?_
        · rw [horigin]
        · rw [horigin]
        · rw [horigin]
        · rw [way, way, horigin, fromHalf, fromHalf, if_pos rfl, if_pos rfl]

/-! ### Delivering -/

/-- Steps that close a wired socket. -/
theorem Wired.of_shut (h : Wired w s) (hat : s.Attached w e)
    (hself : (s'.station e).user.Settled ∧ (s'.station e).user.readyState = .closed ∧
      (s'.station e).entry = false)
    (hother : (s'.station e.other).user = (s.station e.other).user ∧
      (s'.station e.other).entry = (s.station e.other).entry ∧
      (s'.station e.other).pending = (s.station e.other).pending ∧
      (s'.station e.other).forgotten = (s.station e.other).forgotten)
    (hhalf : s'.half = s.half ∨ (e = w.origin ∧ s'.half = s.half.setReady .closed))
    (hrest : s'.peerReady = s.peerReady ∧ s'.shipped = s.shipped ∧ s'.created = s.created)
    (hdisposed : s'.disposed = s.disposed ∨ e = .host) : Wired w s' := by
  obtain ⟨hsettled, hclosed, hentry⟩ := hself
  obtain ⟨huser, hotherEntry, hpending, hforgotten⟩ := hother
  obtain ⟨hpeer, hshipped, hcreated⟩ := hrest
  have hattached : ∀ x, s'.Attached w x ↔ s.Attached w x := by
    intro x
    rw [Attached, Attached, hshipped, hcreated]
  have hyes : s.shipped = true := by
    unfold Attached at hat
    split at hat
    · exact hat
    · by_contra hnot
      cases (h.unshipped (Bool.not_eq_true _ ▸ hnot)).1.symm.trans hat
  have hready : ∀ x, (s.station x).user.readyState = .closed →
      (s'.station x).user.readyState = .closed := by
    refine (End.forall_iff e).mpr ⟨fun _ => hclosed, ?_⟩
    rw [huser]
    exact id
  refine ⟨?_, ?_, ?_, ?_, ?_, ?_, ?_, ?_, ?_, ?_, ?_, ?_, ?_⟩
  · refine (End.forall_iff e).mpr ⟨hsettled, ?_⟩
    rw [huser]
    exact h.settled e.other
  · rcases hhalf with hhalf | ⟨-, hhalf⟩ <;> rw [hhalf]
    · exact h.halfCalm
    · exact fun hfalse => by cases hfalse
  · rw [hshipped]
    rcases hhalf with hhalf | ⟨-, hhalf⟩ <;> rw [hhalf] <;> exact h.halfAccepted
  · intro _
    rcases hhalf with hhalf | ⟨-, hhalf⟩ <;> rw [hhalf] <;> exact h.halfQueue hyes
  · intro hhalfClosed
    rcases hhalf with hhalf | ⟨horigin, -⟩
    · rw [hhalf] at hhalfClosed
      exact hready _ (h.halfClosed hhalfClosed)
    · exact horigin ▸ hclosed
  · intro _ hnot
    rcases hhalf with hhalf | ⟨-, hhalf⟩ <;> rw [hhalf] at hnot ⊢
    · exact h.halfOpened hyes hnot
    · exact absurd rfl hnot
  · rw [hshipped]
    exact fun hnot => by cases hnot.symm.trans hyes
  · rw [hpeer]
    exact fun hnot => h.peer fun heq => hnot (hready _ heq)
  · refine (End.forall_iff e).mpr ⟨fun _ hnot => absurd hclosed hnot, ?_⟩
    rw [hattached, huser, hotherEntry]
    exact h.entryOpen e.other
  · refine (End.forall_iff e).mpr ⟨fun hhas => (by cases hentry.symm.trans hhas), ?_⟩
    rw [hattached, huser, hotherEntry, hpending]
    exact h.entry e.other
  · rw [hcreated]
    intro hnot
    rcases End.eq_or_eq_other w.origin.other e with heq | heq
    · rw [← heq, attached_far, hnot] at hat
      cases hat
    · rw [heq, huser, hforgotten, ← heq]
      exact h.uncreated hnot
  · rw [hshipped]
    exact fun hnot => by cases hnot.symm.trans hyes
  · rw [hattached]
    intro hdis hhost
    rcases hdisposed with hdisposed | rfl
    · exact hready _ (h.disposed (hdisposed.symm.trans hdis) hhost)
    · exact hclosed

/-- A wired socket hears the next event that was posted to it. -/
theorem line_hear {rest : List (Event α)} (h : Wired w s) (hat : s.Attached w e)
    (hready : (s.station e).user.readyState ≠ .closed) (hdeaf : ¬ s.Deaf e)
    (hincoming : (s.station e).incoming = ev :: rest) :
    (s.line w e).onWay = ev :: (rest ++ s.fromHalf w e) := by
  have hpending := (h.entry e (h.entryOpen e hat hready)).2.2
  have hway : (s.line w e).onWay = s.way w e := if_neg (not_or.mpr ⟨hready, hdeaf⟩)
  rw [hway, way, hpending, hincoming]
  rfl

theorem follows_hear (hself : ∃ x, (s.line w e).hear = some x ∧ s'.line w e = x)
    (hother : s'.line w e.other = s.line w e.other) : Follows w s s' := by
  obtain ⟨x, hhear, hline⟩ := hself
  refine Follows.one (b := .hear e) ?_
  rw [Duplex.step, hhear]
  refine congrArg some (funext ((End.forall_iff e).mpr ⟨?_, ?_⟩))
  · show (s.line w).modify e (fun _ => x) e = _
    rw [Duplex.modify_self, hline]
  · show (s.line w).modify e (fun _ => x) e.other = _
    rw [Duplex.modify_other, hother]

/-- An end hears a message. -/
theorem line_message {rest : List (Event α)} (h : (s.station e).user.Settled)
    (hev : ev.isClose = false) (honWay : (s.line w e).onWay = ev :: rest)
    (huser : (s'.station e).user = (s.station e).user.dispatchOrQueue ev)
    (hposted : (s'.station e).posted = (s.station e).posted)
    (hleft : (s'.station e).left = (s.station e).left) (hdeaf : s'.Deaf e ↔ s.Deaf e)
    (hway : s'.way w e = rest) : ∃ x, (s.line w e).hear = some x ∧ s'.line w e = x := by
  obtain ⟨-, hheard⟩ := h.dispatchOrQueue ev
  have hready := Socket.dispatchOrQueue_readyState (y := (s.station e).user) ev
  refine ⟨_, ?_, rfl⟩
  rw [Terminal.hear, honWay]
  dsimp only
  rw [if_neg (by simp [hev])]
  refine congrArg some ?_
  have hreach : ¬ ((s.station e).user.readyState = .closed ∨ s.Deaf e) := fun hor => by
    rw [line_apply] at honWay
    cases honWay.symm.trans (if_pos hor)
  rw [line_apply, line_apply]
  simp only [huser, hheard, hready, hposted, hleft, hdeaf, hway, hreach, if_false]

/-- An end hears a close event. -/
theorem line_close {rest : List (Event α)} (h : (s.station e).user.Settled)
    (hev : ev.isClose = true) (honWay : (s.line w e).onWay = ev :: rest)
    (huser : (s'.station e).user = (s.station e).user.shut ev)
    (hposted : (s'.station e).posted = (s.station e).posted)
    (hleft : (s'.station e).left = (s.station e).left) (hdeaf : s'.Deaf e ↔ s.Deaf e) :
    ∃ x, (s.line w e).hear = some x ∧ s'.line w e = x := by
  have hline : s'.line w e = { (s.line w e).finish ev false false with
      posted := (s'.station e).posted } :=
    line_finish h huser (by rw [hleft, Bool.or_false]) (by rw [hdeaf]; simp)
  refine ⟨_, ?_, rfl⟩
  rw [Terminal.hear, honWay]
  dsimp only
  rw [if_pos hev, hline, hposted]
  rfl

/-- What arrives for nobody, or is kept for a socket that is not built yet. -/
theorem refines_unheard (h : Wired w s) {rest : List (Event α)}
    (hincoming : (s.station e).incoming = ev :: rest)
    (hself : (s'.station e).user = (s.station e).user ∧
      (s'.station e).entry = (s.station e).entry ∧
      ((s.station e).entry = true → (s'.station e).pending = (s.station e).pending) ∧
      (s'.station e).forgotten = (s.station e).forgotten ∧
      (s'.station e).posted = (s.station e).posted ∧ (s'.station e).left = (s.station e).left)
    (hother : s'.station e.other = s.station e.other)
    (hrest : s'.half = s.half ∧ s'.peerReady = s.peerReady ∧ s'.shipped = s.shipped ∧
      s'.created = s.created ∧ s'.disposed = s.disposed)
    (hway : (s.station e).user.readyState ≠ .closed → ¬ s.Deaf e → s'.way w e = s.way w e) :
    Wired w s' ∧ Follows w s s' := by
  obtain ⟨huser, hentry, hpending, hforgotten, hposted, hleft⟩ := hself
  obtain ⟨hhalf, hpeer, hshipped, hcreated, hdisposed⟩ := hrest
  have hunshipped : s.shipped = false → False := fun hnot => by
    cases hincoming.symm.trans ((h.unshipped hnot).2 e).1
  constructor
  · refine h.of_stations ?_ ?_ ?_ (fun hnot => (hunshipped hnot).elim)
      ⟨by rw [hhalf], by rw [hhalf], hpeer, hshipped, hcreated⟩
      (fun hyes => h.disposed (hdisposed.symm.trans hyes))
      ⟨fun _ => by rw [hhalf], fun _ => by rw [hhalf]⟩
    · refine (End.forall_iff e).mpr ⟨?_, ?_⟩
      · rw [huser]
        exact h.settled e
      · rw [hother]
        exact h.settled e.other
    · refine (End.forall_iff e).mpr ⟨?_, ?_⟩
      · rw [huser]
        exact ⟨Iff.rfl, hentry, hpending⟩
      · rw [hother]
        exact ⟨Iff.rfl, rfl, fun _ => rfl⟩
    · intro _
      rcases End.eq_or_eq_other w.origin.other e with heq | heq
      · rw [heq]
        exact ⟨huser, hforgotten⟩
      · rw [heq, hother]
        exact ⟨rfl, rfl⟩
  · refine Follows.stay (funext ((End.forall_iff e).mpr ⟨?_, ?_⟩))
    · exact line_same huser hposted hleft (deaf_congr hdisposed) hway
    · refine line_same ?_ ?_ ?_ (deaf_congr hdisposed) fun _ _ => ?_
      · rw [hother]
      · rw [hother]
      · rw [hother]
      · rw [way, way, hother, fromHalf, fromHalf, hhalf]

/-- A message that reaches a wired socket. -/
theorem refines_message (h : Wired w s) {rest : List (Event α)} (hentry : (s.station e).entry = true)
    (hincoming : (s.station e).incoming = ev :: rest) (hev : ev.isClose = false) :
    Wired w (s.modify e fun x =>
        { x with user := x.user.dispatchOrQueue ev, incoming := rest }) ∧
      Follows w s (s.modify e fun x =>
        { x with user := x.user.dispatchOrQueue ev, incoming := rest }) := by
  obtain ⟨hat, hopen, hpending⟩ := h.entry e hentry
  have hdeaf : ¬ s.Deaf e := by
    rintro ⟨rfl, hyes⟩
    exact hopen (h.disposed hyes hat)
  obtain ⟨hsettled, -⟩ := (h.settled e).dispatchOrQueue ev
  have hready := Socket.dispatchOrQueue_readyState (y := (s.station e).user) ev
  have hunshipped : s.shipped = false → False := fun hnot => by
    cases hincoming.symm.trans ((h.unshipped hnot).2 e).1
  constructor
  · refine h.of_stations ?_ ?_ ?_ (fun hnot => (hunshipped hnot).elim) ⟨rfl, rfl, rfl, rfl, rfl⟩
      h.disposed ⟨fun _ => rfl, fun _ => Iff.rfl⟩
    · refine (End.forall_iff e).mpr ⟨?_, ?_⟩
      · rw [modify_self]
        exact hsettled
      · rw [modify_other]
        exact h.settled e.other
    · refine (End.forall_iff e).mpr ⟨?_, ?_⟩
      · rw [modify_self]
        exact ⟨by rw [hready], rfl, fun _ => rfl⟩
      · rw [modify_other]
        exact ⟨Iff.rfl, rfl, fun _ => rfl⟩
    · intro hnot
      rcases End.eq_or_eq_other w.origin.other e with heq | heq
      · rw [← heq, attached_far, hnot] at hat
        cases hat
      · rw [heq, modify_other]
        exact ⟨rfl, rfl⟩
  · refine follows_hear (e := e) ?_ ?_
    · refine line_message (h.settled e) hev (line_hear h hat hopen hdeaf hincoming) ?_ ?_ ?_ Iff.rfl
        ?_
      · rw [modify_self]
      · rw [modify_self]
      · rw [modify_self]
      · rw [way, modify_self, hpending]
        rfl
    · refine line_same ?_ ?_ ?_ Iff.rfl fun _ _ => ?_
      all_goals first | rw [way] | skip
      all_goals rw [modify_other]
      rfl

/-- A close event that reaches a wired socket. -/
theorem refines_shut (h : Wired w s) {rest : List (Event α)} (hentry : (s.station e).entry = true)
    (hincoming : (s.station e).incoming = ev :: rest) (hev : ev.isClose = true)
    (hself : (s'.station e).user = (s.station e).user.shut ev ∧ (s'.station e).entry = false ∧
      (s'.station e).posted = (s.station e).posted ∧ (s'.station e).left = (s.station e).left)
    (hother : (s'.station e.other).user = (s.station e.other).user ∧
      (s'.station e.other).entry = (s.station e.other).entry ∧
      (s'.station e.other).pending = (s.station e.other).pending ∧
      (s'.station e.other).forgotten = (s.station e.other).forgotten ∧
      (s'.station e.other).posted = (s.station e.other).posted ∧
      (s'.station e.other).left = (s.station e.other).left)
    (hway : (s.station e.other).user.readyState ≠ .closed →
      s'.way w e.other = s.way w e.other)
    (hhalf : s'.half = s.half ∨ (e = w.origin ∧ s'.half = s.half.setReady .closed))
    (hrest : s'.peerReady = s.peerReady ∧ s'.shipped = s.shipped ∧ s'.created = s.created ∧
      s'.disposed = s.disposed) : Wired w s' ∧ Follows w s s' := by
  obtain ⟨hat, hopen, -⟩ := h.entry e hentry
  obtain ⟨huser, hnone, hposted, hleft⟩ := hself
  obtain ⟨hpeer, hshipped, hcreated, hdisposed⟩ := hrest
  obtain ⟨huser', hentry', hpending', hforgotten', hposted', hleft'⟩ := hother
  have hdeaf : ¬ s.Deaf e := by
    rintro ⟨rfl, hyes⟩
    exact hopen (h.disposed hyes hat)
  obtain ⟨hsettled, -, hclosed⟩ := (h.settled e).shut ev
  constructor
  · refine h.of_shut hat ⟨?_, ?_, hnone⟩ ⟨huser', hentry', hpending', hforgotten'⟩ hhalf
      ⟨hpeer, hshipped, hcreated⟩ (.inl hdisposed)
    · rw [huser]
      exact hsettled
    · rw [huser]
      exact hclosed
  · refine follows_hear (e := e) ?_ ?_
    · exact line_close (h.settled e) hev (line_hear h hat hopen hdeaf hincoming) huser hposted hleft
        (deaf_congr hdisposed)
    · exact line_same huser' hposted' hleft' (deaf_congr hdisposed) fun hopen' _ => hway hopen'

/-- What arrives before the socket is built is kept for it; afterwards it reaches nobody. -/
theorem refines_bufferPending (h : Wired w s) {rest : List (Event α)}
    (hentry : ¬ (s.station e).entry = true) (hincoming : (s.station e).incoming = ev :: rest) :
    Wired w (s.modify e fun x => ({ x with incoming := rest } : Station α).bufferPending ev) ∧
      Follows w s
        (s.modify e fun x => ({ x with incoming := rest } : Station α).bufferPending ev) := by
  refine refines_unheard h hincoming ?_ (by rw [modify_other]) ⟨rfl, rfl, rfl, rfl, rfl⟩ ?_
  · rw [modify_self, Station.bufferPending]
    split
    · exact ⟨rfl, rfl, fun _ => rfl, rfl, rfl, rfl⟩
    · exact ⟨rfl, rfl, fun hyes => absurd hyes hentry, rfl, rfl, rfl⟩
  · intro hopen _
    have hat : ¬ s.Attached w e := fun hat => hentry (h.entryOpen e hat hopen)
    have hshipped : s.shipped = true := by
      by_contra hnot
      cases hincoming.symm.trans ((h.unshipped (Bool.not_eq_true _ ▸ hnot)).2 e).1
    have hforgotten : (s.station e).forgotten = false := by
      rcases End.eq_or_eq_other e w.origin with rfl | rfl
      · exact absurd (attached_origin.mpr hshipped) hat
      · rw [attached_far] at hat
        exact (h.uncreated (Bool.not_eq_true _ ▸ hat)).2
    rw [way, way, modify_self, Station.bufferPending, if_neg (by simp [hforgotten]), hincoming]
    simp only [List.append_assoc, List.singleton_append]
    rfl

variable (ev) in
theorem closeAdopted_station (hhalf : ¬ s.half.Over) (huser : ¬ (s.station .host).user.Over)
    (hev : ev.isClose = true) :
    (s.closeAdopted ev).station .host =
        ({ s.station .host with user := (s.station .host).user.shut ev } : Station α).forget ∧
      (s.closeAdopted ev).station .guest = (s.station .guest).arrive ev := by
  rw [closeAdopted, if_neg hhalf]
  constructor
  · rw [relay_station.1, if_pos hev]
    refine congrArg Station.forget ?_
    show (s.modify .host fun x =>
      if x.user.Over then x else { x with user := x.user.shut ev }).station .host = _
    rw [modify_self, if_neg huser]
  · refine (relay_station (e := .host)).2.trans (congrArg (Station.arrive · ev) ?_)
    show (s.modify .host fun x =>
      if x.user.Over then x else { x with user := x.user.shut ev }).station .guest = _
    exact modify_guest ..

variable (ev) in
theorem closeAdopted_rest (hhalf : ¬ s.half.Over) :
    (s.closeAdopted ev).half = s.half.setReady .closed ∧
      (s.closeAdopted ev).peerReady = s.peerReady ∧ (s.closeAdopted ev).shipped = s.shipped ∧
      (s.closeAdopted ev).created = s.created ∧ (s.closeAdopted ev).disposed = s.disposed := by
  rw [closeAdopted, if_neg hhalf]
  exact relay_rest _

/-- The close event of an adopted half goes back to the end that has posted it. -/
theorem refines_closeAdopted (h : Wired .fromHost s) (hexact : Exact (s.line .fromHost))
    {rest : List (Event α)} (hentry : (s.station .host).entry = true)
    (hincoming : (s.station .host).incoming = ev :: rest) (hev : ev.isClose = true)
    (hs' : s' = ((s.modify .host fun x => { x with incoming := rest }).closeAdopted ev).modify
      .host (·.forget)) : Wired .fromHost s' ∧ Follows .fromHost s s' := by
  obtain ⟨hat, hopen, -⟩ := h.entry .host hentry
  have hover : ¬ (s.station .host).user.Over :=
    fun hor => hor.elim hopen (h.settled .host).calm
  have hhalf : ¬ s.half.Over :=
    fun hor => hor.elim (fun hclosed => hopen (h.halfClosed hclosed)) h.halfCalm
  have hdeaf : ¬ s.Deaf .host := fun hdeaf => hopen (h.disposed hdeaf.2 hat)
  -- The other end is closed: it has posted a close event.
  have hguest : (s.station .guest).user.readyState = .closed := by
    have honWay := line_hear h hat hopen hdeaf hincoming
    have hflow := hexact.flow .host (by simp [line, hopen]) (by simp [line, hdeaf])
    refine of_decide_eq_true (hexact.ceased .guest ?_)
    have hflow : _ = (s.line .fromHost .guest).posted := hflow
    rw [← hflow, hasClose_append, honWay]
    exact .inr ⟨ev, List.mem_cons_self, hev⟩
  have hpop : (s.modify .host fun x => { x with incoming := rest }).station .host =
      { s.station .host with incoming := rest } := modify_self ..
  obtain ⟨hhost, hguest'⟩ := closeAdopted_station ev
    (s := s.modify .host fun x => { x with incoming := rest }) hhalf (by rw [hpop]; exact hover) hev
  obtain ⟨hhalf', hrest⟩ := closeAdopted_rest
    ev (s := s.modify .host fun x => { x with incoming := rest }) hhalf
  have hself : s'.station .host = (({ s.station .host with
      user := (s.station .host).user.shut ev, incoming := rest } : Station α).forget).forget := by
    rw [hs', modify_self, hhost, hpop]
  have hother : s'.station End.host.other = (s.station End.host.other).arrive ev := by
    rw [hs', modify_other]
    refine hguest'.trans ?_
    exact congrArg (Station.arrive · ev) (modify_guest ..)
  refine refines_shut h hentry hincoming hev ?_ ?_ ?_ (.inr ⟨rfl, ?_⟩) ?_
  · rw [hself]
    exact ⟨rfl, rfl, rfl, rfl⟩
  · rw [hother]
    exact ⟨rfl, rfl, rfl, rfl, rfl, rfl⟩
  · exact fun hnot => absurd hguest hnot
  · rw [hs']
    exact hhalf'
  · rw [hs']
    exact hrest

theorem modify_modify (f g : Station α → Station α) :
    (s.modify e f).modify e g = s.modify e fun x => g (f x) := by
  simp [Bridge.modify]

/-- A wired socket hears what is delivered to it. -/
theorem refines_plain (h : Wired w s) {rest : List (Event α)}
    (hincoming : (s.station e).incoming = ev :: rest) :
    Wired w ((s.modify e fun x => { x with incoming := rest }).modify e (·.deliver ev)) ∧
      Follows w s ((s.modify e fun x => { x with incoming := rest }).modify e (·.deliver ev)) := by
  rw [modify_modify]
  by_cases hentry : (s.station e).entry = true
  · cases hev : ev.isClose with
    | true =>
      have hself : ∀ x : Station α, x.entry = true →
          ({ x with incoming := rest } : Station α).deliver ev =
            ({ x with user := x.user.shut ev, incoming := rest } : Station α).forget :=
        fun _ hx => (if_pos hx).trans (if_pos hev)
      refine refines_shut h hentry hincoming hev ?_ ?_ ?_ (.inl rfl) ⟨rfl, rfl, rfl, rfl⟩
      · rw [modify_self, hself _ hentry]
        exact ⟨rfl, rfl, rfl, rfl⟩
      · rw [modify_other]
        exact ⟨rfl, rfl, rfl, rfl, rfl, rfl⟩
      · intro _
        rw [way, modify_other]
        rfl
    | false =>
      have hmodify : (s.modify e fun x => ({ x with incoming := rest } : Station α).deliver ev) =
          s.modify e fun x => { x with user := x.user.dispatchOrQueue ev, incoming := rest } := by
        refine congrArg (fun y => { s with station := Function.update s.station e y }) ?_
        exact (if_pos hentry).trans (if_neg (by simp [hev]))
      rw [hmodify]
      exact refines_message h hentry hincoming hev
  · have hmodify : (s.modify e fun x => ({ x with incoming := rest } : Station α).deliver ev) =
        s.modify e fun x => ({ x with incoming := rest } : Station α).bufferPending ev := by
      refine congrArg (fun y => { s with station := Function.update s.station e y }) ?_
      exact if_neg hentry
    rw [hmodify]
    exact refines_bufferPending h hentry hincoming

/-- **An event is delivered.** -/
theorem refines_deliver (h : Wired w s) (hexact : Exact (s.line w))
    (hdeliver : s.deliver w e = some s') : Wired w s' ∧ Follows w s s' := by
  unfold Bridge.deliver at hdeliver
  split at hdeliver
  · cases hdeliver
  · next ev rest hincoming =>
      obtain rfl := Option.some.inj hdeliver
      split
      · next hdeaf =>
          refine refines_unheard h hincoming ?_ (by rw [modify_other])
            ⟨rfl, rfl, rfl, rfl, rfl⟩ fun _ hnot => absurd hdeaf hnot
          rw [modify_self]
          exact ⟨rfl, rfl, fun _ => rfl, rfl, rfl, rfl⟩
      · split
        · next hadopted =>
            obtain ⟨rfl, rfl⟩ := hadopted
            unfold deliverAdopted
            rw [modify_self]
            split
            · next hentry =>
                obtain ⟨hat, hopen, -⟩ := h.entry .host hentry
                split
                · next hev => exact refines_closeAdopted h hexact hentry hincoming hev rfl
                · next hev =>
                    have hhalf : s.half.readyState = .opened :=
                      h.halfOpened (attached_origin.mp hat)
                        fun hclosed => hopen (h.halfClosed hclosed)
                    rw [if_neg, modify_modify]
                    · exact refines_message h hentry hincoming (Bool.not_eq_true _ ▸ hev)
                    · rintro (hnot | hclosed)
                      · exact hnot hhalf
                      · exact hopen hclosed
            · next hentry =>
                rw [modify_modify]
                exact refines_bufferPending h hentry hincoming
        · exact refines_plain h hincoming

/-! ### Disposing -/

/-- A host that has been disposed of knows no id. -/
def Station.clear (x : Station α) : Station α :=
  { x with entry := false, pending := [], forgotten := false }

/-- The host disposes of its bridge and closes a socket that is wired to it. -/
theorem refines_restart (tells : Bool) (h : Wired w s)
    (hentry : (s.station .host).entry = true)
    (hself : (s'.station .host).user = (s.station .host).user.shut restart ∧
      (s'.station .host).entry = false ∧
      (s'.station .host).posted = (if tells then (s.station .host).posted ++ [restart]
        else (s.station .host).posted) ∧
      (s'.station .host).left = (s.station .host).left)
    (hother : s'.station .guest =
      if tells then (s.station .guest).arrive restart else s.station .guest)
    (hhalf : s'.half = s.half ∨ (End.host = w.origin ∧ s'.half = s.half.setReady .closed))
    (hrest : s'.peerReady = s.peerReady ∧ s'.shipped = s.shipped ∧ s'.created = s.created)
    (hdisposed : s'.disposed = true) : Wired w s' ∧ Follows w s s' := by
  obtain ⟨hat, hopen, -⟩ := h.entry .host hentry
  obtain ⟨huser, hnone, hposted, hleft⟩ := hself
  obtain ⟨hsettled, -, hclosed⟩ := (h.settled .host).shut restart
  have hguest : (s'.station .guest).user = (s.station .guest).user ∧
      (s'.station .guest).entry = (s.station .guest).entry ∧
      (s'.station .guest).pending = (s.station .guest).pending ∧
      (s'.station .guest).forgotten = (s.station .guest).forgotten ∧
      (s'.station .guest).posted = (s.station .guest).posted ∧
      (s'.station .guest).left = (s.station .guest).left := by
    rw [hother]
    split <;> exact ⟨rfl, rfl, rfl, rfl, rfl, rfl⟩
  obtain ⟨huser', hentry', hpending', hforgotten', hposted', hleft'⟩ := hguest
  have hnotDeaf : ∀ t : Bridge α, ¬ t.Deaf .guest := fun _ hdeaf => by cases hdeaf.1
  have hfrom : s.fromHalf w .guest = [] := by
    unfold fromHalf
    split
    · rfl
    · next hne =>
        cases w with
        | fromGuest => exact absurd rfl hne
        | fromHost => exact h.halfQueue (attached_origin.mp hat)
  have hfrom' : s'.fromHalf w .guest = s.fromHalf w .guest := by
    rcases hhalf with hhalf | ⟨-, hhalf⟩ <;> rw [fromHalf, fromHalf, hhalf]
    rfl
  constructor
  · refine h.of_shut hat ⟨?_, ?_, hnone⟩ ⟨huser', hentry', hpending', hforgotten'⟩ hhalf hrest
      (.inr rfl)
    · rw [huser]
      exact hsettled
    · rw [huser]
      exact hclosed
  · refine Follows.one (b := .fail .host (some restart) tells) ?_
    have hstep : (s.line w).step (.fail .host (some restart) tells) =
        some ((s.line w).shut .host restart tells false true) :=
      if_neg (by simp [line, hopen, restart, Event.isClose])
    refine hstep.trans (congrArg some (funext ((End.forall_iff .host).mpr ⟨?_, ?_⟩)))
    · have hline : s'.line w .host = { (s.line w .host).finish restart false true with
          posted := (s'.station .host).posted } := by
        refine line_finish (h.settled .host) huser ?_ ?_
        · rw [hleft, Bool.or_false]
        · exact iff_of_true ⟨rfl, hdisposed⟩ (.inr rfl)
      rw [Duplex.shut_self, hline, hposted]
      rfl
    · rw [Duplex.shut_other]
      symm
      show s'.line w .guest = if tells then (s.line w .guest).push restart else s.line w .guest
      have hdeaf := iff_of_false (hnotDeaf s') (hnotDeaf s)
      cases tells with
      | true =>
        refine line_push huser' hposted' hleft' hdeaf ?_
        rw [way, way, hfrom', hfrom, hpending', hother]
        simp [Station.arrive]
      | false =>
        refine line_same huser' hposted' hleft' hdeaf fun _ _ => ?_
        rw [way, way, hfrom', hother]
        rfl

/-- The host disposes of its bridge, and no socket is wired to it. -/
theorem refines_clear (h : Wired w s) (hentry : ¬ (s.station .host).entry = true) :
    Wired w { s.modify .host (·.clear) with disposed := true } ∧
      Follows w s { s.modify .host (·.clear) with disposed := true } := by
  have hself : (({ s.modify .host (·.clear) with disposed := true } : Bridge α)).station .host =
      (s.station .host).clear := by
    show (s.modify .host (·.clear)).station .host = _
    exact modify_self ..
  have hother : (({ s.modify .host (·.clear) with disposed := true } : Bridge α)).station .guest =
      s.station .guest := by
    show (s.modify .host (·.clear)).station .guest = _
    exact modify_guest ..
  constructor
  · refine h.of_stations ?_ ?_ ?_ ?_ ⟨rfl, rfl, rfl, rfl, rfl⟩ ?_ ⟨fun _ => rfl, fun _ => Iff.rfl⟩
    · refine (End.forall_iff .host).mpr ⟨?_, ?_⟩
      · rw [hself]
        exact h.settled .host
      · exact hother ▸ h.settled .guest
    · refine (End.forall_iff .host).mpr ⟨?_, ?_⟩
      · rw [hself]
        exact ⟨Iff.rfl, (Bool.not_eq_true _ ▸ hentry).symm, fun hyes => absurd hyes hentry⟩
      · exact hother ▸ ⟨Iff.rfl, rfl, fun _ => rfl⟩
    · intro hnot
      obtain ⟨-, hforgotten⟩ := h.uncreated hnot
      cases w with
      | fromGuest => exact hself ▸ ⟨rfl, hforgotten.symm⟩
      | fromHost => exact hother ▸ ⟨rfl, rfl⟩
    · intro _ hall
      refine (End.forall_iff .host).mpr ⟨?_, ?_⟩
      · rw [hself]
        exact ⟨(hall .host).1, rfl⟩
      · exact hother ▸ hall .guest
    · intro _ hat
      by_contra hopen
      exact hentry (h.entryOpen .host hat hopen)
  · refine Follows.one (b := .fail .host none false) ?_
    rw [Duplex.step]
    refine congrArg some (funext ((End.forall_iff .host).mpr ⟨?_, ?_⟩))
    · rw [Duplex.modify_self, line_apply, line_apply, hself]
      have hdeaf : ({ s.modify .host (·.clear) with disposed := true } : Bridge α).Deaf .host :=
        ⟨rfl, rfl⟩
      simp only [hdeaf, or_true, if_true, decide_true]
      rfl
    · rw [Duplex.modify_other]
      symm
      have hdeaf : ∀ t : Bridge α, ¬ t.Deaf .guest := fun _ hdeaf => by cases hdeaf.1
      refine line_same ?_ ?_ ?_ (iff_of_false (hdeaf _) (hdeaf _)) fun _ _ => ?_
      · exact congrArg Station.user hother
      · exact congrArg Station.posted hother
      · exact congrArg Station.left hother
      · show _ = s.way w .guest
        rw [way, way]
        exact congrArg (fun x => x.pending ++ x.incoming ++ s.fromHalf w .guest) hother

/-- **The host disposes of its bridge.** -/
theorem refines_dispose (h : Wired w s) (hdispose : s.dispose w = some s') :
    Wired w s' ∧ Follows w s s' := by
  unfold dispose at hdispose
  split at hdispose
  · cases hdispose
  · obtain rfl := Option.some.inj hdispose
    split
    · next hentry =>
        obtain ⟨hat, hopen, -⟩ := h.entry .host hentry
        split
        · next hfrom =>
            subst hfrom
            have hhalfOpen : s.half.readyState ≠ .closed := fun hclosed =>
              hopen (h.halfClosed hclosed)
            obtain ⟨hhost, hguest⟩ := closeAdopted_station restart (s := s)
              (fun hor => hor.elim hhalfOpen h.halfCalm)
              (fun hor => hor.elim hopen (h.settled .host).calm) rfl
            obtain ⟨hhalf, hpeer, hshipped, hcreated, -⟩ := closeAdopted_rest restart
              (s := s) fun hor => hor.elim hhalfOpen h.halfCalm
            rw [if_neg hhalfOpen, modify_modify]
            refine refines_restart true h hentry ?_ ?_ (.inr ⟨rfl, hhalf⟩)
              ⟨hpeer, hshipped, hcreated⟩ rfl
            · rw [modify_self, hhost]
              exact ⟨rfl, rfl, rfl, rfl⟩
            · rw [modify_guest, hguest]
              rfl
        · next hfrom =>
            rw [modify_modify]
            refine refines_restart false h hentry ?_ ?_ (.inl rfl) ⟨rfl, rfl, rfl⟩ rfl
            · rw [modify_self]
              exact ⟨Socket.dispatchOrQueue_setReady .., rfl, rfl, rfl⟩
            · rw [modify_guest]
              rfl
    · next hentry => exact refines_clear h hentry

/-! ### Runs -/

/-- An id leaves the set of the forgotten ones. -/
theorem refines_evict (h : Wired w s) :
    Wired w (s.modify e fun x => { x with forgotten := false }) ∧
      Follows w s (s.modify e fun x => { x with forgotten := false }) := by
  have hstation : ∀ x, ∃ b, (s.modify e fun x => { x with forgotten := false }).station x =
      { s.station x with forgotten := b } ∧ (b = true → (s.station x).forgotten = true) := by
    refine (End.forall_iff e).mpr ⟨⟨false, ?_, fun hfalse => (by cases hfalse)⟩, ⟨_, ?_, id⟩⟩
    · rw [modify_self]
    · rw [modify_other]
  constructor
  · refine h.of_stations ?_ ?_ ?_ ?_ ⟨rfl, rfl, rfl, rfl, rfl⟩ h.disposed
      ⟨fun _ => rfl, fun _ => Iff.rfl⟩
    · intro x
      obtain ⟨b, hb, -⟩ := hstation x
      rw [hb]
      exact h.settled x
    · intro x
      obtain ⟨b, hb, -⟩ := hstation x
      rw [hb]
      exact ⟨Iff.rfl, rfl, fun _ => rfl⟩
    · intro hnot
      obtain ⟨b, hb, hforgot⟩ := hstation w.origin.other
      have hforgotten := (h.uncreated hnot).2
      rw [hforgotten] at hforgot
      rw [hb, hforgotten]
      exact ⟨rfl, Bool.not_eq_true _ ▸ fun hyes => by cases hforgot hyes⟩
    · intro _ hall x
      obtain ⟨b, hb, -⟩ := hstation x
      rw [hb]
      exact hall x
  · refine Follows.stay (funext fun x => ?_)
    obtain ⟨b, hb, -⟩ := hstation x
    refine line_same ?_ ?_ ?_ Iff.rfl fun _ _ => ?_
    · rw [hb]
    · rw [hb]
    · rw [hb]
    · rw [way, way, hb]
      rfl

/-- **Each step of a bridge** is a step of its line, or several, or none. -/
theorem refines (h : Wired w s) (hexact : Exact (s.line w)) (hstep : Bridge.step w s a = some s') :
    Wired w s' ∧ Follows w s s' := by
  cases a with
  | accept e =>
    obtain ⟨hpresent, hs'⟩ := Option.ite_none_right_eq_some.mp hstep
    obtain rfl := Option.some.inj hs'
    exact refines_accept h hpresent
  | send e data =>
    obtain ⟨hpresent, hs'⟩ := Option.ite_none_right_eq_some.mp hstep
    obtain rfl := Option.some.inj hs'
    exact refines_send h hpresent data
  | close e code reason =>
    obtain ⟨hpresent, hs'⟩ := Option.ite_none_right_eq_some.mp hstep
    obtain rfl := Option.some.inj hs'
    exact refines_close h hpresent code reason
  | ship => exact refines_ship h hstep
  | create => exact refines_create h hexact hstep
  | deliver e => exact refines_deliver h hexact hstep
  | dispose => exact refines_dispose h hstep
  | evict e =>
    obtain rfl := Option.some.inj hstep
    exact refines_evict h

theorem exact_of_play {d d' : Duplex α} {bs : List (Duplex.Label α)} (h : Exact d)
    (hplay : play Duplex.step d bs = some d') : Exact d' := by
  induction bs generalizing d with
  | nil =>
    obtain rfl := Option.some.inj hplay
    exact h
  | cons b bs ih =>
    obtain ⟨m, hm, hplay⟩ := Option.bind_eq_some_iff.mp hplay
    exact ih (exact_of_step h hm) hplay

/-- **In every run** the bridge is wired and its line is exact. -/
theorem wired_of_reaches (hrun : Reaches (Bridge.step w) unguarded {} s) :
    Wired w s ∧ Exact (s.line w) := by
  refine hrun.invariant (I := fun s => Wired w s ∧ Exact (s.line w)) ⟨wired_init, ?_⟩ ?_
  · have hline : ({} : Bridge α).line w = fun _ => {} := by
      funext e
      rw [line_apply]
      have hdeaf : ¬ ({} : Bridge α).Deaf e := fun hdeaf => by cases hdeaf.2
      simp only [hdeaf, decide_false]
      simp [way, fromHalf, Socket.heard]
    rw [hline]
    exact exact_init
  · rintro x a y ⟨hwired, hexact⟩ - hstep
    obtain ⟨hwired', bs, hplay⟩ := refines hwired hexact hstep
    exact ⟨hwired', exact_of_play hexact hplay⟩

theorem countP_isClose {l : List (Event α)} (hlast : ClosesLast l) (hclose : HasClose l) :
    l.countP Event.isClose = 1 := by
  obtain rfl | ⟨init, ev, rfl⟩ := List.eq_nil_or_concat' l
  · obtain ⟨ev, hev, -⟩ := hclose
    cases hev
  · rw [ClosesLast, List.dropLast_concat] at hlast
    have hnone : init.countP Event.isClose = 0 :=
      List.countP_eq_zero.mpr fun x hx => by simp [hlast x hx]
    have hev : ev.isClose = true := by
      rcases hasClose_append.mp hclose with ⟨x, hx, hyes⟩ | hyes
      · cases (hlast x hx).symm.trans hyes
      · exact hasClose_singleton.mp hyes
    rw [List.countP_append, hnone, List.countP_singleton, if_pos hev]

namespace Bridge

/-- An end whose socket is accepted, and for which nothing is in the channel. -/
def HeardOut (w : Wiring) (s : Bridge α) (e : End) : Prop :=
  s.Present w e ∧ (s.station e).user.accepted = true ∧ (s.station e).incoming = []

/-- What the listeners of one end get of what the program sends at the other. -/
structure Faithful (w : Wiring) (s : Bridge α) (e : End) : Prop where
  inOrder : messages (s.station e).user.received <+: messages (s.station e.other).posted
  closesLast : ClosesLast (s.station e).user.received
  complete : s.HeardOut w e → (s.station e).left = false → s.disposed = false →
    messages (s.station e).user.received = messages (s.station e.other).posted
  closesOnce : s.HeardOut w e → (s.station e).left = true ∨ (s.station e.other).left = true →
    (s.station e).user.received.countP Event.isClose = 1

end Bridge

/-- Everything that was posted to an end has reached it. -/
theorem way_of_heardOut (h : Wired w s) (hout : s.HeardOut w e)
    (hopen : (s.station e).user.readyState ≠ .closed) : s.way w e = [] := by
  obtain ⟨hpresent, -, hincoming⟩ := hout
  by_cases hshipped : s.shipped = true
  · have hat : s.Attached w e := by
      rw [Attached]
      split
      · exact hshipped
      · next hne => exact hpresent.resolve_left hne
    rw [way, (h.entry e (h.entryOpen e hat hopen)).2.2, hincoming, fromHalf, h.halfQueue hshipped]
    exact ite_self _
  · obtain ⟨hcreated, hempty⟩ := h.unshipped (Bool.not_eq_true _ ▸ hshipped)
    obtain rfl : e = w.origin := hpresent.resolve_right fun hyes => by
      cases hcreated.symm.trans hyes
    rw [way, (hempty _).1, (hempty _).2, fromHalf, if_pos rfl]
    rfl

end Lopata.WebSocket
