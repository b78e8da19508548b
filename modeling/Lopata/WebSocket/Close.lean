import Lopata.WebSocket.Order

/-!
# Close Events

`close()` marks its own side as closing, notifies the peer, and only then sets both sides to closed.
A listener of the peer's close event still finds its socket open: if it calls `close()` itself, it
is notified a second time. A peer that has not been accepted is closed while its events are queued,
and nothing comes after them; but an `accept()` that is in the middle of its queue goes on after
its side was closed. A socket that is accepted during its own `close()` is open once more.

## Main results

* `parting_of_step`: what a side that has been notified, and one that leaves, know of each other.
* `orderly_iff`: a close event is the last event of each side exactly if no open socket closes while
  its peer is closing, no `accept()` goes on after a close event, and no socket is used once
  it was opened again.
* `not_orderly`: a close event that is answered by `close()`.
-/

namespace Lopata.WebSocket

open Pair

variable {α : Type*} {s s' : Pair α} {a : Label α} {side : Side} {x : Socket (Letter α)}

/-- Only the last event of a side is a close event. -/
def Orderly (s : Pair α) : Prop :=
  ∀ side, ∀ e ∈ (s.socket side).received.dropLast, e.isClose = false

instance : Decidable (Orderly s) :=
  decidable_of_iff
    ((∀ e ∈ (s.socket .first).received.dropLast, e.isClose = false) ∧
      ∀ e ∈ (s.socket .second).received.dropLast, e.isClose = false)
    ⟨fun h side => by cases side; exacts [h.1, h.2], fun h => ⟨h .first, h .second⟩⟩

/-- The side that a waiting method goes on to dispatch an event to has not been notified. -/
def Frame.Free (s : Pair α) : Frame α → Prop
  | .dispatching => True
  | .flushing side rest => rest.isEmpty = false → ¬ (s.socket side).Told
  | .closing side _ _ => (s.socket side).accepted = true → ¬ (s.socket side).Told

instance (s : Pair α) : (frame : Frame α) → Decidable (frame.Free s)
  | .dispatching => .isTrue trivial
  | .flushing _ rest => inferInstanceAs (Decidable (rest.isEmpty = false → ¬ _))
  | .closing side _ _ => inferInstanceAs (Decidable ((s.socket side).accepted = true → ¬ _))

/-- An open socket does not close while its peer is closing; a method that waits goes on only if its
side has not been notified in between; and a socket that was closed and opened again neither sends
nor closes. -/
def Undisturbed (s : Pair α) : Label α → Prop
  | .send side _ => (s.socket side).readyState = .opened → s.leaving side = true →
      (s.socket side.peer).readyState = .closed
  | .close side _ _ => ¬ (s.socket side).Over →
      s.leaving side = false ∧ (s.socket side.peer).readyState ≠ .closing
  | .returns => ∀ frame ∈ s.stack.head?, frame.Free s
  | .accept _ | .throws => True

instance (s : Pair α) : (a : Label α) → Decidable (Undisturbed s a)
  | .send side _ => inferInstanceAs (Decidable ((s.socket side).readyState = .opened →
      s.leaving side = true → (s.socket side.peer).readyState = .closed))
  | .close side _ _ => inferInstanceAs (Decidable (¬ (s.socket side).Over →
      s.leaving side = false ∧ (s.socket side.peer).readyState ≠ .closing))
  | .returns => inferInstanceAs (Decidable (∀ frame ∈ s.stack.head?, frame.Free s))
  | .accept _ | .throws => .isTrue trivial

/-! ### Events -/

theorem told_dispatch (e : Event (Letter α)) :
    (x.dispatch e).Told ↔ x.Told ∨ e.isClose = true := by
  simp only [Socket.Told, Socket.dispatch, List.mem_append, List.mem_singleton, or_and_right,
    exists_or, exists_eq_left]

/-- **An event is dispatched** in order exactly if its side has not been notified. -/
theorem orderly_dispatch_iff (h : Orderly s) (e : Event (Letter α)) (frame : Frame α) :
    Orderly (s.dispatch side e frame) ↔ ¬ (s.socket side).Told := by
  have hself : ((s.dispatch side e frame).socket side).received.dropLast =
      (s.socket side).received := by
    simp [dispatch, Socket.dispatch]
  have hpeer : ((s.dispatch side e frame).socket side.peer) = s.socket side.peer := by
    simp [dispatch]
  rw [Orderly, Side.forall_iff side, hself, hpeer, and_iff_left (h side.peer), Socket.Told]
  simp

theorem orderly_modify (h : Orderly s) (f : Socket (Letter α) → Socket (Letter α))
    (hf : (f (s.socket side)).received = (s.socket side).received) :
    Orderly (s.modify side f) := by
  refine (Side.forall_iff side).mpr ⟨?_, ?_⟩
  · rw [modify_socket_self, hf]
    exact h side
  · rw [modify_socket_peer]
    exact h side.peer

theorem orderly_dispatchOrQueue_iff (h : Orderly s) (e : Event (Letter α)) :
    Orderly (s.dispatchOrQueue side e) ↔
      ((s.socket side).accepted = true → ¬ (s.socket side).Told) := by
  unfold dispatchOrQueue
  split
  · next haccepted => rw [orderly_dispatch_iff h, forall_prop_of_true haccepted]
  · next haccepted =>
      exact iff_of_true (orderly_modify h _ rfl) fun hside => absurd hside haccepted

theorem orderly_notifySelf_iff (h : Orderly s) (code : ℕ) (reason : String) :
    Orderly (s.notifySelf side code reason) ↔
      ((s.socket side).accepted = true → ¬ (s.socket side).Told) := by
  rw [notifySelf, orderly_dispatchOrQueue_iff (orderly_modify h _ rfl), modify_socket_self]
  rfl

theorem orderly_closeBoth_iff (h : Orderly s) (code : ℕ) (reason : String) :
    Orderly (s.closeBoth side code reason) ↔
      ((s.socket side).accepted = true → ¬ (s.socket side).Told) := by
  rw [closeBoth, orderly_notifySelf_iff (orderly_modify h _ rfl), modify_peer_socket]

/-! ### The invariant -/

/-- What holds in every run. -/
structure Parting (s : Pair α) : Prop where
  told : ∀ x, (s.socket x).Told → s.leaving x.peer = true ∨ (s.socket x).readyState = .closed
  accepted : ∀ x, (s.socket x).Told → (s.socket x).accepted = true
  left : ∀ x, s.leaving x = true → (s.socket x).readyState ≠ .closed →
    (s.socket x.peer).accepted = true ∧ (s.socket x.peer).Told
  begun : ∀ x, s.leaving x = true → (s.socket x).readyState ≠ .connecting
  opened : ∀ x, (s.socket x).readyState = .opened → (s.socket x).accepted = true
  pending : ∀ x, ∀ e ∈ s.pending x, e.isClose = true → (s.socket x).readyState = .closed

/-- The peer of a side that is on its way to be closed is not closed before it. -/
def Together (s : Pair α) : Prop :=
  ∀ x, s.leaving x = true → (s.socket x).readyState ≠ .closed →
    (s.socket x.peer).readyState ≠ .closed

theorem parting_init : Parting ({} : Pair α) where
  told := fun _ ⟨_, h, _⟩ => by cases h
  accepted := fun _ ⟨_, h, _⟩ => by cases h
  left := fun _ h => by cases h
  begun := fun _ h => by cases h
  opened := fun _ h => by cases h
  pending := fun _ _ h => by cases h

/-- An event is dispatched to an accepted side. -/
theorem parting_dispatch (h : Parting s) {e : Event (Letter α)} {frame : Frame α}
    (haccepted : (s.socket side).accepted = true)
    (he : e.isClose = true → s.leaving side.peer = true ∨ (s.socket side).readyState = .closed)
    (hframe : ∀ x, ∀ e' ∈ frame.rest x, e'.isClose = true → (s.socket x).readyState = .closed) :
    Parting (s.dispatch side e frame) := by
  have hself : (s.dispatch side e frame).socket side = (s.socket side).dispatch e := by
    simp [dispatch]
  have hpeer : (s.dispatch side e frame).socket side.peer = s.socket side.peer := by
    simp [dispatch]
  have hleaving : (s.dispatch side e frame).leaving = s.leaving := rfl
  refine ⟨?_, ?_, ?_, ?_, ?_, ?_⟩
  all_goals refine (Side.forall_iff side).mpr ⟨?_, ?_⟩
  · rw [hself, told_dispatch]
    exact fun htold => htold.elim (h.told side) he
  · rw [hpeer]
    exact h.told side.peer
  · exact fun _ => hself ▸ haccepted
  · rw [hpeer]
    exact h.accepted side.peer
  · rw [hself, hpeer]
    exact h.left side
  · rw [hpeer, Side.peer_peer, hself, told_dispatch]
    intro hleft hready
    have hor := h.left side.peer hleft hready
    rw [Side.peer_peer] at hor
    exact ⟨hor.1, .inl hor.2⟩
  · rw [hself]
    exact h.begun side
  · rw [hpeer]
    exact h.begun side.peer
  · rw [hself]
    exact h.opened side
  · rw [hpeer]
    exact h.opened side.peer
  · rw [Pair.pending, flushes_dispatch, hself, List.append_assoc]
    intro e' he'
    rcases List.mem_append.mp he' with he' | he'
    · exact hframe side e' he'
    · exact h.pending side e' he'
  · rw [Pair.pending, flushes_dispatch, hpeer, List.append_assoc]
    intro e' he'
    rcases List.mem_append.mp he' with he' | he'
    · exact hframe side.peer e' he'
    · exact h.pending side.peer e' he'

theorem parting_enqueue (h : Parting s) {e : Event (Letter α)}
    (he : e.isClose = true → (s.socket side).readyState = .closed) :
    Parting (s.modify side (·.enqueue e)) := by
  have hself : (s.modify side (·.enqueue e)).socket side = (s.socket side).enqueue e := by simp
  have hpeer : (s.modify side (·.enqueue e)).socket side.peer = s.socket side.peer := by simp
  refine ⟨?_, ?_, ?_, ?_, ?_, ?_⟩
  all_goals refine (Side.forall_iff side).mpr ⟨?_, ?_⟩
  · rw [hself]
    exact h.told side
  · rw [hpeer]
    exact h.told side.peer
  · rw [hself]
    exact h.accepted side
  · rw [hpeer]
    exact h.accepted side.peer
  · rw [hself, hpeer]
    exact h.left side
  · rw [hpeer, Side.peer_peer, hself]
    intro hleft hready
    have hor := h.left side.peer hleft hready
    rwa [Side.peer_peer] at hor
  · rw [hself]
    exact h.begun side
  · rw [hpeer]
    exact h.begun side.peer
  · rw [hself]
    exact h.opened side
  · rw [hpeer]
    exact h.opened side.peer
  · rw [Pair.pending, flushes_modify, hself]
    intro e' he'
    rcases List.mem_append.mp he' with hflush | hqueue
    · exact h.pending side e' (List.mem_append_left _ hflush)
    · rcases List.mem_append.mp hqueue with hqueue | hlast
      · exact h.pending side e' (List.mem_append_right _ hqueue)
      · obtain rfl := List.mem_singleton.mp hlast
        exact he
  · rw [Pair.pending, flushes_modify, hpeer]
    exact h.pending side.peer

theorem parting_dispatchOrQueue (h : Parting s) {e : Event (Letter α)}
    (he : e.isClose = true → (s.socket side).readyState = .closed) :
    Parting (s.dispatchOrQueue side e) := by
  unfold dispatchOrQueue
  split
  · next haccepted =>
      exact parting_dispatch h haccepted (fun hclose => .inr (he hclose)) fun _ _ h => by cases h
  · exact parting_enqueue h he

/-- A side that leaves while its peer leaves, or is closed, is closed. -/
theorem parting_leave_closed (h : Parting s) :
    Parting ((s.leave side).modify side (·.setReady .closed)) := by
  have hself : ((s.leave side).modify side (·.setReady .closed)).socket side =
      (s.socket side).setReady .closed := by
    simp [leave, Socket.setReady]
  have hpeer : ((s.leave side).modify side (·.setReady .closed)).socket side.peer =
      s.socket side.peer := by
    simp [leave]
  have hleaving : ((s.leave side).modify side (·.setReady .closed)).leaving side.peer =
      s.leaving side.peer := by
    rw [modify_leaving, leave_leaving, if_neg side.peer_ne]
  have hready : (((s.leave side).modify side (·.setReady .closed)).socket side).readyState =
      .closed := by
    rw [hself]
    rfl
  refine ⟨?_, ?_, ?_, ?_, ?_, ?_⟩
  all_goals refine (Side.forall_iff side).mpr ⟨?_, ?_⟩
  · exact fun _ => .inr hready
  · intro _
    rw [Side.peer_peer, modify_leaving, leave_leaving, if_pos rfl]
    exact .inl rfl
  · rw [hself]
    exact h.accepted side
  · rw [hpeer]
    exact h.accepted side.peer
  · exact fun _ hnot => absurd hready hnot
  · rw [hpeer, hleaving, Side.peer_peer, hself]
    intro hleft hnot
    have hor := h.left side.peer hleft hnot
    rwa [Side.peer_peer] at hor
  · exact fun _ hconnecting => by cases hready.symm.trans hconnecting
  · rw [hpeer, hleaving]
    exact h.begun side.peer
  · exact fun hopened => by cases hready.symm.trans hopened
  · rw [hpeer]
    exact h.opened side.peer
  · exact fun _ _ _ => hready
  · rw [Pair.pending, hpeer]
    exact h.pending side.peer

/-- A side that leaves, with its peer notified. -/
theorem parting_leave_dispatch (h : Parting s) {e : Event (Letter α)} {frame : Frame α}
    (hover : ¬ (s.socket side).Over) (haccepted : (s.socket side.peer).accepted = true)
    (he : e.isClose = true) (hframe : ∀ x, frame.rest x = []) :
    Parting ((s.leave side).dispatch side.peer e frame) := by
  have hself : ((s.leave side).dispatch side.peer e frame).socket side =
      (s.socket side).setReady .closing := by
    simp [dispatch, leave]
  have hpeer : ((s.leave side).dispatch side.peer e frame).socket side.peer =
      (s.socket side.peer).dispatch e := by
    simp [dispatch, leave]
  have hleaving : ((s.leave side).dispatch side.peer e frame).leaving side.peer =
      s.leaving side.peer :=
    (leave_leaving _).trans (if_neg side.peer_ne)
  have hleft : ((s.leave side).dispatch side.peer e frame).leaving side = true :=
    (leave_leaving _).trans (if_pos rfl)
  have hflushes : ∀ x, ((s.leave side).dispatch side.peer e frame).flushes x = s.flushes x := by
    intro x
    rw [flushes_dispatch, hframe x]
    rfl
  refine ⟨?_, ?_, ?_, ?_, ?_, ?_⟩
  all_goals refine (Side.forall_iff side).mpr ⟨?_, ?_⟩
  · rw [hself, hleaving]
    exact fun htold => .inl ((h.told side htold).resolve_right fun hclosed => hover (.inl hclosed))
  · rw [Side.peer_peer]
    exact fun _ => .inl hleft
  · rw [hself]
    exact h.accepted side
  · exact fun _ => hpeer ▸ haccepted
  · rw [hpeer, told_dispatch]
    exact fun _ _ => ⟨haccepted, .inr he⟩
  · rw [hpeer, hleaving, Side.peer_peer, hself]
    intro hleft hnot
    have hor := h.left side.peer hleft hnot
    rwa [Side.peer_peer] at hor
  · rw [hself]
    exact fun _ hconnecting => by cases hconnecting
  · rw [hpeer, hleaving]
    exact h.begun side.peer
  · rw [hself]
    exact fun hopened => by cases hopened
  · rw [hpeer]
    exact h.opened side.peer
  · rw [Pair.pending, hflushes, hself]
    intro e' he' hclose
    exact absurd (.inl (h.pending side e' he' hclose)) hover
  · rw [Pair.pending, hflushes, hpeer]
    exact h.pending side.peer

/-- Both sides are closed. -/
theorem parting_closeBoth (h : ∀ x, (s.socket x).Told → (s.socket x).accepted = true)
    (code : ℕ) (reason : String) : Parting (s.closeBoth side code reason) := by
  have hready : ∀ x, (((s.modify side.peer (·.setReady .closed)).modify side
      (·.setReady .closed)).socket x).readyState = .closed := by
    refine (Side.forall_iff side).mpr ⟨?_, ?_⟩ <;> simp [Socket.setReady]
  refine parting_dispatchOrQueue (s := (s.modify side.peer (·.setReady .closed)).modify side
    (·.setReady .closed)) ⟨?_, ?_, ?_, ?_, ?_, ?_⟩ fun _ => hready side
  · exact fun x _ => .inr (hready x)
  · refine (Side.forall_iff side).mpr ⟨?_, ?_⟩
    · rw [modify_socket_self, modify_peer_socket]
      exact h side
    · rw [modify_socket_peer, modify_socket_self]
      exact h side.peer
  · exact fun x _ hnot => absurd (hready x) hnot
  · exact fun x _ hconnecting => by cases (hready x).symm.trans hconnecting
  · exact fun x hopened => by cases (hready x).symm.trans hopened
  · exact fun x _ _ _ => hready x

/-- A flush of events that were pending. -/
theorem parting_flush (h : Parting s) {l : List (Event (Letter α))}
    (haccepted : (s.socket side).accepted = true)
    (hl : ∀ e ∈ l, e.isClose = true → (s.socket side).readyState = .closed) :
    Parting (s.flush side l) := by
  cases l with
  | nil => exact h
  | cons e rest =>
    refine parting_dispatch h haccepted (fun he => .inr (hl e List.mem_cons_self he)) ?_
    intro x e' he'
    rw [Frame.rest_flushing] at he'
    split at he'
    · next heq =>
        subst heq
        exact hl e' (List.mem_cons_of_mem _ he')
    · cases he'

variable (side) in
theorem accept_ready :
    ((s.socket side).accept.readyState = .closed ↔ (s.socket side).readyState = .closed) ∧
      ((s.socket side).accept.readyState = .closed ∨
        (s.socket side).accept.readyState = .opened) := by
  unfold Socket.accept
  split
  · next heq => exact ⟨iff_of_true rfl heq, .inl rfl⟩
  · next hne => exact ⟨iff_of_false (by simp) hne, .inr rfl⟩

theorem parting_accept (h : Parting s) : Parting (s.accept side) := by
  unfold accept
  split
  · exact h
  · have hself : (s.modify side (·.accept)).socket side = (s.socket side).accept := by simp
    have hpeer : (s.modify side (·.accept)).socket side.peer = s.socket side.peer := by simp
    obtain ⟨hclosed, hready⟩ := accept_ready (s := s) side
    refine parting_flush ⟨?_, ?_, ?_, ?_, ?_, ?_⟩ (by rw [hself]; rfl) ?_
    · refine (Side.forall_iff side).mpr ⟨?_, ?_⟩
      · rw [hself, hclosed]
        exact h.told side
      · rw [hpeer]
        exact h.told side.peer
    · refine (Side.forall_iff side).mpr ⟨?_, ?_⟩
      · exact fun _ => hself ▸ rfl
      · rw [hpeer]
        exact h.accepted side.peer
    · refine (Side.forall_iff side).mpr ⟨?_, ?_⟩
      · rw [hself, hpeer]
        exact fun hleft hnot => h.left side hleft fun heq => hnot (hclosed.mpr heq)
      · rw [hpeer, Side.peer_peer, hself]
        intro hleft hnot
        have hor := h.left side.peer hleft hnot
        rw [Side.peer_peer] at hor
        exact ⟨rfl, hor.2⟩
    · refine (Side.forall_iff side).mpr ⟨?_, ?_⟩
      · rw [hself]
        intro _ hconnecting
        rcases hready with hready | hready <;> cases hready.symm.trans hconnecting
      · rw [hpeer]
        exact h.begun side.peer
    · refine (Side.forall_iff side).mpr ⟨?_, ?_⟩
      · exact fun _ => hself ▸ rfl
      · rw [hpeer]
        exact h.opened side.peer
    · refine (Side.forall_iff side).mpr ⟨?_, ?_⟩
      · rw [hself, hclosed, Pair.pending, hself]
        intro e he
        refine h.pending side e (List.mem_append_left _ ?_)
        rcases List.mem_append.mp he with he | he
        · exact he
        · cases he
      · rw [hpeer, Pair.pending, hpeer]
        exact h.pending side.peer
    · rw [hself, hclosed]
      exact fun e he => h.pending side e (List.mem_append_right _ he)

theorem parting_logged (h : Parting s) (data : α) : Parting (s.logged side data) := by
  unfold logged
  split
  · exact h
  · exact ⟨h.told, h.accepted, h.left, h.begun, h.opened, h.pending⟩

theorem parting_send (h : Parting s) (data : α) : Parting (s.send side data) := by
  unfold send
  split
  · exact h
  · split
    · exact parting_logged h data
    · exact parting_dispatchOrQueue (parting_logged h data) fun hclose => by cases hclose

theorem parting_shut (h : Parting s) (hover : ¬ (s.socket side).Over) (code : ℕ)
    (reason : String) : Parting (s.shut side code reason) := by
  unfold shut
  split
  · refine parting_dispatchOrQueue (parting_leave_closed h) fun _ => ?_
    simp [Socket.setReady]
  · split
    · next haccepted => exact parting_leave_dispatch h hover haccepted rfl fun _ => rfl
    · have hself : (((s.leave side).modify side.peer
          (·.enqueue (.close code reason))).socket side) =
            (s.socket side).setReady .closing := by
        simp [leave]
      have hpeer : (((s.leave side).modify side.peer
          (·.enqueue (.close code reason))).socket side.peer) =
            (s.socket side.peer).enqueue (.close code reason) := by
        simp [leave]
      refine parting_closeBoth ((Side.forall_iff side).mpr ⟨?_, ?_⟩) code reason
      · rw [hself]
        exact h.accepted side
      · rw [hpeer]
        exact h.accepted side.peer

theorem parting_pop (h : Parting s) {frame : Frame α} {rest : List (Frame α)}
    (hstack : s.stack = frame :: rest) : Parting { s with stack := rest } := by
  refine ⟨h.told, h.accepted, h.left, h.begun, h.opened, fun x e he => h.pending x e ?_⟩
  rw [Pair.pending, flushes, hstack, List.flatMap_cons, List.append_assoc]
  exact List.mem_append_right _ he

theorem parting_resume (h : Parting s) (hlinked : Linked s) {frame : Frame α}
    {rest : List (Frame α)} (hstack : s.stack = frame :: rest) :
    Parting (Pair.resume { s with stack := rest } frame) := by
  have hpop := parting_pop h hstack
  cases frame with
  | dispatching => exact hpop
  | closing side code reason => exact parting_closeBoth hpop.accepted code reason
  | flushing side l =>
    cases l with
    | nil => exact hpop
    | cons e l =>
      have hmem : ∀ e' ∈ e :: l, e' ∈ s.pending side := by
        intro e' he'
        rw [Pair.pending, flushes, hstack, List.flatMap_cons, Frame.rest_flushing, if_pos rfl,
          List.append_assoc]
        exact List.mem_append_left _ he'
      refine parting_flush (s := { s with stack := rest }) (l := e :: l) hpop ?_
        fun e' he' => h.pending side e' (hmem e' he')
      by_contra hside
      have hnil := hlinked.flushing side (Bool.not_eq_true _ ▸ hside)
      rw [flushes, hstack, List.flatMap_cons] at hnil
      have hnil := (List.append_eq_nil_iff.mp hnil).1
      rw [Frame.rest_flushing, if_pos rfl] at hnil
      cases hnil

/-- **What the sides know of each other** in every run. -/
theorem parting_of_step (h : Parting s) (hlinked : Linked s) (hstep : step s a = some s') :
    Parting s' := by
  cases a with
  | accept side =>
    obtain rfl := Option.some.inj hstep
    exact parting_accept h
  | send side data =>
    obtain rfl := Option.some.inj hstep
    exact parting_send h data
  | close side code reason =>
    obtain rfl := Option.some.inj hstep
    unfold close
    split
    · exact h
    · next hover => exact parting_shut h hover _ _
  | returns =>
    obtain ⟨frame, rest, hstack, rfl⟩ := returns_cases hstep
    exact parting_resume h hlinked hstack
  | throws =>
    obtain ⟨frame, rest, hstack, rfl⟩ := throws_cases hstep
    exact parting_pop h hstack

/-! ### Close events come last -/

theorem Together.of_same (h : Together s)
    (hclosed : ∀ x, (s'.socket x).readyState = .closed ↔ (s.socket x).readyState = .closed)
    (hleaving : s'.leaving = s.leaving) : Together s' := by
  intro x hleft hnot
  rw [Ne, hclosed]
  exact h x (hleaving ▸ hleft) fun heq => hnot ((hclosed x).mpr heq)

theorem dispatch_closed (e : Event (Letter α)) (frame : Frame α) (x : Side) :
    ((s.dispatch side e frame).socket x).readyState = .closed ↔
      (s.socket x).readyState = .closed := by
  revert x
  refine (Side.forall_iff side).mpr ⟨?_, ?_⟩ <;> simp [dispatch, Socket.dispatch]

theorem dispatchOrQueue_closed (e : Event (Letter α)) (x : Side) :
    ((s.dispatchOrQueue side e).socket x).readyState = .closed ↔
      (s.socket x).readyState = .closed := by
  unfold dispatchOrQueue
  split
  · exact dispatch_closed e _ x
  · revert x
    refine (Side.forall_iff side).mpr ⟨?_, ?_⟩ <;> simp [Socket.enqueue]

theorem flush_closed (l : List (Event (Letter α))) (x : Side) :
    ((s.flush side l).socket x).readyState = .closed ↔ (s.socket x).readyState = .closed := by
  cases l with
  | nil => exact Iff.rfl
  | cons e rest => exact dispatch_closed e _ x

theorem closeBoth_closed (code : ℕ) (reason : String) (x : Side) :
    ((s.closeBoth side code reason).socket x).readyState = .closed := by
  rw [closeBoth, notifySelf, dispatchOrQueue_closed]
  revert x
  refine (Side.forall_iff side).mpr ⟨?_, ?_⟩ <;> simp [Socket.setReady]

theorem dispatchOrQueue_leaving (e : Event (Letter α)) :
    (s.dispatchOrQueue side e).leaving = s.leaving := by
  unfold dispatchOrQueue
  split <;> rfl

theorem logged_leaving (data : α) : (s.logged side data).leaving = s.leaving := by
  unfold logged
  split <;> rfl

theorem flush_leaving (l : List (Event (Letter α))) : (s.flush side l).leaving = s.leaving := by
  cases l <;> rfl

theorem orderly_leave (h : Orderly s) : Orderly (s.leave side) :=
  orderly_modify h (·.setReady .closing) rfl

theorem together_shut (h : Parting s) (horder : Orderly s)
    (hover : ¬ (s.socket side).Over) {code : ℕ} {reason : String}
    (horder' : Orderly (s.shut side code reason)) : Together (s.shut side code reason) := by
  have hself : (s.leave side).socket side = (s.socket side).setReady .closing := by simp [leave]
  have hpeer : (s.leave side).socket side.peer = s.socket side.peer := by simp [leave]
  unfold shut at horder' ⊢
  split
  · next hpeerOver =>
      rw [if_pos hpeerOver, orderly_notifySelf_iff (orderly_leave horder), hself] at horder'
      refine (Side.forall_iff side).mpr ⟨?_, ?_⟩
      · intro _ hnot
        refine absurd ?_ hnot
        rw [notifySelf, dispatchOrQueue_closed]
        simp [Socket.setReady]
      · intro hleft hnot
        rw [notifySelf, dispatchOrQueue_leaving, modify_leaving, leave_leaving,
          if_neg side.peer_ne] at hleft
        rw [Ne, notifySelf, dispatchOrQueue_closed, modify_socket_peer, hpeer] at hnot
        have hor := h.left side.peer hleft hnot
        rw [Side.peer_peer] at hor
        exact absurd hor.2 (horder' hor.1)
  · next hpeerOver =>
      split
      · refine (Side.forall_iff side).mpr ⟨?_, ?_⟩
        · intro _ _
          rw [Ne, dispatch_closed, hpeer]
          exact fun hclosed => hpeerOver (.inl hclosed)
        · intro _ _
          rw [Ne, dispatch_closed, Side.peer_peer, hself]
          exact fun hclosed => by cases hclosed
      · exact fun x _ hnot => absurd (closeBoth_closed _ _ x) hnot

/-- **Both sides are closed at once** as long as close events come last. -/
theorem together_of_step (h : Parting s) (htogether : Together s) (horder : Orderly s)
    (hstep : step s a = some s') (horder' : Orderly s') : Together s' := by
  cases a with
  | accept side =>
    obtain rfl := Option.some.inj hstep
    unfold accept
    split
    · exact htogether
    · refine htogether.of_same (fun x => ?_) (flush_leaving _)
      rw [flush_closed]
      revert x
      refine (Side.forall_iff side).mpr ⟨?_, ?_⟩
      · rw [modify_socket_self]
        exact (accept_ready side).1
      · rw [modify_socket_peer]
  | send side data =>
    obtain rfl := Option.some.inj hstep
    unfold send
    split
    · exact htogether
    · split
      · exact htogether.of_same (fun x => by rw [logged_socket]) (logged_leaving data)
      · refine htogether.of_same (fun x => ?_)
          ((dispatchOrQueue_leaving _).trans (logged_leaving data))
        rw [dispatchOrQueue_closed, logged_socket]
  | close side code reason =>
    obtain rfl := Option.some.inj hstep
    unfold close at horder' ⊢
    split
    · exact htogether
    · next hover =>
        rw [if_neg hover] at horder'
        exact together_shut h horder hover horder'
  | returns =>
    obtain ⟨frame, rest, hstack, rfl⟩ := returns_cases hstep
    cases frame with
    | dispatching => exact htogether
    | closing side code reason =>
      exact fun x _ hnot => absurd (closeBoth_closed _ _ x) hnot
    | flushing side l =>
      exact htogether.of_same (fun x => flush_closed l x) (flush_leaving l)
  | throws =>
    obtain ⟨frame, rest, hstack, rfl⟩ := throws_cases hstep
    exact htogether

/-- **A message is sent** before the peer's close event, unless its socket was opened again. -/
theorem orderly_send_iff (h : Parting s) (horder : Orderly s) (data : α) :
    Orderly (s.send side data) ↔ Undisturbed s (.send side data) := by
  show _ ↔ ((s.socket side).readyState = .opened → s.leaving side = true →
    (s.socket side.peer).readyState = .closed)
  have hlogged : Orderly (s.logged side data) := by
    rw [Orderly, logged_socket]
    exact horder
  unfold send
  split
  · next hopen => exact iff_of_true horder fun h => absurd h hopen
  · next hopen =>
      have hopen : (s.socket side).readyState = .opened := Decidable.not_not.mp hopen
      split
      · next hclosed => exact iff_of_true hlogged fun _ _ => hclosed
      · next hclosed =>
          rw [orderly_dispatchOrQueue_iff hlogged, logged_socket]
          cases hleaving : s.leaving side with
          | true =>
            obtain ⟨haccepted, htold⟩ := h.left side hleaving (by rw [hopen]; decide)
            refine iff_of_false (fun hall => hall haccepted htold) fun hall => ?_
            exact hclosed (hall hopen rfl)
          | false =>
            refine iff_of_true (fun _ htold => ?_) fun _ hleft => by cases hleft
            have hor := h.told side.peer htold
            rw [Side.peer_peer, hleaving] at hor
            exact hor.elim Bool.false_ne_true hclosed

/-- **A socket closes** in order exactly if its peer is not closing and it was not opened again. -/
theorem orderly_shut_iff (h : Parting s) (hlinked : Linked s) (htogether : Together s)
    (horder : Orderly s) (hover : ¬ (s.socket side).Over) (code : ℕ) (reason : String) :
    Orderly (s.shut side code reason) ↔
      s.leaving side = false ∧ (s.socket side.peer).readyState ≠ .closing := by
  have hself : (s.leave side).socket side = (s.socket side).setReady .closing := by simp [leave]
  have hpeer : (s.leave side).socket side.peer = s.socket side.peer := by simp [leave]
  have hnotClosed : (s.socket side).readyState ≠ .closed := fun hclosed => hover (.inl hclosed)
  have htold : (s.socket side).Told → s.leaving side.peer = true := fun htold =>
    (h.told side htold).resolve_right hnotClosed
  unfold shut
  split
  · next hpeerOver =>
      rw [orderly_notifySelf_iff (orderly_leave horder), hself]
      rcases hpeerOver with hclosed | hclosing
      · have hleft := hlinked.closed side.peer hclosed
        rw [Side.peer_peer] at hleft
        exact absurd hclosed (htogether side (hleft.resolve_left hnotClosed) hnotClosed)
      · have hor := h.left side.peer (hlinked.closing _ hclosing) (by rw [hclosing]; decide)
        rw [Side.peer_peer] at hor
        exact iff_of_false (fun hall => hall hor.1 hor.2) fun hnot => hnot.2 hclosing
  · next hpeerOver =>
      have hpeerClosing : (s.socket side.peer).readyState ≠ .closing := fun hclosing =>
        hpeerOver (.inr hclosing)
      split
      · rw [orderly_dispatch_iff (orderly_leave horder), hpeer]
        cases hleaving : s.leaving side with
        | true =>
          obtain ⟨-, hpeerTold⟩ := h.left side hleaving hnotClosed
          exact iff_of_false (fun hnot => hnot hpeerTold) fun hnot => by cases hnot.1
        | false =>
          refine iff_of_true (fun hpeerTold => ?_) ⟨rfl, hpeerClosing⟩
          have hor := h.told side.peer hpeerTold
          rw [Side.peer_peer, hleaving] at hor
          exact hor.elim Bool.false_ne_true fun hclosed => hpeerOver (.inl hclosed)
      · next haccepted =>
          have hsocket : (((s.leave side).modify side.peer
              (·.enqueue (.close code reason))).socket side) =
                (s.socket side).setReady .closing := by
            rw [modify_peer_socket, hself]
          rw [orderly_closeBoth_iff (orderly_modify (orderly_leave horder) _ rfl), hsocket]
          refine iff_of_true (fun _ hself => ?_) ⟨?_, hpeerClosing⟩
          · have hleft := htold hself
            cases hready : (s.socket side.peer).readyState with
            | connecting => exact h.begun _ hleft hready
            | opened => exact haccepted (h.opened _ hready)
            | closing => exact hpeerClosing hready
            | closed => exact hpeerOver (.inl hready)
          · cases hleaving : s.leaving side with
            | true => exact absurd (h.left side hleaving hnotClosed).1 haccepted
            | false => rfl

/-- **A method goes on** in order exactly if its side has not been notified. -/
theorem orderly_resume_iff (horder : Orderly s) {frame : Frame α} {rest : List (Frame α)}
    (hstack : s.stack = frame :: rest) :
    Orderly (Pair.resume { s with stack := rest } frame) ↔ Undisturbed s .returns := by
  have hguard : Undisturbed s .returns ↔ frame.Free s := by
    rw [Undisturbed, hstack]
    simp
  rw [hguard]
  cases frame with
  | dispatching => exact iff_of_true horder trivial
  | closing side code reason =>
    exact orderly_closeBoth_iff (s := { s with stack := rest }) horder code reason
  | flushing side l =>
    cases l with
    | nil => exact iff_of_true horder fun h => by cases h
    | cons e l =>
      refine (orderly_dispatch_iff (s := { s with stack := rest }) horder e _).trans ?_
      exact ⟨fun hnot _ => hnot, fun hfree => hfree rfl⟩

/-- **Close events.** Take any run of calls of `accept`, `send` and `close` on the two sides, from
outside and from listeners while these run. In every state of it a side has been notified of a close
at most once, and of nothing after it, if and only if no open socket closes while its peer is
closing, no method that waits for listeners goes on to dispatch to a side that was notified in
between, and no socket that was opened again sends or closes. -/
theorem orderly_iff {as : List (Label α)} :
    Throughout step Orderly ({} : Pair α) as ↔ Along step Undisturbed ({} : Pair α) as := by
  refine throughout_iff_along
    (J := fun s => Linked s ∧ Parting s ∧ (Orderly s → Together s))
    ⟨linked_init, parting_init, fun _ _ h => by cases h⟩ (fun _ _ h => by cases h) ?_ ?_
  · rintro x a y ⟨hlinked, hparting, htogether⟩ horder hstep
    exact ⟨linked_of_step hlinked hstep, parting_of_step hparting hlinked hstep,
      together_of_step hparting (htogether horder) horder hstep⟩
  · rintro x a y ⟨hlinked, hparting, htogether⟩ horder hstep
    cases a with
    | accept side =>
        obtain rfl := Option.some.inj hstep
        refine iff_of_true ?_ trivial
        unfold accept
        split
        · exact horder
        · next haccepted =>
            have hmodify : Orderly (x.modify side (·.accept)) := orderly_modify horder _ rfl
            cases (x.socket side).eventQueue with
            | nil => exact hmodify
            | cons e rest =>
                refine (orderly_dispatch_iff hmodify e _).mpr ?_
                rw [modify_socket_self]
                exact fun htold => haccepted (hparting.accepted side htold)
    | send side data =>
        obtain rfl := Option.some.inj hstep
        exact orderly_send_iff hparting horder data
    | close side code reason =>
        obtain rfl := Option.some.inj hstep
        show Orderly (x.close side code reason) ↔ (¬ (x.socket side).Over → _)
        unfold close
        split
        · next hover => exact iff_of_true horder fun hnot => absurd hover hnot
        · next hover =>
            rw [orderly_shut_iff hparting hlinked (htogether horder) horder hover]
            exact ⟨fun hok _ => hok, fun hok => hok hover⟩
    | returns =>
        obtain ⟨frame, rest, hstack, rfl⟩ := returns_cases hstep
        exact orderly_resume_iff horder hstack
    | throws =>
        obtain ⟨frame, rest, hstack, rfl⟩ := throws_cases hstep
        exact iff_of_true horder trivial

/-- The listener of a close event closes its own side, as a hibernation handler does. -/
def echoed : List (Label ℕ) :=
  [.accept .first, .accept .second, .close .first none none, .close .second none none]

/-- It is notified twice. -/
theorem not_orderly : ¬ ∀ s, Reaches step unguarded ({} : Pair ℕ) s → Orderly s := by
  intro hall
  have hrun : (play (restrict step unguarded) ({} : Pair ℕ) echoed).any (fun s =>
      decide (¬ Orderly s)) = true := by
    decide
  obtain ⟨s, hreach, hs⟩ := exists_reaches_of_play hrun
  exact of_decide_eq_true hs (hall s hreach)

end Lopata.WebSocket
