import Mathlib.Data.List.Basic
import Lopata.WebSocket.Pair

/-!
# Message Order

Messages that come before `accept()` are queued, and `accept()` dispatches the queue one by one. A
listener that runs in between can lead to further messages, and a socket that is accepted gets them
at once: they overtake the rest of the queue. A listener that throws there takes the rest away.

## Main results

* `linked_of_step`: how the states and the queues of the two sides hang together in every run.
* `inOrder_iff`: the messages of each side arrive in order exactly if no side sends while `accept()`
  of its peer has messages left, and no listener throws there.
* `not_inOrder`: an answer to the first of two queued messages that is answered itself.
-/

namespace Lopata.WebSocket

variable {α : Type*} {s s' : Pair α} {a : Label α} {side : Side}

/-- The message of an event, with its number, if it was sent before closing. -/
def Event.numbered : Event (Letter α) → Option (ℕ × α)
  | .message ⟨some n, data⟩ => some (n, data)
  | .message ⟨none, _⟩ | .close _ _ => none

/-- The messages sent before closing. -/
def kept (l : List (Event (Letter α))) : List (ℕ × α) :=
  l.filterMap Event.numbered

/-- The events that a waiting `accept` of a side still has to dispatch. -/
def Frame.rest (side : Side) : Frame α → List (Event (Letter α))
  | .flushing side' rest => if side' = side then rest else []
  | .dispatching | .closing _ _ _ => []

theorem Frame.rest_flushing (l : List (Event (Letter α))) (x : Side) :
    (Frame.flushing side l).rest x = if side = x then l else [] := rfl

namespace Pair

variable (s : Pair α) (side : Side)

def flushes : List (Event (Letter α)) :=
  s.stack.flatMap (Frame.rest side)

/-- The events that are queued for a side. -/
def pending : List (Event (Letter α)) :=
  s.flushes side ++ (s.socket side).eventQueue

/-- The messages of the peer that a side has received and then those that are queued for it. -/
def ledger : List (ℕ × α) :=
  kept (s.socket side).received ++ kept (s.pending side)

end Pair

/-- Each side has received, or has in its queue, the messages its peer has sent before closing, once
each and in the order of the calls; it has received all of them if it has been accepted and no
listener runs. -/
def InOrder (s : Pair α) : Prop :=
  ∀ side, s.ledger side = s.sent side.peer ∧
    ((s.socket side).accepted = true → s.stack = [] →
      kept (s.socket side).received = s.sent side.peer)

/-- Nothing is sent to a side whose `accept` has messages left to dispatch, and no listener throws
there. -/
def Unhurried (s : Pair α) : Label α → Prop
  | .send side _ => (s.socket side).readyState = .opened → s.leaving side = false →
      (kept (s.flushes side.peer)).isEmpty = true
  | .throws => ∀ frame ∈ s.stack.head?, (kept (frame.rest .first)).isEmpty = true ∧
      (kept (frame.rest .second)).isEmpty = true
  | .accept _ | .close _ _ _ | .returns => True

instance (s : Pair α) : (a : Label α) → Decidable (Unhurried s a)
  | .send side _ => inferInstanceAs (Decidable ((s.socket side).readyState = .opened →
      s.leaving side = false → (kept (s.flushes side.peer)).isEmpty = true))
  | .throws => inferInstanceAs (Decidable (∀ frame ∈ s.stack.head?,
      (kept (frame.rest .first)).isEmpty = true ∧ (kept (frame.rest .second)).isEmpty = true))
  | .accept _ | .close _ _ _ | .returns => .isTrue trivial

/-! ### The invariant -/

/-- What holds in every run. -/
structure Linked (s : Pair α) : Prop where
  closed : ∀ side, (s.socket side).readyState = .closed →
    (s.socket side.peer).readyState = .closed ∨ s.leaving side.peer = true
  closing : ∀ side, (s.socket side).readyState = .closing → s.leaving side = true
  queue : ∀ side, (s.socket side).accepted = true → (s.socket side).eventQueue = []
  flushing : ∀ side, (s.socket side).accepted = false → s.flushes side = []
  numbered : ∀ side, ∀ x ∈ s.sent side, x.1 < (s.sent side).length

theorem linked_init : Linked ({} : Pair α) where
  closed := fun _ h => by cases h
  closing := fun _ h => by cases h
  queue := fun _ h => by cases h
  flushing := fun _ _ => rfl
  numbered := fun _ _ h => by cases h

namespace Pair

theorem flushes_dispatch (e : Event (Letter α)) (frame : Frame α) (x : Side) :
    (s.dispatch side e frame).flushes x = frame.rest x ++ s.flushes x := by
  rw [flushes, dispatch, List.flatMap_cons]
  rfl

theorem flushes_modify (f : Socket (Letter α) → Socket (Letter α)) (x : Side) :
    (s.modify side f).flushes x = s.flushes x := rfl

end Pair

open Pair

theorem linked_dispatch (h : Linked s) (e : Event (Letter α)) {frame : Frame α}
    (hframe : ∀ x, (s.socket x).accepted = false → frame.rest x = []) :
    Linked (s.dispatch side e frame) := by
  have hsocket : ∀ x, ((s.dispatch side e frame).socket x).readyState = (s.socket x).readyState ∧
      ((s.dispatch side e frame).socket x).accepted = (s.socket x).accepted ∧
      ((s.dispatch side e frame).socket x).eventQueue = (s.socket x).eventQueue := by
    refine (Side.forall_iff side).mpr ⟨?_, ?_⟩
    · simp [dispatch, Socket.dispatch]
    · simp [dispatch]
  refine ⟨?_, ?_, ?_, ?_, h.numbered⟩
  · intro x hx
    rw [(hsocket x).1] at hx
    rw [(hsocket x.peer).1]
    exact h.closed x hx
  · intro x hx
    rw [(hsocket x).1] at hx
    exact h.closing x hx
  · intro x hx
    rw [(hsocket x).2.1] at hx
    rw [(hsocket x).2.2]
    exact h.queue x hx
  · intro x hx
    rw [(hsocket x).2.1] at hx
    rw [flushes_dispatch, hframe x hx, h.flushing x hx]
    rfl

theorem linked_enqueue (h : Linked s) (e : Event (Letter α))
    (hside : (s.socket side).accepted = false) : Linked (s.modify side (·.enqueue e)) := by
  refine ⟨?_, ?_, ?_, ?_, h.numbered⟩
  · refine (Side.forall_iff side).mpr ⟨?_, ?_⟩
    · simpa [Socket.enqueue] using h.closed side
    · simpa [Socket.enqueue] using h.closed side.peer
  · refine (Side.forall_iff side).mpr ⟨?_, ?_⟩
    · simpa [Socket.enqueue] using h.closing side
    · simpa using h.closing side.peer
  · refine (Side.forall_iff side).mpr ⟨?_, ?_⟩
    · simp [Socket.enqueue, hside]
    · simpa using h.queue side.peer
  · refine (Side.forall_iff side).mpr ⟨?_, ?_⟩
    · exact fun _ => h.flushing side hside
    · rw [modify_socket_peer]
      exact h.flushing side.peer

theorem linked_dispatchOrQueue (h : Linked s) (e : Event (Letter α)) :
    Linked (s.dispatchOrQueue side e) := by
  unfold dispatchOrQueue
  split
  · exact linked_dispatch h e fun _ _ => rfl
  · next hside => exact linked_enqueue h e (Bool.not_eq_true _ ▸ hside)

/-- Steps that change only `readyState`. -/
theorem Linked.of_ready (h : Linked s)
    (hsame : ∀ x, (s'.socket x).accepted = (s.socket x).accepted ∧
      (s'.socket x).eventQueue = (s.socket x).eventQueue)
    (hstack : s'.stack = s.stack) (hsent : s'.sent = s.sent)
    (hclosed : ∀ x, (s'.socket x).readyState = .closed →
      (s'.socket x.peer).readyState = .closed ∨ s'.leaving x.peer = true)
    (hclosing : ∀ x, (s'.socket x).readyState = .closing → s'.leaving x = true) : Linked s' := by
  refine ⟨hclosed, hclosing, ?_, ?_, ?_⟩
  · intro x hx
    rw [(hsame x).1] at hx
    rw [(hsame x).2]
    exact h.queue x hx
  · intro x hx
    rw [(hsame x).1] at hx
    rw [flushes, hstack]
    exact h.flushing x hx
  · intro x y hy
    rw [hsent] at hy ⊢
    exact h.numbered x y hy

theorem setReady_same (r : Ready) (x : Side) :
    ((s.modify side (·.setReady r)).socket x).accepted = (s.socket x).accepted ∧
      ((s.modify side (·.setReady r)).socket x).eventQueue = (s.socket x).eventQueue := by
  revert x
  refine (Side.forall_iff side).mpr ⟨?_, ?_⟩ <;> simp [Socket.setReady]

theorem setReady_ready (r : Ready) (x : Side) :
    ((s.modify side (·.setReady r)).socket x).readyState =
      if x = side then r else (s.socket x).readyState := by
  revert x
  refine (Side.forall_iff side).mpr ⟨?_, ?_⟩ <;> simp [Socket.setReady]

/-- A side may be set to `closed` if its peer is, or leaves. -/
theorem linked_notifySelf (h : Linked s) (code : ℕ) (reason : String)
    (hpeer : (s.socket side.peer).readyState = .closed ∨ s.leaving side.peer = true) :
    Linked (s.notifySelf side code reason) := by
  refine linked_dispatchOrQueue (h.of_ready (setReady_same _) rfl rfl ?_ ?_) _
  · refine (Side.forall_iff side).mpr ⟨?_, ?_⟩
    · intro _
      simpa using hpeer
    · simp [Socket.setReady]
  · intro x hx
    rw [setReady_ready] at hx
    split at hx
    · cases hx
    · exact h.closing x hx

/-- Both sides may be set to `closed`. -/
theorem linked_closeBoth (h : Linked s) (code : ℕ) (reason : String) :
    Linked (s.closeBoth side code reason) := by
  have hboth : ∀ x, (((s.modify side.peer (·.setReady .closed)).modify side
      (·.setReady .closed)).socket x).readyState = .closed := by
    refine (Side.forall_iff side).mpr ⟨?_, ?_⟩ <;> simp [Socket.setReady]
  refine linked_dispatchOrQueue (s := (s.modify side.peer (·.setReady .closed)).modify side
    (·.setReady .closed)) (h.of_ready (fun x => ?_) rfl rfl ?_ ?_) _
  · exact ⟨(setReady_same _ x).1.trans (setReady_same _ x).1,
      (setReady_same _ x).2.trans (setReady_same _ x).2⟩
  · exact fun x _ => .inl (hboth x.peer)
  · intro x hx
    cases (hboth x).symm.trans hx

theorem leave_leaving (x : Side) :
    (s.leave side).leaving x = if x = side then true else s.leaving x :=
  Function.update_apply ..

theorem linked_leave (h : Linked s) : Linked (s.leave side) := by
  refine h.of_ready (setReady_same (s := s) _) rfl rfl ?_ ?_
  · refine (Side.forall_iff side).mpr ⟨?_, ?_⟩
    · simp [leave, Socket.setReady]
    · intro _
      rw [leave_leaving]
      simp
  · refine (Side.forall_iff side).mpr ⟨?_, ?_⟩
    · intro _
      rw [leave_leaving]
      simp
    · intro hx
      have hx : (s.socket side.peer).readyState = .closing := by simpa [leave] using hx
      rw [leave_leaving, if_neg side.peer_ne]
      exact h.closing _ hx

theorem linked_shut (h : Linked s) (code : ℕ) (reason : String) :
    Linked (s.shut side code reason) := by
  have hpeer : (s.leave side).socket side.peer = s.socket side.peer := by simp [leave]
  unfold shut
  split
  · next hover =>
      refine linked_notifySelf (linked_leave h) code reason ?_
      rw [hpeer, leave_leaving, if_neg side.peer_ne]
      exact hover.imp_right (h.closing _)
  · split
    · exact linked_dispatch (linked_leave h) _ fun _ _ => rfl
    · next hside =>
        refine linked_closeBoth (linked_enqueue (linked_leave h) _ ?_) code reason
        rw [hpeer]
        exact Bool.not_eq_true _ ▸ hside

theorem linked_flush (h : Linked s) (hside : (s.socket side).accepted = true)
    (l : List (Event (Letter α))) : Linked (s.flush side l) := by
  cases l with
  | nil => exact h
  | cons e rest =>
    refine linked_dispatch h e fun x hx => ?_
    rw [Frame.rest_flushing]
    split
    · next heq =>
        subst heq
        cases hside.symm.trans hx
    · rfl

theorem linked_accept (h : Linked s) : Linked (s.accept side) := by
  unfold accept
  split
  · exact h
  · next hside =>
      refine linked_flush ?_ (by simp [Socket.accept]) _
      refine ⟨?_, ?_, ?_, ?_, h.numbered⟩
      all_goals refine (Side.forall_iff side).mpr ⟨?_, ?_⟩
      · simpa [Socket.accept] using h.closed side
      · intro hclosed
        have hclosed : (s.socket side.peer).readyState = .closed := by simpa using hclosed
        have hor := h.closed side.peer hclosed
        simp only [Side.peer_peer, modify_socket_self, Socket.accept, modify_leaving] at hor ⊢
        exact hor.imp_left fun heq => by rw [if_pos heq]
      · intro hclosing
        simp only [modify_socket_self, Socket.accept] at hclosing
        split at hclosing <;> cases hclosing
      · simpa using h.closing side.peer
      · simp [Socket.accept]
      · simpa using h.queue side.peer
      · simp [Socket.accept]
      · rw [modify_socket_peer]
        exact h.flushing side.peer

theorem linked_logged (h : Linked s) (data : α) : Linked (s.logged side data) := by
  unfold logged
  split
  · exact h
  · refine ⟨h.closed, h.closing, h.queue, h.flushing, ?_⟩
    refine (Side.forall_iff side).mpr ⟨?_, ?_⟩
    · intro x hx
      simp only [Function.update_self] at hx ⊢
      rw [List.length_append, List.length_singleton]
      rcases List.mem_append.mp hx with hx | hx
      · have := h.numbered side x hx
        omega
      · obtain rfl := List.mem_singleton.mp hx
        exact Nat.lt_succ_self _
    · simpa using h.numbered side.peer

theorem linked_send (h : Linked s) (data : α) : Linked (s.send side data) := by
  unfold send
  split
  · exact h
  · split
    · exact linked_logged h data
    · exact linked_dispatchOrQueue (linked_logged h data) _

/-- The stack without its top. -/
theorem linked_pop (h : Linked s) {frame : Frame α} {rest : List (Frame α)}
    (hstack : s.stack = frame :: rest) : Linked { s with stack := rest } := by
  refine ⟨h.closed, h.closing, h.queue, ?_, h.numbered⟩
  intro x hx
  have hnil := h.flushing x hx
  rw [flushes, hstack, List.flatMap_cons] at hnil
  exact (List.append_eq_nil_iff.mp hnil).2

theorem linked_resume (h : Linked s) {frame : Frame α} {rest : List (Frame α)}
    (hstack : s.stack = frame :: rest) :
    Linked (Pair.resume { s with stack := rest } frame) := by
  have hpop := linked_pop h hstack
  cases frame with
  | dispatching => exact hpop
  | closing side code reason => exact linked_closeBoth hpop code reason
  | flushing side l =>
    cases l with
    | nil => exact hpop
    | cons e l =>
      refine linked_flush (s := { s with stack := rest }) hpop ?_ (e :: l)
      by_contra hside
      have hnil := h.flushing side (Bool.not_eq_true _ ▸ hside)
      rw [flushes, hstack, List.flatMap_cons] at hnil
      have hnil := (List.append_eq_nil_iff.mp hnil).1
      rw [Frame.rest_flushing, if_pos rfl] at hnil
      cases hnil

/-- **The states and the queues of the two sides** in every run. -/
theorem linked_of_step (h : Linked s) (hstep : step s a = some s') : Linked s' := by
  cases a with
  | accept side =>
    obtain rfl := Option.some.inj hstep
    exact linked_accept h
  | send side data =>
    obtain rfl := Option.some.inj hstep
    exact linked_send h data
  | close side code reason =>
    obtain rfl := Option.some.inj hstep
    unfold close
    split
    · exact h
    · exact linked_shut h _ _
  | returns =>
    obtain ⟨frame, rest, hstack, rfl⟩ := returns_cases hstep
    exact linked_resume h hstack
  | throws =>
    obtain ⟨frame, rest, hstack, rfl⟩ := throws_cases hstep
    exact linked_pop h hstack

/-! ### Messages -/

@[simp] theorem kept_append (l l' : List (Event (Letter α))) :
    kept (l ++ l') = kept l ++ kept l' :=
  List.filterMap_append ..

theorem kept_singleton (e : Event (Letter α)) : kept [e] = e.numbered.toList := by
  cases h : e.numbered <;> simp [kept, h]

theorem kept_cons (e : Event (Letter α)) (l : List (Event (Letter α))) :
    kept (e :: l) = e.numbered.toList ++ kept l := by
  rw [← kept_singleton, ← kept_append, List.singleton_append]

/-- The first part of an order. -/
def Balanced (s : Pair α) : Prop :=
  ∀ side, s.ledger side = s.sent side.peer

/-- Nothing is pending for an accepted side once no listener runs. -/
theorem inOrder_iff_balanced (h : Linked s) : InOrder s ↔ Balanced s := by
  constructor
  · exact fun horder side => (horder side).1
  · intro hbalanced side
    refine ⟨hbalanced side, fun haccepted hstack => ?_⟩
    have hpending : s.pending side = [] := by
      rw [pending, h.queue side haccepted, flushes, hstack]
      rfl
    have hledger := hbalanced side
    rw [ledger, hpending] at hledger
    simpa [kept] using hledger

theorem ledger_modify (f : Socket (Letter α) → Socket (Letter α))
    (hreceived : (f (s.socket side)).received = (s.socket side).received)
    (hqueue : (f (s.socket side)).eventQueue = (s.socket side).eventQueue) (x : Side) :
    (s.modify side f).ledger x = s.ledger x := by
  revert x
  refine (Side.forall_iff side).mpr ⟨?_, ?_⟩
  · rw [ledger, ledger, pending, pending, modify_socket_self, hreceived, hqueue]
    rfl
  · rw [ledger, ledger, pending, pending, modify_socket_peer]
    rfl

/-- An event dispatched, with the frame's rest before what is pending. -/
theorem ledger_dispatch_self (e : Event (Letter α)) (frame : Frame α) :
    (s.dispatch side e frame).ledger side = kept (s.socket side).received ++ (e.numbered.toList ++
      (kept (frame.rest side) ++ kept (s.pending side))) := by
  rw [ledger, pending, flushes_dispatch]
  simp [dispatch, Socket.dispatch, pending, kept_singleton]

variable (side) in
theorem ledger_dispatch_peer (e : Event (Letter α)) (frame : Frame α)
    (hframe : frame.rest side.peer = []) :
    (s.dispatch side e frame).ledger side.peer = s.ledger side.peer := by
  rw [ledger, pending, flushes_dispatch, hframe, ledger, pending]
  simp [dispatch]

theorem ledger_enqueue_self (e : Event (Letter α)) :
    (s.modify side (·.enqueue e)).ledger side = s.ledger side ++ e.numbered.toList := by
  rw [ledger, pending, flushes_modify, ledger, pending, ← kept_singleton]
  simp [Socket.enqueue]

variable (side) in
theorem ledger_enqueue_peer (e : Event (Letter α)) :
    (s.modify side (·.enqueue e)).ledger side.peer = s.ledger side.peer := by
  rw [ledger, pending, flushes_modify, ledger, pending]
  simp

/-- An event that is no message sent before closing. -/
theorem balanced_dispatchOrQueue (h : Balanced s) {e : Event (Letter α)}
    (he : e.numbered = none) : Balanced (s.dispatchOrQueue side e) := by
  refine (Side.forall_iff side).mpr ⟨?_, ?_⟩
  · rw [dispatchOrQueue]
    split
    · rw [ledger_dispatch_self, he]
      exact h side
    · rw [ledger_enqueue_self, he, Option.toList, List.append_nil]
      exact h side
  · rw [dispatchOrQueue]
    split
    · rw [ledger_dispatch_peer _ _ _ rfl]
      exact h side.peer
    · rw [ledger_enqueue_peer]
      exact h side.peer

theorem balanced_setReady (h : Balanced s) (r : Ready) :
    Balanced (s.modify side (·.setReady r)) := fun x =>
  (ledger_modify (·.setReady r) rfl rfl x).trans (h x)

theorem balanced_closeBoth (h : Balanced s) (code : ℕ) (reason : String) :
    Balanced (s.closeBoth side code reason) :=
  balanced_dispatchOrQueue (balanced_setReady (balanced_setReady h _) _) rfl

theorem balanced_shut (h : Balanced s) (code : ℕ) (reason : String) :
    Balanced (s.shut side code reason) := by
  have hleave : Balanced (s.leave side) := balanced_setReady h .closing
  unfold shut
  split
  · exact balanced_dispatchOrQueue (balanced_setReady hleave _) rfl
  · split
    · refine (Side.forall_iff side.peer).mpr ⟨?_, ?_⟩
      · rw [ledger_dispatch_self]
        exact hleave side.peer
      · rw [ledger_dispatch_peer _ _ _ rfl]
        exact hleave side.peer.peer
    · refine balanced_closeBoth ?_ code reason
      refine (Side.forall_iff side.peer).mpr ⟨?_, ?_⟩
      · rw [ledger_enqueue_self, Event.numbered, Option.toList, List.append_nil]
        exact hleave side.peer
      · rw [ledger_enqueue_peer]
        exact hleave side.peer.peer

variable (side) in
/-- A flush of events that are taken from the front of what is pending. -/
theorem ledger_flush (l : List (Event (Letter α))) :
    (s.flush side l).ledger side =
        kept (s.socket side).received ++ (kept l ++ kept (s.pending side)) ∧
      (s.flush side l).ledger side.peer = s.ledger side.peer := by
  cases l with
  | nil => exact ⟨rfl, rfl⟩
  | cons e rest =>
    constructor
    · rw [flush, ledger_dispatch_self, Frame.rest_flushing, if_pos rfl, kept_cons,
        List.append_assoc]
    · rw [flush, ledger_dispatch_peer]
      rw [Frame.rest_flushing, if_neg side.ne_peer]

theorem flush_sent (l : List (Event (Letter α))) : (s.flush side l).sent = s.sent := by
  cases l <;> rfl

theorem balanced_accept (h : Balanced s) (hlinked : Linked s) : Balanced (s.accept side) := by
  unfold accept
  split
  · exact h
  · next hside =>
      have hflushes := hlinked.flushing side (Bool.not_eq_true _ ▸ hside)
      have hflush := ledger_flush (s := s.modify side (·.accept)) side
        (s.socket side).eventQueue
      refine (Side.forall_iff side).mpr ⟨?_, ?_⟩
      · rw [flush_sent, hflush.1, pending, flushes_modify, hflushes]
        simp only [modify_socket_self, Socket.accept, List.append_nil, modify_sent]
        have hside := h side
        rw [ledger, pending, hflushes] at hside
        simpa [kept] using hside
      · rw [flush_sent, hflush.2, ledger, pending, flushes_modify]
        simpa [ledger, pending] using h side.peer

theorem balanced_resume (h : Balanced s) {frame : Frame α} {rest : List (Frame α)}
    (hstack : s.stack = frame :: rest) :
    Balanced (Pair.resume { s with stack := rest } frame) := by
  have hledger : ∀ x, s.ledger x = kept (s.socket x).received ++ (kept (frame.rest x) ++
      kept (Pair.pending { s with stack := rest } x)) := by
    intro x
    rw [ledger, pending, flushes, hstack, List.flatMap_cons, List.append_assoc, kept_append]
    rfl
  have hpop : (∀ x, frame.rest x = []) → Balanced { s with stack := rest } := by
    intro hframe x
    have hx := hledger x
    rw [hframe x] at hx
    exact hx.symm.trans (h x)
  cases frame with
  | dispatching => exact hpop fun _ => rfl
  | closing side code reason => exact balanced_closeBoth (hpop fun _ => rfl) code reason
  | flushing side l =>
    have hflush := ledger_flush (s := { s with stack := rest }) side l
    refine (Side.forall_iff side).mpr ⟨?_, ?_⟩
    · rw [resume, flush_sent, hflush.1]
      have hside := hledger side
      rw [Frame.rest_flushing, if_pos rfl] at hside
      exact hside.symm.trans (h side)
    · rw [resume, flush_sent, hflush.2]
      have hpeer := hledger side.peer
      rw [Frame.rest_flushing, if_neg side.ne_peer] at hpeer
      exact hpeer.symm.trans (h side.peer)

/-- A message with a number that none of the others has keeps its place only if there are none. -/
theorem append_comm_iff {x : ℕ × α} {l : List (ℕ × α)} (hx : ∀ y ∈ l, y.1 ≠ x.1) :
    x :: l = l ++ [x] ↔ l = [] := by
  constructor
  · intro heq
    cases l with
    | nil => rfl
    | cons y l =>
      rw [List.cons_append] at heq
      obtain ⟨rfl, -⟩ := List.cons.inj heq
      exact absurd rfl (hx _ List.mem_cons_self)
  · rintro rfl
    rfl

theorem ledger_logged (data : α) (x : Side) : (s.logged side data).ledger x = s.ledger x := by
  unfold logged
  split <;> rfl

theorem logged_socket (data : α) : (s.logged side data).socket = s.socket := by
  unfold logged
  split <;> rfl

theorem logged_stack (data : α) : (s.logged side data).stack = s.stack := by
  unfold logged
  split <;> rfl

theorem logged_sent_peer (data : α) : (s.logged side data).sent side.peer = s.sent side.peer := by
  unfold logged
  split
  · rfl
  · exact Function.update_of_ne side.peer_ne ..

theorem logged_sent_self (hleaving : s.leaving side = false) (data : α) :
    (s.logged side data).sent side = s.sent side ++ [((s.sent side).length, data)] := by
  rw [logged, if_neg (by simp [hleaving])]
  exact Function.update_self ..

theorem dispatchOrQueue_sent (e : Event (Letter α)) :
    (s.dispatchOrQueue side e).sent = s.sent := by
  unfold dispatchOrQueue
  split <;> rfl

/-- A message with the next number comes before what is left of the peer's flush, or it is queued
and there is no flush. -/
theorem ledger_send (hlinked : Linked s) (hleaving : s.leaving side = false) (data : α) :
    (s.ledger side.peer =
        kept (s.socket side.peer).received ++ kept (s.flushes side.peer) ∧
      ((s.logged side data).dispatchOrQueue side.peer (.message (s.letter side data))).ledger
          side.peer =
        kept (s.socket side.peer).received ++
          ((s.sent side).length, data) :: kept (s.flushes side.peer)) ∨
    (s.flushes side.peer = [] ∧
      ((s.logged side data).dispatchOrQueue side.peer (.message (s.letter side data))).ledger
          side.peer = s.ledger side.peer ++ [((s.sent side).length, data)]) := by
  have hletter : s.letter side data = ⟨some (s.sent side).length, data⟩ := by
    rw [letter, hleaving]
    rfl
  rw [hletter]
  unfold dispatchOrQueue
  split
  · next haccepted =>
      rw [logged_socket] at haccepted
      have hqueue := hlinked.queue _ haccepted
      refine .inl ⟨?_, ?_⟩
      · rw [ledger, pending, hqueue, List.append_nil]
      · rw [ledger_dispatch_self, pending, flushes, logged_socket, logged_stack, hqueue,
          List.append_nil]
        rfl
  · next haccepted =>
      rw [logged_socket] at haccepted
      refine .inr ⟨hlinked.flushing side.peer (Bool.not_eq_true _ ▸ haccepted), ?_⟩
      rw [ledger_enqueue_self, ledger_logged]
      rfl

/-- **A message is sent in order** exactly if nothing is left of the peer's flush. -/
theorem balanced_send_iff (h : Balanced s) (hlinked : Linked s) (data : α) :
    Balanced (s.send side data) ↔ Unhurried s (.send side data) := by
  show _ ↔ ((s.socket side).readyState = .opened → s.leaving side = false →
    (kept (s.flushes side.peer)).isEmpty = true)
  unfold send
  split
  · next hopen => exact iff_of_true h fun h => absurd h hopen
  · next hopen =>
      have hopen : (s.socket side).readyState = .opened := Decidable.not_not.mp hopen
      cases hleaving : s.leaving side with
      | true =>
        have hlogged : s.logged side data = s := if_pos hleaving
        have hnone : Event.numbered (.message (s.letter side data)) = none := by
          rw [letter, hleaving]
          rfl
        rw [hlogged]
        refine iff_of_true ?_ fun _ h => by cases h
        split
        · exact h
        · exact balanced_dispatchOrQueue h hnone
      | false =>
        have hpeer : (s.socket side.peer).readyState ≠ .closed := by
          intro hclosed
          have hor := hlinked.closed side.peer hclosed
          rw [Side.peer_peer, hopen, hleaving] at hor
          cases hor <;> contradiction
        have hself : ((s.logged side data).dispatchOrQueue side.peer
            (.message (s.letter side data))).ledger side = s.sent side.peer := by
          rw [← h side, ← ledger_logged (s := s) data]
          rw [dispatchOrQueue]
          split
          · have := ledger_dispatch_peer (s := s.logged side data) side.peer
              (.message (s.letter side data)) .dispatching rfl
            rwa [Side.peer_peer] at this
          · have := ledger_enqueue_peer (s := s.logged side data) side.peer
              (.message (s.letter side data))
            rwa [Side.peer_peer] at this
        have hledger : s.ledger side.peer = s.sent side := by
          have := h side.peer
          rwa [Side.peer_peer] at this
        rw [if_neg hpeer, Balanced, Side.forall_iff side, dispatchOrQueue_sent, logged_sent_peer,
          Side.peer_peer, logged_sent_self hleaving, and_iff_right hself]
        rcases ledger_send hlinked hleaving data with ⟨hflush, hovertakes⟩ | ⟨hflushes, hqueued⟩
        · have hnew : ∀ y ∈ kept (s.flushes side.peer), y.1 ≠ (s.sent side).length := by
            intro y hy
            have hmem : y ∈ s.sent side := hledger ▸ hflush ▸ List.mem_append_right _ hy
            exact Nat.ne_of_lt (hlinked.numbered side y hmem)
          rw [hovertakes, ← hledger, hflush, List.append_assoc, List.append_cancel_left_eq,
            ← hflush, hledger, append_comm_iff hnew]
          simp [hopen]
        · rw [hqueued, hledger, hflushes]
          exact iff_of_true rfl fun _ _ => rfl

/-- A listener that throws takes away what its `accept` has left. -/
theorem balanced_throws_iff (h : Balanced s) {frame : Frame α} {rest : List (Frame α)}
    (hstack : s.stack = frame :: rest) :
    Balanced { s with stack := rest } ↔ Unhurried s .throws := by
  have hledger : ∀ x, s.sent x.peer = kept (s.socket x).received ++ (kept (frame.rest x) ++
      kept (Pair.pending { s with stack := rest } x)) := by
    intro x
    rw [← h x, ledger, pending, flushes, hstack, List.flatMap_cons, List.append_assoc, kept_append]
    rfl
  have hside : ∀ x, Pair.ledger { s with stack := rest } x = s.sent x.peer ↔
      (kept (frame.rest x)).isEmpty = true := by
    intro x
    rw [hledger x, List.isEmpty_iff]
    show kept (s.socket x).received ++ kept (Pair.pending { s with stack := rest } x) = _ ↔ _
    rw [List.append_cancel_left_eq]
    constructor
    · intro heq
      have hlength := congrArg List.length heq
      rw [List.length_append] at hlength
      exact List.eq_nil_of_length_eq_zero (by omega)
    · intro hnil
      rw [hnil]
      rfl
  have hguard : Unhurried s .throws ↔ (kept (frame.rest .first)).isEmpty = true ∧
      (kept (frame.rest .second)).isEmpty = true := by
    rw [Unhurried, hstack]
    simp
  rw [hguard, Balanced, Side.forall_iff .first]
  exact and_congr (hside .first) (hside .second)

/-- **Order of messages.** Take any run of calls of `accept`, `send` and `close` on the two sides,
from outside and from listeners while these run, with listeners that return or throw. In every
state of it each side has received, or has in its queue, the messages its peer has sent before
closing, once each and in order, if and only if nothing is sent to a side whose `accept` has messages
left to dispatch and no listener throws there. -/
theorem inOrder_iff {as : List (Label α)} :
    Throughout step InOrder ({} : Pair α) as ↔ Along step Unhurried ({} : Pair α) as := by
  refine throughout_iff_along (J := Linked) linked_init
    ((inOrder_iff_balanced linked_init).mpr fun _ => rfl)
    (fun x a y hx _ hstep => linked_of_step hx hstep) ?_
  intro x a y hx horder hstep
  have hbalanced := (inOrder_iff_balanced hx).mp horder
  rw [inOrder_iff_balanced (linked_of_step hx hstep)]
  cases a with
  | accept side =>
      obtain rfl := Option.some.inj hstep
      exact iff_of_true (balanced_accept hbalanced hx) trivial
  | send side data =>
      obtain rfl := Option.some.inj hstep
      exact balanced_send_iff hbalanced hx data
  | close side code reason =>
      obtain rfl := Option.some.inj hstep
      refine iff_of_true ?_ trivial
      unfold close
      split
      · exact hbalanced
      · exact balanced_shut hbalanced _ _
  | returns =>
      obtain ⟨frame, rest, hstack, rfl⟩ := returns_cases hstep
      exact iff_of_true (balanced_resume hbalanced hstack) trivial
  | throws =>
      obtain ⟨frame, rest, hstack, rfl⟩ := throws_cases hstep
      exact balanced_throws_iff hbalanced hstack

/-- The second side has two messages in its queue when it is accepted. Its listener answers the
first, and the listener of that answer sends a third one. -/
def overtaking : List (Label ℕ) :=
  [.accept .first, .send .first 1, .send .first 2, .accept .second, .send .second 10, .send .first 3]

/-- The third message is received before the second. -/
theorem not_inOrder : ¬ ∀ s, Reaches step unguarded ({} : Pair ℕ) s → InOrder s := by
  intro hall
  have hrun : (play (restrict step unguarded) ({} : Pair ℕ) overtaking).any (fun s =>
      decide (s.ledger .second ≠ s.sent .first)) = true := by
    decide
  obtain ⟨s, hreach, hs⟩ := exists_reaches_of_play hrun
  exact of_decide_eq_true hs ((hall s hreach .second).1)

end Lopata.WebSocket
