import Mathlib.Logic.Function.Basic
import Lopata.Lib.Machine
import Lopata.WebSocket.Socket

/-!
# Linked Sockets

The listeners of an event run in the middle of the method that dispatches it, and may call the
methods of both sides of a `WebSocketPair`. The methods that wait for listeners are on a stack: the
frame of a method is what it does when they return. A listener that throws takes the frame away, and
its caller can go on.

An event counts as received when it is dispatched.
-/

namespace Lopata.WebSocket

/-- `pair[0]` and `pair[1]`. -/
inductive Side
  | first
  | second
deriving DecidableEq

def Side.peer : Side → Side
  | .first => .second
  | .second => .first

/-- A message with its number among those its side has sent before closing. One that is sent after
the socket was closed, and opened again, has no number. -/
structure Letter (α : Type*) where
  number : Option ℕ
  data : α

/-- What a method does when the listeners return. -/
inductive Frame (α : Type*)
  /-- Nothing. -/
  | dispatching
  /-- `accept` goes on to dispatch the queue. -/
  | flushing (side : Side) (rest : List (Event (Letter α)))
  /-- `close` has notified the peer, and closes both sides. -/
  | closing (side : Side) (code : ℕ) (reason : String)

structure Pair (α : Type*) where
  socket : Side → Socket (Letter α) := fun _ => {}
  stack : List (Frame α) := []
  /-- The messages each side has sent before closing, with their numbers. -/
  sent : Side → List (ℕ × α) := fun _ => []
  /-- `close()` has been called on a side. -/
  leaving : Side → Bool := fun _ => false

/-- A call of a method, by the program or by the listeners that run; these return; they throw. -/
inductive Label (α : Type*)
  | accept (side : Side)
  | send (side : Side) (data : α)
  | close (side : Side) (code : Option ℕ) (reason : Option String)
  | returns
  | throws

variable {α : Type*}

namespace Pair

variable (s : Pair α) (side : Side)

def modify (f : Socket (Letter α) → Socket (Letter α)) : Pair α :=
  { s with socket := Function.update s.socket side (f (s.socket side)) }

/-- `_dispatchWSEvent`: the listeners run, and the method goes on with its frame. -/
def dispatch (e : Event (Letter α)) (frame : Frame α) : Pair α :=
  { s.modify side (·.dispatch e) with stack := frame :: s.stack }

def dispatchOrQueue (e : Event (Letter α)) : Pair α :=
  if (s.socket side).accepted then s.dispatch side e .dispatching
  else s.modify side (·.enqueue e)

/-- The loop of `accept`. -/
def flush : List (Event (Letter α)) → Pair α
  | [] => s
  | e :: rest => s.dispatch side e (.flushing side rest)

def accept : Pair α :=
  if (s.socket side).accepted then s
  else (s.modify side (·.accept)).flush side (s.socket side).eventQueue

/-- A call of `send` that does not throw. -/
def logged (data : α) : Pair α :=
  if s.leaving side then s
  else
    { s with
      sent := Function.update s.sent side
        (s.sent side ++ [((s.sent side).length, data)]) }

def letter (data : α) : Letter α :=
  ⟨if s.leaving side then none else some (s.sent side).length, data⟩

/-- A side that is not open throws. -/
def send (data : α) : Pair α :=
  if (s.socket side).readyState ≠ .opened then s
  else if (s.socket side.peer).readyState = .closed then s.logged side data
  else (s.logged side data).dispatchOrQueue side.peer (.message (s.letter side data))

/-- The end of `close`: the side itself is notified. -/
def notifySelf (code : ℕ) (reason : String) : Pair α :=
  (s.modify side (·.setReady .closed)).dispatchOrQueue side (.close code reason)

/-- What `close` does once the peer is notified. -/
def closeBoth (code : ℕ) (reason : String) : Pair α :=
  (s.modify side.peer (·.setReady .closed)).notifySelf side code reason

/-- The start of `close`. -/
def leave : Pair α :=
  { s.modify side (·.setReady .closing) with leaving := Function.update s.leaving side true }

/-- `close` of a socket that is not closed or closing. -/
def shut (code : ℕ) (reason : String) : Pair α :=
  if (s.socket side.peer).Over then (s.leave side).notifySelf side code reason
  else if (s.socket side.peer).accepted then
    (s.leave side).dispatch side.peer (.close code reason) (.closing side code reason)
  else
    ((s.leave side).modify side.peer (·.enqueue (.close code reason))).closeBoth side code
      reason

def close (code : Option ℕ) (reason : Option String) : Pair α :=
  if (s.socket side).Over then s else s.shut side (code.getD 1000) (reason.getD "")

/-- The method on top of the stack goes on. -/
def resume : Frame α → Pair α
  | .dispatching => s
  | .flushing side rest => s.flush side rest
  | .closing side code reason => s.closeBoth side code reason

end Pair

/-- One step of a run. -/
def step (s : Pair α) : Label α → Option (Pair α)
  | .accept side => some (s.accept side)
  | .send side data => some (s.send side data)
  | .close side code reason => some (s.close side code reason)
  | .returns =>
      match s.stack with
      | [] => none
      | frame :: rest => some (Pair.resume { s with stack := rest } frame)
  | .throws =>
      match s.stack with
      | [] => none
      | _ :: rest => some { s with stack := rest }

/-! ### Sides -/

@[simp] theorem Side.peer_peer (side : Side) : side.peer.peer = side := by
  cases side <;> rfl

@[simp] theorem Side.peer_ne (side : Side) : side.peer ≠ side := by
  cases side <;> decide

@[simp] theorem Side.ne_peer (side : Side) : side ≠ side.peer := side.peer_ne.symm

/-- The sides of a pair, seen from one of them. -/
theorem Side.forall_iff {P : Side → Prop} (side : Side) :
    (∀ x, P x) ↔ P side ∧ P side.peer := by
  constructor
  · exact fun h => ⟨h side, h side.peer⟩
  · rintro ⟨hself, hpeer⟩ x
    cases side <;> cases x <;> assumption

namespace Pair

variable (s : Pair α) (side : Side) (f : Socket (Letter α) → Socket (Letter α))

@[simp] theorem modify_socket_self : (s.modify side f).socket side = f (s.socket side) :=
  Function.update_self ..

@[simp] theorem modify_socket_peer : (s.modify side f).socket side.peer = s.socket side.peer :=
  Function.update_of_ne side.peer_ne ..

@[simp] theorem modify_peer_socket : (s.modify side.peer f).socket side = s.socket side :=
  Function.update_of_ne side.ne_peer ..

@[simp] theorem modify_stack : (s.modify side f).stack = s.stack := rfl

@[simp] theorem modify_sent : (s.modify side f).sent = s.sent := rfl

@[simp] theorem modify_leaving : (s.modify side f).leaving = s.leaving := rfl

end Pair

/-! ### Steps -/

variable {s s' : Pair α}

theorem returns_cases (h : step s .returns = some s') :
    ∃ frame rest, s.stack = frame :: rest ∧ s' = Pair.resume { s with stack := rest } frame := by
  cases hstack : s.stack with
  | nil =>
    rw [step, hstack] at h
    cases h
  | cons frame rest =>
    rw [step, hstack] at h
    exact ⟨frame, rest, rfl, (Option.some.inj h).symm⟩

theorem throws_cases (h : step s .throws = some s') :
    ∃ frame rest, s.stack = frame :: rest ∧ s' = { s with stack := rest } := by
  cases hstack : s.stack with
  | nil =>
    rw [step, hstack] at h
    cases h
  | cons frame rest =>
    rw [step, hstack] at h
    exact ⟨frame, rest, rfl, (Option.some.inj h).symm⟩

end Lopata.WebSocket
