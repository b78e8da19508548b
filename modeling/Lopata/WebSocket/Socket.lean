import Mathlib.Data.Nat.Notation

/-!
# Sockets

A `CFWebSocket` queues its events until it is accepted. Its `readyState` says what its own methods
may do; events reach its listeners whatever it is.
-/

namespace Lopata.WebSocket

/-- `readyState`. -/
inductive Ready
  | connecting
  | opened
  | closing
  | closed
deriving DecidableEq

/-- `WSEvent`; no method dispatches its other types, and `wasClean` is true in every close event. -/
inductive Event (μ : Type*)
  | message (data : μ)
  | close (code : ℕ) (reason : String)

structure Socket (μ : Type*) where
  readyState : Ready := .connecting
  accepted : Bool := false
  eventQueue : List (Event μ) := []
  /-- The events dispatched to its listeners. -/
  received : List (Event μ) := []

variable {μ : Type*}

def Event.isClose : Event μ → Bool
  | .message _ => false
  | .close _ _ => true

namespace Socket

variable (x : Socket μ)

/-- The first test of `close`. -/
def Over : Prop := x.readyState = .closed ∨ x.readyState = .closing

instance : Decidable x.Over :=
  inferInstanceAs (Decidable (_ ∨ _))

/-- A close event has been dispatched to its listeners. -/
def Told : Prop := ∃ e ∈ x.received, e.isClose = true

instance : Decidable x.Told :=
  inferInstanceAs (Decidable (∃ e ∈ x.received, _))

/-- What `accept` does before it flushes the queue. -/
def accept : Socket μ :=
  { x with
    accepted := true
    readyState := if x.readyState = .closed then .closed else .opened
    eventQueue := [] }

def dispatch (e : Event μ) : Socket μ :=
  { x with received := x.received ++ [e] }

def enqueue (e : Event μ) : Socket μ :=
  { x with eventQueue := x.eventQueue ++ [e] }

def setReady (r : Ready) : Socket μ :=
  { x with readyState := r }

end Socket

end Lopata.WebSocket
