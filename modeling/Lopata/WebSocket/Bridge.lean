import Lopata.WebSocket.Duplex

/-!
# Bridged Sockets

The two sides of a bridged socket live on different threads. One thread has a linked pair and ships
one half of it: the listeners of that half post its events to the other thread, which builds a
socket of its own with a peer that posts back. Either thread can be the one with the pair: a worker
that returns a socket in a response, which the host registers; or the host, which adopts a socket it
got from a binding, for which the worker creates one.

Both ends keep what they know by the id of the socket; this is the state of one id. The set of
forgotten ids is bounded, so other sockets can make an end forget at any time that it has forgotten
this one. Listeners do not call methods, and the half that is shipped was not accepted before.
-/

namespace Lopata.WebSocket

variable {α : Type*}

namespace Socket

variable (x : Socket α) (ev : Event α)

def dispatchOrQueue : Socket α :=
  if x.accepted then x.dispatch ev else x.enqueue ev

/-- `accept()`, whose listeners call no methods. -/
def acceptAll : Socket α :=
  if x.accepted then x else { x.accept with received := x.received ++ x.eventQueue }

/-- A socket that is closed is set so before its listeners run. -/
def shut : Socket α :=
  (x.setReady .closed).dispatchOrQueue ev

end Socket

/-- The thread that has the pair. -/
inductive Wiring
  /-- `WsGuestBridge.register` of a shipped half, and `WsHostBridge.register`. -/
  | fromGuest
  /-- `WsHostBridge.adoptExisting` with `bridgeEvents`, and `createBridgedSocket`. -/
  | fromHost
deriving DecidableEq

def Wiring.origin : Wiring → End
  | .fromGuest => .guest
  | .fromHost => .host

/-- What a thread has for the id. -/
structure Station (α : Type*) where
  /-- The socket the program uses. -/
  user : Socket α := {}
  /-- `_sockets` has the id. -/
  entry : Bool := false
  /-- `_pendingEvents`. -/
  pending : List (Event α) := []
  /-- `_forgotten` has the id. -/
  forgotten : Bool := false
  /-- What the other thread has posted. -/
  incoming : List (Event α) := []
  /-- What the program has sent, and its close. -/
  posted : List (Event α) := []
  left : Bool := false

namespace Station

variable (x : Station α) (ev : Event α)

def forget : Station α :=
  { x with entry := false, pending := [], forgotten := true }

def bufferPending : Station α :=
  if x.forgotten then x else { x with pending := x.pending ++ [ev] }

def arrive : Station α :=
  { x with incoming := x.incoming ++ [ev] }

def log : Station α :=
  { x with posted := x.posted ++ [ev], left := x.left || ev.isClose }

/-- `deliverClientMessage` and `deliverClientClose`; for a registered socket also
`deliverRemoteMessage` and `deliverRemoteClose`. -/
def deliver : Station α :=
  if x.entry then
    if ev.isClose then { x with user := x.user.shut ev }.forget
    else { x with user := x.user.dispatchOrQueue ev }
  else x.bufferPending ev

/-- `WsHostBridge.register`. -/
def register : Station α :=
  let y := { x with
    entry := true
    user := { x.user with eventQueue := x.user.eventQueue ++ x.pending }
    pending := [] }
  if x.pending.any Event.isClose then { y with user := y.user.setReady .closed }.forget else y

/-- `createBridgedSocket`: the pending events are delivered again. -/
def createBridgedSocket : Station α :=
  x.pending.foldl deliver { x with entry := true, pending := [] }

/-- The socket on the thread that has not got the pair. -/
def build : Wiring → Station α → Station α
  | .fromGuest => register
  | .fromHost => createBridgedSocket

end Station

structure Bridge (α : Type*) where
  station : End → Station α := fun _ => {}
  /-- The half that is shipped or adopted. -/
  half : Socket α := {}
  /-- `readyState` of the peer of the socket that is built on the other thread. -/
  peerReady : Ready := .opened
  shipped : Bool := false
  created : Bool := false
  disposed : Bool := false

/-- The program accepts, sends and closes; a half is shipped or adopted; the other thread builds its
socket; the next event that was posted is delivered; the host disposes of its bridge; an id leaves
the set of the forgotten ones. -/
inductive Bridge.Label (α : Type*)
  | accept (e : End)
  | send (e : End) (data : α)
  | close (e : End) (code : Option ℕ) (reason : Option String)
  | ship
  | create
  | deliver (e : End)
  | dispose
  | evict (e : End)

namespace Bridge

variable (w : Wiring) (s : Bridge α)

def modify (e : End) (f : Station α → Station α) : Bridge α :=
  { s with station := Function.update s.station e (f (s.station e)) }

/-- An end has its socket. -/
def Present (e : End) : Prop :=
  e = w.origin ∨ s.created = true

instance (e : End) : Decidable (s.Present w e) :=
  inferInstanceAs (Decidable (_ ∨ _))

/-- A post; the id is forgotten with a close event. -/
def relay (e : End) (ev : Event α) : Bridge α :=
  let s' := s.modify e.other (·.arrive ev)
  if ev.isClose then s'.modify e (·.forget) else s'

/-- An event for the half that is shipped: its listeners relay it. -/
def toHalf (e : End) (ev : Event α) : Bridge α :=
  if s.half.accepted then s.relay e ev else { s with half := s.half.enqueue ev }

/-- An event for the peer of the socket that was built: `BridgeWebSocketPeer` on the host,
`BridgeGuestPeer` on the guest. -/
def toPeer (e : End) (ev : Event α) : Bridge α :=
  if w = .fromGuest ∧ (s.peerReady = .closed ∨ (ev.isClose = false ∧ s.peerReady ≠ .opened)) then s
  else s.relay e ev

/-- What `send` does with the peer. -/
def sendPeer (e : End) (ev : Event α) : Bridge α :=
  if e = w.origin then
    if s.half.readyState = .closed then s else s.toHalf e ev
  else if s.peerReady = .closed then s
  else s.toPeer w e ev

def send (e : End) (data : α) : Bridge α :=
  if (s.station e).user.readyState ≠ .opened then s
  else (s.sendPeer w e (.message data)).modify e (·.log (.message data))

/-- What `close` does with the peer. -/
def closePeer (e : End) (ev : Event α) : Bridge α :=
  if e = w.origin then
    if s.half.Over then s else { s.toHalf e ev with half := (s.toHalf e ev).half.setReady .closed }
  else if s.peerReady = .closed ∨ s.peerReady = .closing then s
  else { s.toPeer w e ev with peerReady := .closed }

def close (e : End) (code : Option ℕ) (reason : Option String) : Bridge α :=
  let ev : Event α := .close (code.getD 1000) (reason.getD "")
  if (s.station e).user.Over then s
  else
    (s.closePeer w e ev).modify e fun x => { x.log ev with user := x.user.shut ev }

/-- `WsGuestBridge.register` and `adoptExisting`: `accept()` flushes the queue of the half. -/
def ship : Option (Bridge α) :=
  if s.shipped || (w = .fromHost && s.disposed) then none
  else
    some (s.half.eventQueue.foldl (·.relay w.origin ·)
      { s.modify w.origin (fun x => { x with entry := true }) with
        half := s.half.acceptAll
        shipped := true })

/-- `WsHostBridge.register` and `createBridgedSocket`. -/
def create : Option (Bridge α) :=
  if s.created || !s.shipped || (w = .fromGuest && s.disposed) then none
  else
    some { s.modify w.origin.other (Station.build w) with created := true }

/-- `close` of an adopted half: the program's socket is its peer, and its listeners relay. -/
def closeAdopted (ev : Event α) : Bridge α :=
  if s.half.Over then s
  else
    relay
      { s.modify .host (fun x => if x.user.Over then x else { x with user := x.user.shut ev }) with
        half := s.half.setReady .closed }
      .host ev

/-- `deliverRemoteMessage` and `deliverRemoteClose` for an adopted half. -/
def deliverAdopted (ev : Event α) : Bridge α :=
  if (s.station .host).entry then
    if ev.isClose then (s.closeAdopted ev).modify .host (·.forget)
    else if s.half.readyState ≠ .opened ∨ (s.station .host).user.readyState = .closed then s
    else s.modify .host fun x => { x with user := x.user.dispatchOrQueue ev }
  else s.modify .host (·.bufferPending ev)

/-- The host ignores what arrives after it has been disposed of. -/
def deliver (e : End) : Option (Bridge α) :=
  match (s.station e).incoming with
  | [] => none
  | ev :: rest =>
      let s' := s.modify e fun x => { x with incoming := rest }
      some (if e = .host ∧ s.disposed = true then s'
        else if e = .host ∧ w = .fromHost then s'.deliverAdopted ev
        else s'.modify e (·.deliver ev))

/-- The event of a service restart. -/
def restart : Event α := .close 1012 "Service Restart"

/-- `disposeAll`. -/
def dispose : Option (Bridge α) :=
  if s.disposed then none
  else
    let s' :=
      if (s.station .host).entry then
        if w = .fromHost then
          if s.half.readyState = .closed then s
          else (s.closeAdopted restart).modify .host
            fun x => { x with posted := x.posted ++ [restart] }
        else if (s.station .host).user.readyState = .closed then s
        else s.modify .host
          fun x => { x with user := (x.user.dispatchOrQueue restart).setReady .closed }
      else s
    some { s'.modify .host (fun x =>
        { x with entry := false, pending := [], forgotten := false }) with
      disposed := true }

/-- One step of a run. -/
def step : Label α → Option (Bridge α)
  | .accept e =>
      if s.Present w e then some (s.modify e fun x => { x with user := x.user.acceptAll }) else none
  | .send e data => if s.Present w e then some (s.send w e data) else none
  | .close e code reason => if s.Present w e then some (s.close w e code reason) else none
  | .ship => s.ship w
  | .create => s.create w
  | .deliver e => s.deliver w e
  | .dispose => s.dispose w
  | .evict e => some (s.modify e fun x => { x with forgotten := false })

end Bridge

end Lopata.WebSocket
