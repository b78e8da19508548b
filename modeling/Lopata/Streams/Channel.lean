import Lopata.Lib.Machine
import Lopata.Lib.ReadableStream

/-!
# Streams across Threads

One stream between two threads. On the one side `pumpStream` reads the source and posts its
chunks, each against a credit of the `OutboundStreamRegistry`; without a window there are credits
without end. On the other side the `StreamReceiver` feeds what arrives to a stream of its own,
or keeps it until `open` has made that stream; each pull of the stream grants the sender a
credit. The messages of each direction arrive in the order of posting.

The maps of the registry and of the receiver are kept by stream id and no operation on one id
looks at another: the state has the entries of one id. The pump runs in pieces: it waits for its
read of the source, or for a credit in `acquireCredit`. The channel is not torn down.
-/

namespace Lopata.Streams

variable {α ε : Type*}

/-- A body: its chunks, and the error it ends with, if it does. `getReader` throws on a body that
is locked. -/
structure Source (α ε : Type*) where
  chunks : List α := []
  ending : Option ε := none
  locked : Option ε := none

/-- `OutboundStreamState`. -/
structure Outbound where
  /-- The credits left; none is `Infinity`. -/
  credits : Option ℕ
  /-- A pump is parked in `acquireCredit`. -/
  waiter : Bool := false
deriving DecidableEq

/-- Take a credit. -/
def Outbound.take (o : Outbound) : Outbound :=
  { o with credits := o.credits.map fun n => n - 1 }

/-- Where `pumpStream` waits. -/
inductive Pump (α : Type*)
  | reading
  /-- Parked in `acquireCredit` with a chunk. -/
  | parked (a : α)
  /-- Woken with the chunk. -/
  | resuming (a : α)
  | exited
deriving DecidableEq

/-- A waiter that is called. -/
def Pump.wake : Pump α → Pump α
  | .parked a => .resuming a
  | .reading => .reading
  | .resuming a => .resuming a
  | .exited => .exited

/-- What the receiver posts. -/
inductive Reply
  | ack
  | cancel
deriving DecidableEq

/-- The entries of the stream in the maps of `StreamReceiver`. -/
structure Receiver (α ε : Type*) where
  controller : Bool := false
  pending : Option (List (StreamEvent α ε)) := none
  cancelled : Bool := false
  isOpen : Bool := false
deriving DecidableEq

structure State (α ε : Type*) where
  /-- What the source has still to give. -/
  source : List α
  ending : Option ε
  registry : Option Outbound
  pump : Pump α
  toReceiver : List (StreamEvent α ε) := []
  toSender : List Reply := []
  receiver : Receiver α ε := {}
  /-- The reconstructed stream, from `open` on. -/
  stream : Option (ReadableStream α ε) := none
  /-- The chunks posted. -/
  posted : ℕ := 0
  /-- The wiring has cancelled the stream with `StreamReceiver.cancel`. -/
  discarded : Bool := false
deriving DecidableEq

/-- The pieces: the pump's read settles, a parked pump resumes (each with the error of posting
the chunk, if posting throws), a message is delivered to either side, `open` is called, the
reactions to the start and pull algorithms of the stream run, the consumer reads or cancels, the
wiring of the receiver or of the sender cancels. -/
inductive Label (ε : Type*)
  | produce (fails : Option ε)
  | resume (fails : Option ε)
  | deliver
  | answer
  | openStream
  | start
  | pulled
  | read
  | cancel
  | discard
  | abort
deriving DecidableEq

namespace State

variable (w : Option ℕ) (s : State α ε)

/-! ### The sender -/

/-- The pump posts its terminator and exits; `complete`. -/
def exit (ev : StreamEvent α ε) : State α ε :=
  { s with registry := none, pump := .exited, toReceiver := s.toReceiver ++ [ev] }

/-- The pump posts a chunk and reads on, or gets into its `catch`. -/
def postChunk (a : α) : Option ε → State α ε
  | none =>
      { s with
        pump := .reading
        toReceiver := s.toReceiver ++ [.chunk a]
        posted := s.posted + 1 }
  | some e => s.exit (.error e)

/-- The `read` of the pump settles. -/
def produce (fails : Option ε) : Option (State α ε) :=
  match s.pump, s.source, s.registry with
  | .reading, [], _ => some (s.exit (s.ending.elim .close .error))
  | .reading, _ :: rest, none => some (exit { s with source := rest } .close)
  | .reading, a :: rest, some o =>
      if o.credits = some 0 then
        some { s with
          source := rest
          registry := some { o with waiter := true }
          pump := .parked a }
      else some (postChunk { s with source := rest, registry := some o.take } a fails)
  | _, _, _ => none

/-- The pump goes on after `acquireCredit` has waited. -/
def resume (fails : Option ε) : Option (State α ε) :=
  match s.pump, s.registry with
  | .resuming _, none => some (s.exit .close)
  | .resuming a, some o => some (postChunk { s with registry := some o.take } a fails)
  | _, _ => none

/-- `grantCredit`. -/
def grantCredit : State α ε :=
  match s.registry with
  | none => s
  | some o =>
      { s with
        registry := some { credits := o.credits.map fun n => n + 1, waiter := false }
        pump := if o.waiter then s.pump.wake else s.pump }

/-- `OutboundStreamRegistry.cancel`: the source is cancelled, so a read of it gets no more. -/
def cancelPump : State α ε :=
  match s.registry with
  | none => s
  | some o =>
      { s with
        source := []
        ending := none
        registry := none
        pump := if o.waiter then s.pump.wake else s.pump }

/-- The sender takes the next reply. -/
def answer : Option (State α ε) :=
  match s.toSender with
  | [] => none
  | .ack :: rest => some (grantCredit { s with toSender := rest })
  | .cancel :: rest => some (cancelPump { s with toSender := rest })

/-! ### The receiver -/

/-- The credits granted. -/
def granted : ℕ :=
  (s.stream.map ReadableStream.pulls).getD 0

/-- The stream has moved on; the pulls it made have granted credits if there is a window. -/
def setStream (st : ReadableStream α ε) : State α ε :=
  { s with
    stream := some st
    toSender := s.toSender ++
      if w.isSome then List.replicate (st.pulls - s.granted) .ack else [] }

/-- After a terminator the receiver keeps no controller. -/
def detach : State α ε :=
  { s with receiver := { s.receiver with controller := false, isOpen := false } }

/-- `_apply`: an event goes to the stream, which drops it if it is over. -/
def apply (ev : StreamEvent α ε) : State α ε :=
  match s.stream with
  | none => s
  | some st =>
      if ev.IsChunk then s.setStream w ((st.feed ev).getD st)
      else s.detach.setStream w ((st.feed ev).getD st)

/-- `_onEvent`. -/
def onEvent (ev : StreamEvent α ε) : State α ε :=
  if s.receiver.cancelled then
    if ev.IsChunk then s else { s with receiver := { s.receiver with cancelled := false } }
  else if s.receiver.controller then s.apply w ev
  else
    { s with
      receiver := { s.receiver with pending := some (s.receiver.pending.getD [] ++ [ev]) } }

/-- The receiver takes the next message. -/
def deliver : Option (State α ε) :=
  match s.toReceiver with
  | [] => none
  | ev :: rest => some (onEvent w { s with toReceiver := rest } ev)

/-- The stream of `open`, before `start` replays what is pending. -/
def opened : State α ε :=
  { s with
    receiver := { s.receiver with controller := true, pending := none, isOpen := true }
    stream := some { highWaterMark := w.getD 1 } }

/-- `open`. -/
def openStream : Option (State α ε) :=
  match s.stream with
  | none => some ((s.receiver.pending.getD []).foldl (fun s ev => s.apply w ev) (s.opened w))
  | some _ => none

/-- `cancel` of `StreamReceiver`, and of the source of its streams. -/
def cancelReceiver : State α ε :=
  { s with
    receiver := { cancelled := true }
    toSender := s.toSender ++ [.cancel] }

/-- The consumer cancels its stream. -/
def cancel : Option (State α ε) :=
  s.stream.map fun st =>
    if st.status.isReadable then (s.setStream w st.cancel).cancelReceiver else s

/-- What the consumer's reader has observed. -/
def observed : List (StreamEvent α ε) :=
  (s.stream.map ReadableStream.observed).getD []

end State

/-- One piece of a run. -/
def step (w : Option ℕ) (s : State α ε) : Label ε → Option (State α ε)
  | .produce fails => s.produce fails
  | .resume fails => s.resume fails
  | .deliver => s.deliver w
  | .answer => s.answer
  | .openStream => s.openStream w
  | .start =>
      (s.stream.filter fun st => !st.started).map fun st => s.setStream w st.start
  | .pulled => (s.stream.filter fun st => st.pulling).map fun st => s.setStream w st.pulled
  | .read => s.stream.map fun st => s.setStream w st.read
  | .cancel => s.cancel w
  | .discard => some { s.cancelReceiver with discarded := true }
  | .abort => some s.cancelPump

/-- `pumpStream` has been called for the body. -/
def State.init (w : Option ℕ) (src : Source α ε) : State α ε :=
  match src.locked with
  | some e =>
      { source := []
        ending := none
        registry := none
        pump := .exited
        toReceiver := [.error e] }
  | none =>
      { source := src.chunks
        ending := src.ending
        registry := some { credits := w }
        pump := .reading }

end Lopata.Streams
