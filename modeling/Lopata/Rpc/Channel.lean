import Lopata.Lib.Machine
import Lopata.Lib.Table

/-!
# Binding Calls across Threads

A worker calls the bindings of the main thread: `RpcClient` keeps a promise for each request by
its id, the host runs the binding's method and posts a reply with the id of the request. A reply
is a value or a response, an error of either kind; all share the ids and the map of promises.

Methods settle in any order and replies arrive in any order. A post can throw where its payload
cannot be cloned: the arguments of a request, or the result of a method. The payload of an error
reply can always be cloned.
-/

namespace Lopata.Rpc

/-- `RpcCallRequest`, `RpcGetRequest`, `RpcFetchRequest`. -/
inductive Kind
  | call
  | get
  | fetch
deriving DecidableEq

structure Request where
  id : ℕ
  kind : Kind
deriving DecidableEq

/-- `RpcReply`. -/
inductive Reply (α ε : Type*)
  | callResult (id : ℕ) (value : α)
  | fetchResult (id : ℕ) (response : α)
  | callError (id : ℕ) (error : ε)
  | fetchError (id : ℕ) (error : ε)

variable {α ε : Type*}

def Reply.id : Reply α ε → ℕ
  | .callResult id _ | .fetchResult id _ | .callError id _ | .fetchError id _ => id

/-- What `handle` settles a promise with. -/
def Reply.outcome : Reply α ε → Except ε α
  | .callResult _ value => .ok value
  | .fetchResult _ response => .ok response
  | .callError _ error | .fetchError _ error => .error error

structure State (α ε : Type*) where
  nextId : ℕ := 1
  /-- The ids of the calls; promises are numbered in the order of the calls. -/
  issued : List ℕ := []
  /-- `_pending`, with the numbers of the promises. -/
  pending : Table ℕ ℕ := .empty
  /-- The promises resolved and rejected, in this order. -/
  settled : List (ℕ × Except ε α) := []
  toHost : List Request := []
  /-- The requests the host has received. -/
  received : List ℕ := []
  /-- The requests whose method has not settled. -/
  running : Table ℕ Kind := .empty
  /-- `isAlive` of the host. -/
  alive : Bool := true
  /-- The replies the host has posted. -/
  posted : List (Reply α ε) := []
  toClient : List (Reply α ε) := []

/-- A call, with the error of posting its request, if that throws; the host receives the next
request; the method of a request settles, with the error of posting its result, if that throws;
one of the replies on their way arrives; the channel is torn down. -/
inductive Label (α ε : Type*)
  | call (kind : Kind) (fails : Option ε)
  | receive
  | settle (id : ℕ) (result : Except ε α) (fails : Option ε)
  | deliver (i : ℕ)
  | dispose

namespace State

variable (s : State α ε)

/-- `call`, `callGet`, `callFetch`: a promise whose executor throws is rejected. -/
def call (kind : Kind) (fails : Option ε) : State α ε :=
  { s with
    nextId := s.nextId + 1
    issued := s.issued ++ [s.nextId]
    pending := s.pending.insert s.nextId s.issued.length
    toHost := s.toHost ++ fails.elim [⟨s.nextId, kind⟩] fun _ => []
    settled := s.settled ++ fails.elim [] fun e => [(s.issued.length, .error e)] }

/-- `RpcHostChannel.handle` starts the dispatch. -/
def receive : Option (State α ε) :=
  match s.toHost with
  | [] => none
  | r :: rest =>
      some { s with
        toHost := rest
        received := s.received ++ [r.id]
        running := s.running.insert r.id r.kind }

end State

/-- What `dispatchRpcCall` and `dispatchRpcGet` post: a result that cannot be posted is replaced by
an error. -/
def dispatchRpcCall (id : ℕ) : Except ε α → Option ε → Option (Reply α ε)
  | .ok value, none => some (.callResult id value)
  | .ok _, some e => some (.callError id e)
  | .error e, _ => some (.callError id e)

/-- What `dispatchRpcFetch` posts: its result is posted outside the `try`. -/
def dispatchRpcFetch (id : ℕ) : Except ε α → Option ε → Option (Reply α ε)
  | .ok response, none => some (.fetchResult id response)
  | .ok _, some _ => none
  | .error e, _ => some (.fetchError id e)

def dispatch : Kind → ℕ → Except ε α → Option ε → Option (Reply α ε)
  | .call | .get => dispatchRpcCall
  | .fetch => dispatchRpcFetch

namespace State

variable (s : State α ε)

/-- The rest of a dispatch once its method has settled. -/
def settle (id : ℕ) (result : Except ε α) (fails : Option ε) : Option (State α ε) :=
  (s.running.get? id).map fun kind =>
    let reply := if s.alive then (dispatch kind id result fails).toList else []
    { s with
      running := s.running.erase id
      posted := s.posted ++ reply
      toClient := s.toClient ++ reply }

/-- `RpcClient.handle`: a reply to no pending call is dropped. -/
def handle (reply : Reply α ε) : State α ε :=
  match s.pending.get? reply.id with
  | none => s
  | some p =>
      { s with
        pending := s.pending.erase reply.id
        settled := s.settled ++ [(p, reply.outcome)] }

def deliver (i : ℕ) : Option (State α ε) :=
  s.toClient[i]?.map fun reply => handle { s with toClient := s.toClient.eraseIdx i } reply

end State

/-- One step of a run. -/
def step (s : State α ε) : Label α ε → Option (State α ε)
  | .call kind fails => some (s.call kind fails)
  | .receive => s.receive
  | .settle id result fails => s.settle id result fails
  | .deliver i => s.deliver i
  | .dispose => some { s with alive := false }

end Lopata.Rpc
