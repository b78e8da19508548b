import Lopata.Lib.Machine
import Mathlib.Data.Int.Notation
import Mathlib.Data.List.Basic

/-!
# The Concurrency Gate of a Durable Object

`DurableObjectStateImpl` holds requests back while a `blockConcurrencyWhile` callback runs.
The gate is one mutable slot with a promise in it: each call overwrites the slot, and the
`finally` handler of each call clears it and resolves the promise of that call. A request
passes through `_enter`, which loops on the slot, yields once, looks at the abort flag again
and is then counted as active.

Promises are named by the call that made them, so the promise of call `c` is resolved exactly
when the `finally` handler of `c` has run. A label is one uninterrupted piece of code: a call
of a method, the settlement of a callback, or one continuation from the microtask queue.

## Main results

* `not_gateLaw`: overlapping calls let a request in while a callback is unfinished.
* `gateLaw_of_reaches`: without overlapping clean-ups, calls into a passed gate check and
  callbacks that throw into the slot, no request is let in while a callback is unfinished, and
  when every callback has finished the gate is open and nobody awaits an unresolved promise.
-/

namespace Lopata.DurableObject

/-- The life of one `blockConcurrencyWhile` call. -/
inductive BlockCall
  /-- The synchronous part of the callback is on the stack. -/
  | calling
  /-- The callback has returned a promise that is pending. -/
  | running
  /-- The promise of the callback has settled, the `finally` handler has not run. -/
  | finished
  /-- The `finally` handler has run. -/
  | settled
  /-- The callback threw before it returned a promise: no `finally` handler exists. -/
  | threw
  deriving DecidableEq, Repr

/-- The callback of the call has not finished. -/
def BlockCall.unfinished : BlockCall → Bool
  | .calling | .running => true
  | .finished | .settled | .threw => false

/-- The callback has finished and nothing of the call is left to run. -/
def BlockCall.isOver : BlockCall → Bool
  | .settled | .threw => true
  | .calling | .running | .finished => false

/-- The life of one request in `_enter`. -/
inductive Request
  /-- Suspended in `_waitForReady` on the promise of a call. -/
  | waiting (call : ℕ)
  /-- `_waitForReady` has returned, `_enter` has not been continued. -/
  | ready
  /-- `_enter` has completed. -/
  | entered
  /-- `_exit` has been called. -/
  | exited
  /-- `_enter` has thrown. -/
  | rejected (message : String)
  deriving DecidableEq, Repr

/-- `DurableObjectStateImpl`, with the calls and the requests that are under way. -/
structure StateImpl where
  /-- `_concurrencyGate`: the call whose promise is in the slot. -/
  concurrencyGate : Option ℕ
  /-- `_activeRequests`. -/
  activeRequests : ℤ
  /-- `_aborted`. -/
  aborted : Bool
  /-- `_abortReason`. -/
  abortReason : Option String
  /-- The `blockConcurrencyWhile` calls, oldest first. -/
  calls : List BlockCall
  /-- The requests, oldest first. -/
  requests : List Request
  deriving DecidableEq

namespace StateImpl

/-- A state as the constructor makes it. -/
def init : StateImpl := ⟨none, 0, false, none, [], []⟩

/-- `blockConcurrencyWhile` up to the call of its callback. -/
def blockConcurrencyWhile (s : StateImpl) : StateImpl :=
  { s with concurrencyGate := some s.calls.length, calls := s.calls ++ [.calling] }

/-- A call moves on. -/
def setCall (s : StateImpl) (c : ℕ) (call : BlockCall) : StateImpl :=
  { s with calls := s.calls.set c call }

/-- The `finally` handler of `blockConcurrencyWhile`. -/
def onSettled (s : StateImpl) (c : ℕ) : StateImpl :=
  { s.setCall c .settled with concurrencyGate := none }

/-- `_waitForReady` from one test of the slot to the next suspension. -/
def waitForReady (s : StateImpl) : Request :=
  match s.concurrencyGate with
  | some c => .waiting c
  | none => .ready

/-- `_isBlocked`. -/
def isBlocked (s : StateImpl) : Bool := s.concurrencyGate.isSome

/-- `_hasActiveRequests`. -/
def hasActiveRequests (s : StateImpl) : Bool := s.activeRequests > 0

/-- The message `_enter` throws once the state is aborted. -/
def abortMessage (s : StateImpl) : String :=
  s.abortReason.getD "Durable Object has been aborted"

/-- A request moves on. -/
def setRequest (s : StateImpl) (r : ℕ) (request : Request) : StateImpl :=
  { s with requests := s.requests.set r request }

/-- `_enter` up to its first suspension. -/
def enter (s : StateImpl) : StateImpl :=
  { s with requests := s.requests ++
      [if s.aborted then .rejected s.abortMessage else s.waitForReady] }

/-- `_enter` after `_waitForReady`. -/
def continueEnter (s : StateImpl) (r : ℕ) : StateImpl :=
  if s.aborted then s.setRequest r (.rejected s.abortMessage)
  else { s.setRequest r .entered with activeRequests := s.activeRequests + 1 }

/-- `_exit`. -/
def exit (s : StateImpl) (r : ℕ) : StateImpl :=
  { s.setRequest r .exited with activeRequests := s.activeRequests - 1 }

/-- `abort`. -/
def abort (s : StateImpl) (reason : Option String) : StateImpl :=
  { s with
    aborted := true
    abortReason := some (reason.getD "Durable Object reset by abort()") }

/-- Some callback has not finished. -/
def Unfinished (s : StateImpl) : Prop :=
  ∃ call ∈ s.calls, call.unfinished = true

instance (s : StateImpl) : Decidable s.Unfinished :=
  inferInstanceAs (Decidable (∃ call ∈ s.calls, call.unfinished = true))

end StateImpl

open StateImpl

/-- One uninterrupted piece of code. -/
inductive GateAction
  /-- A call of `blockConcurrencyWhile`. -/
  | blockConcurrencyWhile
  /-- The callback of a call returns its promise. -/
  | returns (call : ℕ)
  /-- The callback of a call throws before it returns a promise. -/
  | throws (call : ℕ)
  /-- The promise of a callback resolves or rejects. -/
  | settles (call : ℕ)
  /-- The `finally` handler of a call. -/
  | onSettled (call : ℕ)
  /-- A request calls `_enter`. -/
  | enter
  /-- The promise a request awaits is resolved: the slot is tested again. -/
  | recheck (request : ℕ)
  /-- `_enter` is continued after `_waitForReady`. -/
  | continueEnter (request : ℕ)
  /-- A request calls `_exit`. -/
  | exit (request : ℕ)
  /-- A call of `abort`. -/
  | abort (reason : Option String)
  deriving DecidableEq

/-- The step of the gate. Continuations wait until no callback is on the stack. -/
def gateStep (s : StateImpl) : GateAction → Option StateImpl
  | .blockConcurrencyWhile => some s.blockConcurrencyWhile
  | .returns c => if s.calls[c]? = some .calling then some (s.setCall c .running) else none
  | .throws c => if s.calls[c]? = some .calling then some (s.setCall c .threw) else none
  | .settles c => if s.calls[c]? = some .running then some (s.setCall c .finished) else none
  | .onSettled c =>
      if s.calls[c]? = some .finished ∧ .calling ∉ s.calls then some (s.onSettled c) else none
  | .enter => some s.enter
  | .recheck r =>
      match s.requests[r]? with
      | some (.waiting c) =>
          if s.calls[c]? = some .settled ∧ .calling ∉ s.calls then
            some (s.setRequest r s.waitForReady)
          else none
      | _ => none
  | .continueEnter r =>
      if s.requests[r]? = some .ready ∧ .calling ∉ s.calls then some (s.continueEnter r) else none
  | .exit r => if s.requests[r]? = some .entered then some (s.exit r) else none
  | .abort reason => some (s.abort reason)

/-- What a blocking gate promises in a state. -/
structure GateLaw (s : StateImpl) : Prop where
  /-- No step completes an `_enter` while a callback is unfinished. -/
  shut : ∀ (a : GateAction) (t : StateImpl) (r : ℕ), gateStep s a = some t →
    t.requests[r]? = some .entered → s.requests[r]? ≠ some .entered → ¬ s.Unfinished
  /-- Once all calls are over the gate is open, and every suspended request awaits a promise
  that is resolved. -/
  reopened : (∀ call ∈ s.calls, call.isOver = true) → s.isBlocked = false ∧
    ∀ c, .waiting c ∈ s.requests → s.calls[c]? = some .settled

/-- The steps that keep the gate in order. -/
def orderly (s : StateImpl) : GateAction → Prop
  | .blockConcurrencyWhile => s.aborted = true ∨ .ready ∉ s.requests
  | .onSettled _ => s.aborted = true ∨ ¬ s.Unfinished
  | .throws c => s.concurrencyGate ≠ some c ∧ .waiting c ∉ s.requests
  | _ => True

instance (s : StateImpl) (a : GateAction) : Decidable (orderly s a) := by
  cases a <;> unfold orderly <;> infer_instance

/-! ### Calls and requests under an update -/

/-- The call `c` is not over. -/
def StateImpl.Open (s : StateImpl) (c : ℕ) : Prop :=
  ∃ call, s.calls[c]? = some call ∧ call.isOver = false

/-- Another call that moves on leaves a call as it is. -/
theorem getElem?_setCall_of_ne {s : StateImpl} {c d : ℕ} {call : BlockCall} (h : c ≠ d) :
    (s.setCall c call).calls[d]? = s.calls[d]? :=
  List.getElem?_set_ne h

/-- A call that moves on is in its new state. -/
theorem getElem?_setCall_self {s : StateImpl} {c : ℕ} {old call : BlockCall}
    (h : s.calls[c]? = some old) : (s.setCall c call).calls[c]? = some call := by
  obtain ⟨hlt, -⟩ := List.getElem?_eq_some_iff.mp h
  exact List.getElem?_set_self hlt

/-- A call that stays open leaves the same calls open. -/
theorem StateImpl.Open.setCall {s : StateImpl} {c d : ℕ} {old call : BlockCall}
    (hold : s.calls[c]? = some old) (hcall : call.isOver = false) (h : s.Open d) :
    (s.setCall c call).Open d := by
  by_cases hcd : c = d
  · subst hcd
    exact ⟨call, getElem?_setCall_self hold, hcall⟩
  · obtain ⟨call', hcall', hover⟩ := h
    exact ⟨call', (getElem?_setCall_of_ne hcd).trans hcall', hover⟩

/-- A call that moves on unfinishes no callback. -/
theorem unfinished_of_setCall {s : StateImpl} {c : ℕ} {old call : BlockCall}
    (hold : s.calls[c]? = some old) (hcall : call.unfinished = true → old.unfinished = true)
    (h : (s.setCall c call).Unfinished) : s.Unfinished := by
  obtain ⟨call', hmem, hun⟩ := h
  rcases List.mem_or_eq_of_mem_set hmem with hmem | rfl
  · exact ⟨call', hmem, hun⟩
  · exact ⟨old, List.mem_of_getElem? hold, hcall hun⟩

/-- A request that is neither suspended on a promise nor past the slot. -/
def Request.isDone : Request → Bool
  | .waiting _ | .ready => false
  | .entered | .exited | .rejected _ => true

/-! ### The invariant -/

/-- What the slot has to do with the unfinished callbacks. -/
structure Gated (s : StateImpl) : Prop where
  /-- The promise in the slot belongs to a call that is not over. -/
  slot : ∀ c, s.concurrencyGate = some c → s.Open c
  /-- While a callback is unfinished the slot is taken. -/
  closed : s.aborted = false → s.Unfinished → s.concurrencyGate ≠ none
  /-- No request has passed the slot while a callback is unfinished. -/
  passed : s.aborted = false → .ready ∈ s.requests → ¬ s.Unfinished
  /-- A suspended request awaits a promise that is or will be resolved. -/
  awaited : ∀ c, .waiting c ∈ s.requests → s.Open c ∨ s.calls[c]? = some .settled

/-- Nothing has happened. -/
theorem gated_init : Gated init where
  slot _ h := nomatch h
  closed _ h := by
    obtain ⟨_, hmem, -⟩ := h
    cases hmem
  passed _ h := nomatch h
  awaited _ h := nomatch h

namespace Gated

variable {s s' : StateImpl}

/-- A new call takes the slot. -/
theorem blockConcurrencyWhile (h : Gated s) (hok : s.aborted = true ∨ .ready ∉ s.requests) :
    Gated s.blockConcurrencyWhile where
  slot c hc := by
    obtain rfl : s.calls.length = c := Option.some.inj hc
    exact ⟨.calling, List.getElem?_concat_length, rfl⟩
  closed _ _ := nofun
  passed hlive hmem := by
    rcases hok with habort | hnone
    · exact absurd (hlive.symm.trans habort) (by decide)
    · exact absurd hmem hnone
  awaited c hmem := by
    have hkeep : ∀ call, s.calls[c]? = some call →
        s.blockConcurrencyWhile.calls[c]? = some call := by
      intro call hcall
      obtain ⟨hlt, -⟩ := List.getElem?_eq_some_iff.mp hcall
      exact (List.getElem?_append_left hlt).trans hcall
    refine (h.awaited c hmem).imp ?_ (hkeep .settled)
    rintro ⟨call, hcall, hover⟩
    exact ⟨call, hkeep call hcall, hover⟩

/-- A call moves on. If it is over now, its promise is neither in the slot nor, unless it is
resolved, awaited. -/
theorem setCall {c : ℕ} {old call : BlockCall} (h : Gated s) (hold : s.calls[c]? = some old)
    (hun : call.unfinished = true → old.unfinished = true) (hopen : old.isOver = false)
    (hover : call.isOver = true → s.concurrencyGate ≠ some c ∧ .waiting c ∉ s.requests) :
    Gated (s.setCall c call) := by
  have hkeep : ∀ d, s.concurrencyGate = some d ∨ .waiting d ∈ s.requests → s.Open d →
      (s.setCall c call).Open d := by
    intro d hused hd
    cases hcall : call.isOver with
    | false => exact hd.setCall hold hcall
    | true =>
      obtain ⟨hslot, hwait⟩ := hover hcall
      obtain ⟨call', hcall', hover'⟩ := hd
      refine ⟨call', (getElem?_setCall_of_ne ?_).trans hcall', hover'⟩
      rintro rfl
      exact hused.elim hslot hwait
  exact
    { slot := fun d hd => hkeep d (.inl hd) (h.slot d hd)
      closed := fun hlive hunf => h.closed hlive (unfinished_of_setCall hold hun hunf)
      passed := fun hlive hmem hunf =>
        h.passed hlive hmem (unfinished_of_setCall hold hun hunf)
      awaited := by
        intro d hmem
        refine (h.awaited d hmem).imp (hkeep d (.inr hmem)) ?_
        intro hset
        refine (getElem?_setCall_of_ne ?_).trans hset
        rintro rfl
        obtain rfl : old = .settled := Option.some.inj (hold.symm.trans hset)
        cases hopen }

/-- The `finally` handler runs while no callback is unfinished. -/
theorem onSettled {c : ℕ} (h : Gated s) (hfin : s.calls[c]? = some .finished)
    (hok : s.aborted = true ∨ ¬ s.Unfinished) : Gated (s.onSettled c) := by
  have hnone : s.aborted = false → ¬ (s.onSettled c).Unfinished := by
    intro hlive hunf
    rcases hok with habort | hidle
    · exact absurd (hlive.symm.trans habort) (by decide)
    · have hdone : BlockCall.settled.unfinished = true → BlockCall.finished.unfinished = true :=
        nofun
      exact hidle (unfinished_of_setCall hfin hdone hunf)
  exact
    { slot := nofun
      closed := fun hlive hunf => absurd hunf (hnone hlive)
      passed := fun hlive _ => hnone hlive
      awaited := by
        intro d hmem
        by_cases hcd : c = d
        · subst hcd
          exact .inr (getElem?_setCall_self hfin)
        · have hsame : (s.setCall c .settled).calls[d]? = s.calls[d]? :=
            getElem?_setCall_of_ne hcd
          refine (h.awaited d hmem).imp ?_ hsame.trans
          rintro ⟨call, hcall, hover⟩
          exact ⟨call, hsame.trans hcall, hover⟩ }

/-- Requests move on: one that tests the slot does what the slot says, the others are done. -/
theorem requests (h : Gated s) (hgate : s'.concurrencyGate = s.concurrencyGate)
    (haborted : s'.aborted = s.aborted) (hcalls : s'.calls = s.calls)
    (hreq : ∀ q ∈ s'.requests, q ∈ s.requests ∨ q = s.waitForReady ∨ q.isDone = true) :
    Gated s' := by
  have hopen : ∀ {c}, s.Open c → s'.Open c := by
    rintro c ⟨call, hcall, hover⟩
    exact ⟨call, hcalls ▸ hcall, hover⟩
  have hunf : s'.Unfinished → s.Unfinished := by
    rintro ⟨call, hmem, hun⟩
    exact ⟨call, hcalls ▸ hmem, hun⟩
  constructor
  · intro c hc
    exact hopen (h.slot c (hgate ▸ hc))
  · intro hlive hu
    rw [hgate]
    exact h.closed (haborted ▸ hlive) (hunf hu)
  · intro hlive hmem hu
    have hlive := haborted ▸ hlive
    rcases hreq _ hmem with hold | hnew | hdone
    · exact h.passed hlive hold (hunf hu)
    · cases hslot : s.concurrencyGate with
      | none => exact h.closed hlive (hunf hu) hslot
      | some c =>
        rw [waitForReady, hslot] at hnew
        cases hnew
    · cases hdone
  · intro c hmem
    rw [hcalls]
    rcases hreq _ hmem with hold | hnew | hdone
    · exact (h.awaited c hold).imp_left hopen
    · cases hslot : s.concurrencyGate with
      | none =>
        rw [waitForReady, hslot] at hnew
        cases hnew
      | some d =>
        rw [waitForReady, hslot] at hnew
        obtain rfl : c = d := Request.waiting.inj hnew
        exact .inl (hopen (h.slot c hslot))
    · cases hdone

/-- One request moves on. -/
theorem setRequest {r : ℕ} {request : Request} (h : Gated s)
    (hreq : request = s.waitForReady ∨ request.isDone = true) :
    Gated (s.setRequest r request) := by
  refine h.requests rfl rfl rfl ?_
  intro q hq
  rcases List.mem_or_eq_of_mem_set hq with hq | rfl
  · exact .inl hq
  · exact .inr hreq

/-- Abort ends what the gate has to guarantee about requests. -/
theorem abort (h : Gated s) (reason : Option String) : Gated (s.abort reason) where
  slot := h.slot
  closed := nofun
  passed := nofun
  awaited := h.awaited

/-- Every orderly step keeps the invariant. -/
theorem step {a : GateAction} (h : Gated s) (hok : orderly s a)
    (hstep : gateStep s a = some s') : Gated s' := by
  cases a with
  | blockConcurrencyWhile =>
    obtain rfl := Option.some.inj hstep
    exact h.blockConcurrencyWhile hok
  | returns c =>
    obtain ⟨hcall, rfl⟩ := Option.ite_some_none_eq_some.mp hstep
    exact h.setCall hcall (fun _ => rfl) rfl nofun
  | throws c =>
    obtain ⟨hcall, rfl⟩ := Option.ite_some_none_eq_some.mp hstep
    exact h.setCall hcall nofun rfl fun _ => hok
  | settles c =>
    obtain ⟨hcall, rfl⟩ := Option.ite_some_none_eq_some.mp hstep
    exact h.setCall hcall nofun rfl nofun
  | onSettled c =>
    obtain ⟨⟨hcall, -⟩, rfl⟩ := Option.ite_some_none_eq_some.mp hstep
    exact h.onSettled hcall hok
  | enter =>
    obtain rfl := Option.some.inj hstep
    refine h.requests rfl rfl rfl ?_
    intro q hq
    rcases List.mem_append.mp hq with hq | hq
    · exact .inl hq
    · obtain rfl := List.mem_singleton.mp hq
      cases s.aborted
      · exact .inr (.inl rfl)
      · exact .inr (.inr rfl)
  | recheck r =>
    simp only [gateStep] at hstep
    split at hstep
    · obtain ⟨-, rfl⟩ := Option.ite_some_none_eq_some.mp hstep
      exact h.setRequest (.inl rfl)
    · cases hstep
  | continueEnter r =>
    obtain ⟨-, rfl⟩ := Option.ite_some_none_eq_some.mp hstep
    rw [StateImpl.continueEnter]
    split
    · exact h.setRequest (.inr rfl)
    · have hset : Gated (s.setRequest r .entered) := h.setRequest (.inr rfl)
      exact ⟨hset.slot, hset.closed, hset.passed, hset.awaited⟩
  | exit r =>
    obtain ⟨-, rfl⟩ := Option.ite_some_none_eq_some.mp hstep
    have hset : Gated (s.setRequest r .exited) := h.setRequest (.inr rfl)
    exact ⟨hset.slot, hset.closed, hset.passed, hset.awaited⟩
  | abort reason =>
    obtain rfl := Option.some.inj hstep
    exact h.abort reason

end Gated

/-! ### Who is let in -/

/-- A request entered by an update is the one updated, with that state. -/
theorem entered_of_setRequest {s : StateImpl} {r r' : ℕ} {request : Request}
    (h : (s.setRequest r' request).requests[r]? = some .entered)
    (hbefore : s.requests[r]? ≠ some .entered) : request = .entered := by
  rw [StateImpl.setRequest, List.getElem?_set] at h
  split at h
  · split at h
    · exact Option.some.inj h
    · cases h
  · exact absurd h hbefore

/-- Only a request past the slot of a state that is not aborted completes its `_enter`. -/
theorem ready_of_enters {s t : StateImpl} {a : GateAction} {r : ℕ} (hstep : gateStep s a = some t)
    (h : t.requests[r]? = some .entered) (hbefore : s.requests[r]? ≠ some .entered) :
    s.aborted = false ∧ .ready ∈ s.requests := by
  cases a with
  | blockConcurrencyWhile | abort =>
    obtain rfl := Option.some.inj hstep
    exact absurd h hbefore
  | returns c | throws c | settles c | onSettled c =>
    obtain ⟨-, rfl⟩ := Option.ite_some_none_eq_some.mp hstep
    exact absurd h hbefore
  | enter =>
    obtain rfl := Option.some.inj hstep
    rw [StateImpl.enter, List.getElem?_append] at h
    split at h
    · exact absurd h hbefore
    · have hmem := List.mem_singleton.mp (List.mem_of_getElem? h)
      rw [StateImpl.waitForReady] at hmem
      split at hmem
      · cases hmem
      · split at hmem <;> cases hmem
  | recheck r' =>
    simp only [gateStep] at hstep
    split at hstep
    · obtain ⟨-, rfl⟩ := Option.ite_some_none_eq_some.mp hstep
      have hentered := entered_of_setRequest h hbefore
      rw [StateImpl.waitForReady] at hentered
      split at hentered <;> cases hentered
    · cases hstep
  | continueEnter r' =>
    obtain ⟨⟨hready, -⟩, rfl⟩ := Option.ite_some_none_eq_some.mp hstep
    refine ⟨?_, List.mem_of_getElem? hready⟩
    rw [StateImpl.continueEnter] at h
    split at h
    · cases entered_of_setRequest h hbefore
    · next hlive => exact Bool.not_eq_true _ ▸ hlive
  | exit r' =>
    obtain ⟨-, rfl⟩ := Option.ite_some_none_eq_some.mp hstep
    have h : (s.setRequest r' .exited).requests[r]? = some .entered := h
    cases entered_of_setRequest h hbefore

/-- The invariant gives what the gate promises. -/
theorem Gated.gateLaw {s : StateImpl} (h : Gated s) : GateLaw s where
  shut a t r hstep hentered hbefore := by
    obtain ⟨hlive, hready⟩ := ready_of_enters hstep hentered hbefore
    exact h.passed hlive hready
  reopened hover := by
    have hnone : ∀ c, ¬ s.Open c := by
      rintro c ⟨call, hcall, hopen⟩
      rw [hover call (List.mem_of_getElem? hcall)] at hopen
      cases hopen
    constructor
    · cases hslot : s.concurrencyGate with
      | none => rw [isBlocked, hslot, Option.isSome_none]
      | some c => exact absurd (h.slot c hslot) (hnone c)
    · intro c hwait
      exact (h.awaited c hwait).resolve_left (hnone c)

/-! ### The results -/

/-- Two overlapping calls; the `finally` handler of the first clears the slot of the second. -/
def overlappingCalls : List GateAction :=
  [.blockConcurrencyWhile, .returns 0, .blockConcurrencyWhile, .returns 1, .settles 0,
    .onSettled 0, .enter]

/-- The request that comes next is let in while the second callback is unfinished. -/
theorem not_gateLaw : ¬ ∀ s, Reaches gateStep unguarded init s → GateLaw s := by
  intro hall
  have hrun : (play (restrict gateStep unguarded) init overlappingCalls).any
      (fun s => s.Unfinished ∧ s.requests = [.ready] ∧
        (gateStep s (.continueEnter 0)).any fun t => t.requests[0]? = some .entered) = true := by
    decide
  obtain ⟨s, hreach, hbad⟩ := exists_reaches_of_play hrun
  obtain ⟨hunf, hready, hnext⟩ := of_decide_eq_true hbad
  obtain ⟨t, hstep, hentered⟩ := (Option.any_eq_true _ _).mp hnext
  have hbefore : s.requests[0]? ≠ some .entered := by
    rw [hready]
    decide
  exact (hall s hreach).shut _ t 0 hstep (of_decide_eq_true hentered) hbefore hunf

/-- A callback that throws before it returns a promise. -/
example : (play gateStep init [.blockConcurrencyWhile, .throws 0]).map isBlocked = some true := by
  decide

/-- **The gate blocks and reopens.** In a run whose steps are orderly, no `_enter` completes
while a callback is unfinished, and once every call is over the gate is open and every
suspended request awaits a resolved promise. -/
theorem gateLaw_of_reaches {s : StateImpl} (h : Reaches gateStep orderly init s) : GateLaw s := by
  have hgated : Gated s :=
    h.invariant gated_init fun _ _ _ hI hok hstep => hI.step hok hstep
  exact hgated.gateLaw

/-- A request that comes while a callback runs is let in after it. -/
theorem gateLaw_of_constructorBlock :
    ∃ s, Reaches gateStep orderly init s ∧ s.requests = [.entered] ∧ GateLaw s := by
  have hrun : (play (restrict gateStep orderly) init
      [.blockConcurrencyWhile, .returns 0, .enter, .settles 0, .onSettled 0, .recheck 0,
        .continueEnter 0]).any (fun s => s.requests = [.entered]) = true := by
    decide
  obtain ⟨s, hreach, hentered⟩ := exists_reaches_of_play hrun
  exact ⟨s, hreach, of_decide_eq_true hentered, gateLaw_of_reaches hreach⟩

end Lopata.DurableObject
