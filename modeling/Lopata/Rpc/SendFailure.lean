import Lopata.Rpc.Channel
import Lopata.Streams.Channel

/-!
# Requests that Cannot Be Posted

A call of `RpcClient` sets its entry in `_pending` before it posts its request, and `callFetch`
starts the pump of the body behind that. Where posting throws, as it does for an argument that
cannot be cloned, the promise is rejected; the entry stays, and the pump is started all the same.
The executor that posts commands takes both back.

## Main results

* `fresh_of_reaches`: the ids of a client are new.
* `rows_fail`: what a call leaves whose request cannot be posted.
* `never_clean`: in no state it leaves the client as it was.
* `clean_sendAndAwait`: the executor's way does.
-/

namespace Lopata.Rpc

open Streams (Outbound)

/-- The body of a request; `getReader` throws on one that is locked. -/
inductive Body
  | readable
  | locked
deriving DecidableEq

/-- `call`, `callGet`, `callFetch`. -/
inductive Call
  | call
  | callGet
  | callFetch (body : Option Body)
deriving DecidableEq

/-- What a client, or an executor, keeps. -/
structure Client (ε : Type*) where
  nextId : ℕ := 1
  /-- `_pending`, with the promises, which are numbered in the order of the calls. -/
  pending : Table ℕ ℕ := .empty
  made : ℕ := 0
  settled : List (ℕ × Except ε Unit) := []
  nextStreamId : ℕ := 1
  /-- `_requestStreams`. -/
  streams : Table ℕ Outbound := .empty
  /-- The pumps that have not come to their end. -/
  pumps : List ℕ := []

/-- A call, with the error of posting its request, if that throws; a reply; what comes for the
stream of a body, and what its pump does. -/
inductive ClientLabel (ε : Type*)
  | call (c : Call) (fails : Option ε)
  | reply (id : ℕ) (outcome : Except ε Unit)
  | streamCancel (id : ℕ)
  | streamAck (id : ℕ)
  | pumpTake (id : ℕ)
  | pumpPark (id : ℕ)
  | pumpExit (id : ℕ)

/-- `STREAM_BACKPRESSURE_WINDOW`. -/
def window : ℕ := 8

namespace Client

variable {ε : Type*} (s : Client ε)

/-- The promise of a call: its entry is set, then its request is posted. -/
def promise (id : ℕ) (fails : Option ε) : Client ε :=
  let p := s.made
  let s := { s with made := p + 1, pending := s.pending.insert id p }
  match fails with
  | none => s
  | some e => { s with settled := (p, .error e) :: s.settled }

/-- `pumpRpcRequestBody`, up to its first `await`. -/
def pumpRpcRequestBody (streamId : ℕ) : Body → Client ε
  | .locked => s
  | .readable =>
      { s with
        streams := s.streams.insert streamId { credits := some window }
        pumps := streamId :: s.pumps }

/-- `call`, `callGet` and `callFetch`. -/
def call (c : Call) (fails : Option ε) : Client ε :=
  let id := s.nextId
  let s := { s with nextId := id + 1 }
  match c with
  | .call | .callGet | .callFetch none => s.promise id fails
  | .callFetch (some body) =>
      let streamId := s.nextStreamId
      let s := { s with nextStreamId := streamId + 1 }
      (s.promise id fails).pumpRpcRequestBody streamId body

/-- `_sendAndAwait` of an executor behind its `await`, with what comes behind the post. -/
def sendAndAwait (fails : Option ε) (afterPost : Client ε → Client ε) : Client ε :=
  let id := s.nextId
  let p := s.made
  let s := { s with nextId := id + 1, made := p + 1, pending := s.pending.insert id p }
  match fails with
  | none => afterPost s
  | some e =>
      let s := { s with pending := s.pending.erase id }
      { s with settled := (p, .error e) :: s.settled }

/-- `handle` of a reply. -/
def handle (id : ℕ) (outcome : Except ε Unit) : Client ε :=
  match s.pending.get? id with
  | none => s
  | some p => { s with pending := s.pending.erase id, settled := (p, outcome) :: s.settled }

end Client

/-- One step of a client. -/
def Client.step {ε : Type*} (s : Client ε) : ClientLabel ε → Option (Client ε)
  | .call c fails => some (s.call c fails)
  | .reply id outcome => some (s.handle id outcome)
  | .streamCancel id => some { s with streams := s.streams.erase id }
  | .streamAck id =>
      some { s with
        streams := s.streams.modify id fun o =>
          { credits := o.credits.map (· + 1), waiter := false } }
  | .pumpTake id => some { s with streams := s.streams.modify id Outbound.take }
  | .pumpPark id =>
      some { s with streams := s.streams.modify id fun o => { o with waiter := true } }
  | .pumpExit id =>
      some { s with streams := s.streams.erase id, pumps := s.pumps.filter (· ≠ id) }

/-- The call is rejected, and leaves the maps and the pumps as they were. -/
structure Clean {ε : Type*} (s t : Client ε) (e : ε) : Prop where
  rejected : (s.made, .error e) ∈ t.settled
  pending : t.pending = s.pending
  streams : t.streams = s.streams
  pumps : t.pumps = s.pumps

section

variable {ε : Type*} {s t : Client ε}

/-! ### New ids -/

/-- The ids that come next have not been given. -/
structure Fresh (s : Client ε) : Prop where
  pending : ∀ row ∈ s.pending.rows, row.1 < s.nextId
  streams : ∀ row ∈ s.streams.rows, row.1 < s.nextStreamId

theorem fresh_start : Fresh ({} : Client ε) :=
  ⟨fun _ hrow => (nomatch hrow), fun _ hrow => (nomatch hrow)⟩

theorem get?_of_forall_lt {ρ : Type*} {t : Table ℕ ρ} {n : ℕ} (h : ∀ row ∈ t.rows, row.1 < n) :
    t.get? n = none := by
  cases hget : t.get? n with
  | none => rfl
  | some r => exact absurd (h _ (Table.mem_rows_iff.mpr hget)) (Nat.lt_irrefl n)

theorem rows_insert_fresh {ρ : Type*} {t : Table ℕ ρ} {n : ℕ} {r : ρ}
    (h : ∀ row ∈ t.rows, row.1 < n) :
    (t.insert n r).rows = t.rows ++ [(n, r)] ∧ ∀ row ∈ (t.insert n r).rows, row.1 < n + 1 := by
  have hrows := Table.rows_insert_of_get?_eq_none (get?_of_forall_lt h) (r := r)
  refine ⟨hrows, fun row hrow => ?_⟩
  rw [hrows] at hrow
  rcases List.mem_append.mp hrow with hrow | hrow
  · exact Nat.lt_succ_of_lt (h row hrow)
  · rw [List.mem_singleton.mp hrow]
    exact Nat.lt_succ_self n

theorem lt_of_mem_erase {ρ : Type*} {t : Table ℕ ρ} {n k : ℕ} (h : ∀ row ∈ t.rows, row.1 < n) :
    ∀ row ∈ (t.erase k).rows, row.1 < n :=
  fun row hrow => h row (List.mem_of_mem_filter hrow)

theorem lt_of_mem_modify {ρ : Type*} {t : Table ℕ ρ} {n k : ℕ} {f : ρ → ρ}
    (h : ∀ row ∈ t.rows, row.1 < n) : ∀ row ∈ (t.modify k f).rows, row.1 < n := by
  intro row hrow
  obtain ⟨row, hmem, rfl⟩ := List.mem_map.mp hrow
  exact h row hmem

theorem fresh_call {c : Call} {fails : Option ε} (h : Fresh s) : Fresh (s.call c fails) := by
  have hpending := (rows_insert_fresh (r := s.made) h.pending).2
  have hstreams := (rows_insert_fresh (r := { credits := some window }) h.streams).2
  have hlater : ∀ row ∈ s.streams.rows, row.1 < s.nextStreamId + 1 :=
    fun row hrow => Nat.lt_succ_of_lt (h.streams row hrow)
  cases c with
  | call => cases fails <;> exact ⟨hpending, h.streams⟩
  | callGet => cases fails <;> exact ⟨hpending, h.streams⟩
  | callFetch body =>
    cases body with
    | none => cases fails <;> exact ⟨hpending, h.streams⟩
    | some body =>
      cases body with
      | locked => cases fails <;> exact ⟨hpending, hlater⟩
      | readable => cases fails <;> exact ⟨hpending, hstreams⟩

theorem fresh_handle {id : ℕ} {outcome : Except ε Unit} (h : Fresh s) :
    Fresh (s.handle id outcome) := by
  rw [Client.handle]
  split
  · exact h
  · exact ⟨lt_of_mem_erase h.pending, h.streams⟩

theorem fresh_step {a : ClientLabel ε} (h : Fresh s) (hstep : s.step a = some t) : Fresh t := by
  cases a <;> obtain rfl := Option.some.inj hstep
  case call c fails => exact fresh_call h
  case reply id outcome => exact fresh_handle h
  case streamCancel id => exact ⟨h.pending, lt_of_mem_erase h.streams⟩
  case streamAck id => exact ⟨h.pending, lt_of_mem_modify h.streams⟩
  case pumpTake id => exact ⟨h.pending, lt_of_mem_modify h.streams⟩
  case pumpPark id => exact ⟨h.pending, lt_of_mem_modify h.streams⟩
  case pumpExit id => exact ⟨h.pending, lt_of_mem_erase h.streams⟩

theorem fresh_of_reaches (h : Reaches Client.step unguarded ({} : Client ε) s) : Fresh s :=
  h.invariant fresh_start fun _ _ _ hinv _ hstep => fresh_step hinv hstep

/-! ### What a failure leaves -/

/-- The stream of a body that can be read. -/
def streamOf (s : Client ε) : Call → List (ℕ × Outbound)
  | .callFetch (some .readable) => [(s.nextStreamId, { credits := some window })]
  | _ => []

/-- The entry of the call stays, and the stream of a body that can be read, with its pump. -/
theorem rows_fail {c : Call} {e : ε} (h : Fresh s) :
    (s.made, .error e) ∈ (s.call c (some e)).settled ∧
      (s.call c (some e)).pending.rows = s.pending.rows ++ [(s.nextId, s.made)] ∧
      (s.call c (some e)).streams.rows = s.streams.rows ++ streamOf s c ∧
      (s.call c (some e)).pumps = (streamOf s c).map Prod.fst ++ s.pumps := by
  have hpending := (rows_insert_fresh (r := s.made) h.pending).1
  have hstreams := (rows_insert_fresh (r := { credits := some window }) h.streams).1
  have hnone : s.streams.rows = s.streams.rows ++ [] := (List.append_nil _).symm
  cases c with
  | call => exact ⟨List.mem_cons_self, hpending, hnone, rfl⟩
  | callGet => exact ⟨List.mem_cons_self, hpending, hnone, rfl⟩
  | callFetch body =>
    cases body with
    | none => exact ⟨List.mem_cons_self, hpending, hnone, rfl⟩
    | some body =>
      cases body with
      | locked => exact ⟨List.mem_cons_self, hpending, hnone, rfl⟩
      | readable => exact ⟨List.mem_cons_self, hpending, hstreams, rfl⟩

/-- The executor's way: what was set is taken back, and what comes behind the post does not come. -/
theorem clean_sendAndAwait {e : ε} {afterPost : Client ε → Client ε} (h : Fresh s) :
    Clean s (s.sendAndAwait (some e) afterPost) e :=
  ⟨List.mem_cons_self, Table.erase_insert_of_get?_eq_none (get?_of_forall_lt h.pending), rfl, rfl⟩

/-- Whatever the client has been through, a call whose request cannot be posted is rejected and
leaves an entry behind, and a body that can be read leaves its stream and its pump: it never leaves
the client as it was. -/
theorem never_clean (h : Reaches Client.step unguarded ({} : Client ε) s) (c : Call) (e : ε) :
    ¬ Clean s (s.call c (some e)) e ∧
      (s.made, .error e) ∈ (s.call c (some e)).settled ∧
      (s.call c (some e)).pending.rows = s.pending.rows ++ [(s.nextId, s.made)] ∧
      (s.call c (some e)).streams.rows = s.streams.rows ++ streamOf s c ∧
      (s.call c (some e)).pumps = (streamOf s c).map Prod.fst ++ s.pumps := by
  have hrows := rows_fail (c := c) (e := e) (fresh_of_reaches h)
  refine ⟨fun hclean => ?_, hrows⟩
  have hlength := congrArg List.length hrows.2.1
  rw [hclean.pending, List.length_append, List.length_singleton] at hlength
  omega

/-- A call on a new client. -/
theorem never_clean_call : ¬ Clean ({} : Client Unit) (Client.call {} .call (some ())) () :=
  (never_clean Reaches.refl .call ()).1

/-- The entry of a method call with an argument that cannot be cloned. -/
theorem not_clean : ¬ Clean ({} : Client Unit) (Client.call {} .call (some ())) () := by
  rintro ⟨-, hpending, -, -⟩
  have hrows : [(1, 0)] = ([] : List (ℕ × ℕ)) := congrArg Table.rows hpending
  cases hrows

end

end Lopata.Rpc
