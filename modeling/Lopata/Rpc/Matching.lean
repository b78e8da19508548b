import Mathlib.Data.List.Perm.Basic
import Lopata.Rpc.Channel

/-!
# Replies and Calls

Each promise is settled at most once, by the reply with the id of its own request, and the host
posts one reply for each request it receives. For a call or a property read this is so also when
the result cannot be posted: the `catch` posts an error in its place. The result of a `fetch` is
posted after the `try`, and if that throws no reply is posted at all.

## Main results

* `tracked_of_step`: what is known of ids, requests, replies and promises in every run.
* `matched_iff`: requests and replies match throughout a run exactly if the channel is alive
  whenever a method settles, and no post of the result of a `fetch` throws.
* `not_matched`: a `fetch` whose result cannot be posted is never answered.
-/

namespace Lopata.Rpc

variable {α ε : Type*} {s s' : State α ε} {a : Label α ε} {id : ℕ}

/-- The ids of the requests that have been posted. -/
def State.requested (s : State α ε) : List ℕ :=
  s.toHost.map Request.id ++ s.received

/-- The ids of the replies that have been posted. -/
def State.answered (s : State α ε) : List ℕ :=
  s.posted.map Reply.id

/-- Promises are settled at most once, each by the reply with the id of its own request, unless
that could not be posted; a reply that has arrived has settled its call; and each request received
has one reply, or none while its method runs. -/
def Matched (s : State α ε) : Prop :=
  (s.settled.map Prod.fst).Nodup ∧
    (∀ x ∈ s.settled, ∃ id, s.issued[x.1]? = some id ∧
      (id ∉ s.requested ∨ ∃ reply ∈ s.posted, reply.id = id ∧ reply.outcome = x.2)) ∧
    (∀ reply ∈ s.posted, reply ∈ s.toClient ∨
      ∃ x ∈ s.settled, s.issued[x.1]? = some reply.id ∧ x.2 = reply.outcome) ∧
    ∀ id ∈ s.received, s.answered.count id = if (s.running.get? id).isSome then 0 else 1

/-- When a method settles the channel is alive, and the result of a `fetch` can be posted. -/
def Answerable (s : State α ε) : Label α ε → Prop
  | .settle id (.ok _) fails =>
      s.alive = true ∧ (s.running.get? id = some .fetch → fails.isNone = true)
  | .settle _ (.error _) _ => s.alive = true
  | .call _ _ | .receive | .deliver _ | .dispose => True

instance (s : State α ε) : (a : Label α ε) → Decidable (Answerable s a)
  | .settle id (.ok _) fails =>
      inferInstanceAs (Decidable (_ ∧ (s.running.get? id = some .fetch → fails.isNone = true)))
  | .settle _ (.error _) _ => inferInstanceAs (Decidable (_ = _))
  | .call _ _ | .receive | .deliver _ | .dispose => .isTrue trivial

/-! ### The invariant -/

/-- What holds in every run. -/
structure Tracked (s : State α ε) : Prop where
  issued_lt : ∀ id ∈ s.issued, id < s.nextId
  issued_nodup : s.issued.Nodup
  requested_nodup : s.requested.Nodup
  requested_issued : ∀ id ∈ s.requested, id ∈ s.issued
  running : ∀ id kind, s.running.get? id = some kind → id ∈ s.received ∧ id ∉ s.answered
  answered_nodup : s.answered.Nodup
  answered_received : ∀ id ∈ s.answered, id ∈ s.received
  toClient : ∀ reply ∈ s.toClient, reply ∈ s.posted
  pending : ∀ id p, s.pending.get? id = some p → s.issued[p]? = some id
  waiting : ∀ p id, s.issued[p]? = some id → s.pending.get? id = some p ∨
    ∃ reply ∈ s.posted, reply.id = id ∧ (p, reply.outcome) ∈ s.settled
  settled_nodup : (s.settled.map Prod.fst).Nodup
  settled : ∀ x ∈ s.settled, ∃ id, s.issued[x.1]? = some id ∧
    (id ∉ s.requested ∨
      (s.pending.get? id = none ∧ ∃ reply ∈ s.posted, reply.id = id ∧ reply.outcome = x.2))
  arrived : ∀ reply ∈ s.posted, reply ∈ s.toClient ∨
    ∃ x ∈ s.settled, s.issued[x.1]? = some reply.id ∧ x.2 = reply.outcome

theorem tracked_init : Tracked ({} : State α ε) where
  issued_lt := fun _ h => by cases h
  issued_nodup := List.nodup_nil
  requested_nodup := List.nodup_nil
  requested_issued := fun _ h => by cases h
  running := fun _ _ h => by cases h
  answered_nodup := List.nodup_nil
  answered_received := fun _ h => by cases h
  toClient := fun _ h => by cases h
  pending := fun _ _ h => by cases h
  waiting := fun _ _ h => by simp at h
  settled_nodup := List.nodup_nil
  settled := fun _ h => by cases h
  arrived := fun _ h => by cases h

/-- The id of a new request is new. -/
theorem Tracked.nextId_not_mem (h : Tracked s) : s.nextId ∉ s.issued := fun hmem =>
  Nat.lt_irrefl _ (h.issued_lt _ hmem)

theorem getElem?_append_of_some {l l' : List ℕ} {p : ℕ} (h : l[p]? = some id) :
    (l ++ l')[p]? = some id := by
  obtain ⟨hlt, -⟩ := List.getElem?_eq_some_iff.mp h
  rw [List.getElem?_append_left hlt]
  exact h

theorem getElem?_append_singleton {l : List ℕ} {p x : ℕ} (h : (l ++ [x])[p]? = some id) :
    l[p]? = some id ∨ (p = l.length ∧ id = x) := by
  by_cases hlt : p < l.length
  · rw [List.getElem?_append_left hlt] at h
    exact .inl h
  · rw [List.getElem?_append_right (by omega)] at h
    obtain ⟨hp, hx⟩ := List.getElem?_eq_some_iff.mp h
    rw [List.length_singleton] at hp
    refine .inr ⟨by omega, ?_⟩
    rw [List.getElem_singleton] at hx
    exact hx.symm

/-- **A call** takes a new id. -/
theorem tracked_call (h : Tracked s) (kind : Kind) (fails : Option ε) :
    Tracked (s.call kind fails) := by
  have hnew := h.nextId_not_mem
  have hrequested : (s.call kind fails).requested.Perm
      (fails.elim [s.nextId] (fun _ => []) ++ s.requested) := by
    cases fails with
    | some e => simp [State.call, State.requested]
    | none =>
      simp only [State.call, State.requested, Option.elim, List.map_append, List.map_cons,
        List.map_nil, List.append_assoc]
      exact List.perm_append_comm_assoc _ _ _
  have hmem : ∀ id, id ∈ (s.call kind fails).requested → id = s.nextId ∨ id ∈ s.requested := by
    intro id hid
    rcases List.mem_append.mp (hrequested.mem_iff.mp hid) with hid | hid
    · cases fails with
      | none => exact .inl (List.mem_singleton.mp hid)
      | some e => cases hid
    · exact .inr hid
  refine ⟨?_, ?_, ?_, ?_, h.running, h.answered_nodup, h.answered_received, h.toClient, ?_, ?_, ?_,
    ?_, ?_⟩
  · intro id hid
    rcases List.mem_append.mp hid with hid | hid
    · exact Nat.lt_succ_of_lt (h.issued_lt id hid)
    · obtain rfl := List.mem_singleton.mp hid
      exact Nat.lt_succ_self _
  · refine List.nodup_append.mpr ⟨h.issued_nodup, List.nodup_singleton _, ?_⟩
    rintro x hx y hy rfl
    obtain rfl := List.mem_singleton.mp hy
    exact hnew hx
  · rw [hrequested.nodup_iff]
    cases fails with
    | some e => exact h.requested_nodup
    | none => exact List.nodup_cons.mpr ⟨fun hid => hnew (h.requested_issued _ hid),
        h.requested_nodup⟩
  · intro id hid
    rcases hmem id hid with rfl | hid
    · exact List.mem_append_right _ List.mem_cons_self
    · exact List.mem_append_left _ (h.requested_issued id hid)
  · intro id p hp
    have hp : (s.pending.insert s.nextId s.issued.length).get? id = some p := hp
    rcases Table.of_get?_insert hp with ⟨heq, rfl⟩ | ⟨-, hp⟩
    · rw [heq]
      exact List.getElem?_concat_length
    · exact getElem?_append_of_some (h.pending id p hp)
  · intro p id hp
    show (s.pending.insert s.nextId s.issued.length).get? id = some p ∨ _
    rw [Table.get?_insert]
    rcases getElem?_append_singleton hp with hp | ⟨rfl, rfl⟩
    · have hne : id ≠ s.nextId := fun heq => hnew (heq ▸ List.mem_of_getElem? hp)
      rw [if_neg hne]
      rcases h.waiting p id hp with hwaits | ⟨reply, hreply, hid, hmem⟩
      · exact .inl hwaits
      · exact .inr ⟨reply, hreply, hid, List.mem_append_left _ hmem⟩
    · rw [if_pos rfl]
      exact .inl rfl
  · show ((s.settled ++ fails.elim [] fun e => [(s.issued.length, Except.error e)]).map
      Prod.fst).Nodup
    cases fails with
    | none => simpa using h.settled_nodup
    | some e =>
      rw [List.map_append, List.nodup_append]
      refine ⟨h.settled_nodup, List.nodup_singleton _, ?_⟩
      rintro p hp q hq rfl
      obtain rfl := List.mem_singleton.mp hq
      obtain ⟨x, hx, heq⟩ := List.mem_map.mp hp
      obtain ⟨id, hid, -⟩ := h.settled x hx
      rw [heq, List.getElem?_eq_none (Nat.le_refl _)] at hid
      cases hid
  · intro x hx
    rcases List.mem_append.mp hx with hx | hx
    · obtain ⟨id, hid, hcases⟩ := h.settled x hx
      have hne : id ≠ s.nextId := fun heq => hnew (heq ▸ List.mem_of_getElem? hid)
      refine ⟨id, getElem?_append_of_some hid, ?_⟩
      rcases hcases with hnot | ⟨hnone, hreply⟩
      · exact .inl fun hid' => (hmem id hid').elim hne hnot
      · refine .inr ⟨?_, hreply⟩
        show (s.pending.insert s.nextId s.issued.length).get? id = none
        rw [Table.get?_insert_of_ne _ _ hne]
        exact hnone
    · cases fails with
      | none => cases hx
      | some e =>
        obtain rfl := List.mem_singleton.mp hx
        refine ⟨s.nextId, List.getElem?_concat_length, .inl fun hid => ?_⟩
        have hid := hrequested.mem_iff.mp hid
        exact hnew (h.requested_issued _ hid)
  · intro reply hreply
    rcases h.arrived reply hreply with hflight | ⟨x, hx, hissued, hout⟩
    · exact .inl hflight
    · exact .inr ⟨x, List.mem_append_left _ hx, getElem?_append_of_some hissued, hout⟩

/-- **A request** is received once. -/
theorem tracked_receive (h : Tracked s) (hreceive : s.receive = some s') : Tracked s' := by
  unfold State.receive at hreceive
  split at hreceive
  · cases hreceive
  · next r rest hhost =>
      obtain rfl := Option.some.inj hreceive
      have hrequested : s.requested = r.id :: (rest.map Request.id ++ s.received) := by
        rw [State.requested, hhost]
        rfl
      have hperm : (rest.map Request.id ++ (s.received ++ [r.id])).Perm s.requested := by
        rw [hrequested, ← List.append_assoc]
        exact List.perm_append_singleton _ _
      have hnew : r.id ∉ s.received := by
        have hnodup := h.requested_nodup
        rw [hrequested] at hnodup
        exact fun hid => (List.nodup_cons.mp hnodup).1 (List.mem_append_right _ hid)
      refine ⟨h.issued_lt, h.issued_nodup, hperm.nodup_iff.mpr h.requested_nodup,
        fun id hid => h.requested_issued id (hperm.mem_iff.mp hid), ?_, h.answered_nodup,
        fun id hid => List.mem_append_left _ (h.answered_received id hid), h.toClient, h.pending,
        h.waiting, h.settled_nodup, ?_, h.arrived⟩
      · intro id kind hid
        have hid : (s.running.insert r.id r.kind).get? id = some kind := hid
        rw [Table.get?_insert] at hid
        split at hid
        · next heq =>
            subst heq
            exact ⟨List.mem_append_right _ List.mem_cons_self,
              fun hans => hnew (h.answered_received _ hans)⟩
        · obtain ⟨hreceived, hans⟩ := h.running id kind hid
          exact ⟨List.mem_append_left _ hreceived, hans⟩
      · intro x hx
        obtain ⟨id, hid, hcases⟩ := h.settled x hx
        refine ⟨id, hid, ?_⟩
        rcases hcases with hnot | hreply
        · exact .inl fun hmem => hnot (hperm.mem_iff.mp hmem)
        · exact .inr hreply

/-- The replies of a dispatch carry the id of its request. -/
theorem dispatch_id {kind : Kind} {result : Except ε α} {fails : Option ε} {reply : Reply α ε}
    (h : reply ∈ dispatch kind id result fails) : reply.id = id := by
  have hcall : reply ∈ dispatchRpcCall id result fails → reply.id = id := by
    intro h
    cases result with
    | error e =>
      obtain rfl := Option.some.inj h
      rfl
    | ok v =>
      cases fails <;> (obtain rfl := Option.some.inj h; rfl)
  cases kind with
  | call => exact hcall h
  | get => exact hcall h
  | fetch =>
    cases result with
    | error e =>
      obtain rfl := Option.some.inj h
      rfl
    | ok v =>
      cases fails with
      | none =>
        obtain rfl := Option.some.inj h
        rfl
      | some e => cases h

/-- What a settled method leads to: one reply, or none. -/
theorem settle_cases {result : Except ε α} {fails : Option ε}
    (h : s.settle id result fails = some s') :
    ∃ kind reply, s.running.get? id = some kind ∧ (∀ r ∈ reply, r.id = id) ∧
      reply = (if s.alive then dispatch kind id result fails else none) ∧
      s' = { s with
        running := s.running.erase id
        posted := s.posted ++ reply.toList
        toClient := s.toClient ++ reply.toList } := by
  obtain ⟨kind, hkind, rfl⟩ := Option.map_eq_some_iff.mp h
  refine ⟨kind, if s.alive then dispatch kind id result fails else none, hkind, ?_, rfl, ?_⟩
  · intro r hr
    split at hr
    · exact dispatch_id hr
    · cases hr
  · split <;> rfl

theorem tracked_settle {result : Except ε α} {fails : Option ε} (h : Tracked s)
    (hsettle : s.settle id result fails = some s') : Tracked s' := by
  obtain ⟨kind, reply, hkind, hids, -, rfl⟩ := settle_cases hsettle
  obtain ⟨hreceived, hans⟩ := h.running id kind hkind
  have hnew : ∀ r ∈ reply.toList, r.id = id := fun r hr => hids r (Option.mem_toList.mp hr)
  have hanswered : ∀ x, x ∈ (s.posted ++ reply.toList).map Reply.id →
      x ∈ s.answered ∨ x = id := by
    intro x hx
    rw [List.map_append] at hx
    rcases List.mem_append.mp hx with hx | hx
    · exact .inl hx
    · obtain ⟨r, hr, rfl⟩ := List.mem_map.mp hx
      exact .inr (hnew r hr)
  refine ⟨h.issued_lt, h.issued_nodup, h.requested_nodup, h.requested_issued, ?_, ?_, ?_, ?_,
    h.pending, ?_, h.settled_nodup, ?_, ?_⟩
  · intro x kind' hx
    have hx : (s.running.erase id).get? x = some kind' := hx
    obtain ⟨hne, hx⟩ := Table.of_get?_erase hx
    obtain ⟨hreceived', hans'⟩ := h.running x kind' hx
    exact ⟨hreceived', fun hmem => (hanswered x hmem).elim hans' hne⟩
  · show ((s.posted ++ reply.toList).map Reply.id).Nodup
    rw [List.map_append, List.nodup_append]
    refine ⟨h.answered_nodup, ?_, ?_⟩
    · cases reply <;> simp
    · rintro x hx y hy rfl
      obtain ⟨r, hr, rfl⟩ := List.mem_map.mp hy
      rw [hnew r hr] at hx
      exact hans hx
  · intro x hx
    rcases hanswered x hx with hx | rfl
    · exact h.answered_received x hx
    · exact hreceived
  · intro r hr
    rcases List.mem_append.mp hr with hr | hr
    · exact List.mem_append_left _ (h.toClient r hr)
    · exact List.mem_append_right _ hr
  · intro p x hp
    rcases h.waiting p x hp with hwaits | ⟨r, hr, hid, hmem⟩
    · exact .inl hwaits
    · exact .inr ⟨r, List.mem_append_left _ hr, hid, hmem⟩
  · intro x hx
    obtain ⟨id', hid', hcases⟩ := h.settled x hx
    refine ⟨id', hid', ?_⟩
    rcases hcases with hnot | ⟨hnone, r, hr, hrid, hout⟩
    · exact .inl hnot
    · exact .inr ⟨hnone, r, List.mem_append_left _ hr, hrid, hout⟩
  · intro r hr
    rcases List.mem_append.mp hr with hr | hr
    · rcases h.arrived r hr with hflight | hsettled
      · exact .inl (List.mem_append_left _ hflight)
      · exact .inr hsettled
    · exact .inl (List.mem_append_right _ hr)

/-- A reply to a pending call settles its promise; there is no other reply to a call. -/
theorem tracked_handle {reply : Reply α ε} {i : ℕ} (h : Tracked s)
    (hreply : s.toClient[i]? = some reply) :
    Tracked (State.handle { s with toClient := s.toClient.eraseIdx i } reply) := by
  have hposted := h.toClient reply (List.mem_of_getElem? hreply)
  have hreceived : reply.id ∈ s.received :=
    h.answered_received _ (List.mem_map_of_mem hposted)
  have hrequested : reply.id ∈ s.requested := List.mem_append_right _ hreceived
  have hunique : ∀ r ∈ s.posted, r.id = reply.id → r = reply := fun r hr heq =>
    List.inj_on_of_nodup_map h.answered_nodup hr hposted heq
  have hflight : ∀ r ∈ s.toClient, r ∈ s.toClient.eraseIdx i ∨ r = reply := by
    intro r hr
    by_cases heq : r = reply
    · exact .inr heq
    · refine .inl (List.mem_eraseIdx_iff_getElem?.mpr ?_)
      obtain ⟨j, hj⟩ := List.mem_iff_getElem?.mp hr
      refine ⟨j, ?_, hj⟩
      rintro rfl
      exact heq (Option.some.inj (hj.symm.trans hreply))
  have harrived : ∀ l : List (ℕ × Except ε α), s.settled ⊆ l →
      (∃ x ∈ l, s.issued[x.1]? = some reply.id ∧ x.2 = reply.outcome) →
        ∀ r ∈ s.posted, r ∈ s.toClient.eraseIdx i ∨
          ∃ x ∈ l, s.issued[x.1]? = some r.id ∧ x.2 = r.outcome := by
    intro l hl hown r hr
    rcases h.arrived r hr with hr | ⟨x, hx, hissued, hout⟩
    · rcases hflight r hr with hr | rfl
      · exact .inl hr
      · exact .inr hown
    · exact .inr ⟨x, hl hx, hissued, hout⟩
  have hstill : ∀ r ∈ s.toClient.eraseIdx i, r ∈ s.posted := fun r hr =>
    h.toClient r (List.mem_of_mem_eraseIdx hr)
  obtain ⟨p, hp⟩ := List.mem_iff_getElem?.mp (h.requested_issued _ hrequested)
  unfold State.handle
  split
  · next hnone =>
      have hown : ∃ x ∈ s.settled, s.issued[x.1]? = some reply.id ∧ x.2 = reply.outcome := by
        rcases h.waiting p reply.id hp with hwaits | ⟨r, hr, hid, hmem⟩
        · cases hnone.symm.trans hwaits
        · obtain rfl := hunique r hr hid
          exact ⟨_, hmem, hp, rfl⟩
      exact ⟨h.issued_lt, h.issued_nodup, h.requested_nodup, h.requested_issued, h.running,
        h.answered_nodup, h.answered_received, hstill, h.pending, h.waiting, h.settled_nodup,
        h.settled, harrived s.settled (List.Subset.refl _) hown⟩
  · next q hq =>
      have hissued := h.pending reply.id q hq
      have hfresh : ∀ x ∈ s.settled, x.1 ≠ q := by
        rintro x hx rfl
        obtain ⟨id, hid, hcases⟩ := h.settled x hx
        obtain rfl := Option.some.inj (hissued.symm.trans hid)
        rcases hcases with hnot | ⟨hnone, -⟩
        · exact hnot hrequested
        · cases hnone.symm.trans hq
      refine ⟨h.issued_lt, h.issued_nodup, h.requested_nodup, h.requested_issued, h.running,
        h.answered_nodup, h.answered_received, hstill, ?_, ?_, ?_, ?_,
        harrived _ (List.subset_append_left _ _)
          ⟨_, List.mem_append_right _ List.mem_cons_self, hissued, rfl⟩⟩
      · intro id p' hp'
        have hp' : (s.pending.erase reply.id).get? id = some p' := hp'
        obtain ⟨-, hp'⟩ := Table.of_get?_erase hp'
        exact h.pending id p' hp'
      · intro p' id hp'
        show (s.pending.erase reply.id).get? id = some p' ∨ _
        rw [Table.get?_erase]
        rcases h.waiting p' id hp' with hwaits | ⟨r, hr, hid, hmem⟩
        · split
          · next heq =>
              subst heq
              obtain rfl := Option.some.inj (hq.symm.trans hwaits)
              exact .inr ⟨reply, hposted, rfl, List.mem_append_right _ List.mem_cons_self⟩
          · exact .inl hwaits
        · exact .inr ⟨r, hr, hid, List.mem_append_left _ hmem⟩
      · show ((s.settled ++ [(q, reply.outcome)]).map Prod.fst).Nodup
        rw [List.map_append, List.nodup_append]
        refine ⟨h.settled_nodup, List.nodup_singleton _, ?_⟩
        rintro x hx y hy rfl
        obtain rfl := List.mem_singleton.mp hy
        obtain ⟨z, hz, heq⟩ := List.mem_map.mp hx
        exact hfresh z hz heq
      · intro x hx
        have herase : ∀ id, s.pending.get? id = none → (s.pending.erase reply.id).get? id = none := by
          intro id hnone
          rw [Table.get?_erase]
          split
          · rfl
          · exact hnone
        rcases List.mem_append.mp hx with hx | hx
        · obtain ⟨id, hid, hcases⟩ := h.settled x hx
          refine ⟨id, hid, ?_⟩
          rcases hcases with hnot | ⟨hnone, hr⟩
          · exact .inl hnot
          · exact .inr ⟨herase id hnone, hr⟩
        · obtain rfl := List.mem_singleton.mp hx
          refine ⟨reply.id, hissued, .inr ⟨?_, reply, hposted, rfl, rfl⟩⟩
          show (s.pending.erase reply.id).get? reply.id = none
          rw [Table.get?_erase, if_pos rfl]

/-- **Ids, requests, replies and promises** in every run. -/
theorem tracked_of_step (h : Tracked s) (hstep : step s a = some s') : Tracked s' := by
  cases a with
  | call kind fails =>
    obtain rfl := Option.some.inj hstep
    exact tracked_call h kind fails
  | receive => exact tracked_receive h hstep
  | settle id result fails => exact tracked_settle h hstep
  | deliver i =>
    obtain ⟨reply, hreply, rfl⟩ := Option.map_eq_some_iff.mp hstep
    exact tracked_handle h hreply
  | dispose =>
    obtain rfl := Option.some.inj hstep
    exact ⟨h.issued_lt, h.issued_nodup, h.requested_nodup, h.requested_issued, h.running,
      h.answered_nodup, h.answered_received, h.toClient, h.pending, h.waiting, h.settled_nodup,
      h.settled, h.arrived⟩

/-! ### Replies -/

/-- Each request received has one reply, or none while its method runs. -/
def Replied (s : State α ε) : Prop :=
  ∀ id ∈ s.received, s.answered.count id = if (s.running.get? id).isSome then 0 else 1

/-- The rest of a match holds in every run. -/
theorem matched_iff_replied (h : Tracked s) : Matched s ↔ Replied s := by
  constructor
  · exact fun hmatched => hmatched.2.2.2
  · refine fun hreplied => ⟨h.settled_nodup, fun x hx => ?_, h.arrived, hreplied⟩
    obtain ⟨id, hid, hcases⟩ := h.settled x hx
    exact ⟨id, hid, hcases.imp_right fun hr => hr.2⟩

/-- When a dispatch posts a reply. -/
theorem answerable_iff {kind : Kind} {result : Except ε α} {fails : Option ε}
    (hkind : s.running.get? id = some kind) :
    Answerable s (.settle id result fails) ↔
      (if s.alive then dispatch kind id result fails else none).isSome := by
  cases halive : s.alive with
  | false => cases result <;> simp [Answerable, halive]
  | true =>
    cases result with
    | error e => cases kind
        <;> simp [Answerable, halive, dispatch, dispatchRpcCall, dispatchRpcFetch]
    | ok v =>
      cases fails <;> cases kind <;>
        simp [Answerable, halive, hkind, dispatch, dispatchRpcCall, dispatchRpcFetch]

/-- **A settled method is replied to** exactly if it can be. -/
theorem replied_settle_iff {result : Except ε α} {fails : Option ε} (h : Tracked s)
    (hreplied : Replied s) (hsettle : s.settle id result fails = some s') :
    Replied s' ↔ Answerable s (.settle id result fails) := by
  obtain ⟨kind, reply, hkind, hids, hreply, rfl⟩ := settle_cases hsettle
  obtain ⟨hreceived, hans⟩ := h.running id kind hkind
  rw [answerable_iff hkind, ← hreply]
  have hcount : ∀ x, ((s.posted ++ reply.toList).map Reply.id).count x =
      s.answered.count x + if reply.isSome = true ∧ x = id then 1 else 0 := by
    intro x
    rw [List.map_append, List.count_append]
    congr 1
    cases reply with
    | none => simp
    | some r =>
      have hr : r.id = id := hids r rfl
      by_cases heq : x = id
      · simp [hr, heq]
      · simp [hr, heq, Ne.symm heq]
  constructor
  · intro hall
    have hone := hall id hreceived
    have hone : ((s.posted ++ reply.toList).map Reply.id).count id =
        if ((s.running.erase id).get? id).isSome then 0 else 1 := hone
    rw [hcount, Table.get?_erase, if_pos rfl, List.count_eq_zero_of_not_mem hans] at hone
    by_contra hnot
    simp [hnot] at hone
  · intro hsome x hx
    show ((s.posted ++ reply.toList).map Reply.id).count x =
      if ((s.running.erase id).get? x).isSome then 0 else 1
    rw [hcount, Table.get?_erase]
    by_cases heq : x = id
    · subst heq
      rw [List.count_eq_zero_of_not_mem hans]
      simp [hsome]
    · rw [hreplied x hx, if_neg heq]
      simp [heq]

theorem replied_receive (h : Tracked s) (hreplied : Replied s) (hreceive : s.receive = some s') :
    Replied s' := by
  have h' := tracked_receive h hreceive
  unfold State.receive at hreceive
  split at hreceive
  · cases hreceive
  · next r rest hhost =>
      obtain rfl := Option.some.inj hreceive
      intro id hid
      show s.answered.count id = if ((s.running.insert r.id r.kind).get? id).isSome then 0 else 1
      rw [Table.get?_insert]
      by_cases heq : id = r.id
      · have hans := (h'.running id r.kind (by
          show (s.running.insert r.id r.kind).get? id = some r.kind
          rw [Table.get?_insert, if_pos heq])).2
        rw [if_pos heq]
        exact List.count_eq_zero_of_not_mem hans
      · rw [if_neg heq]
        refine hreplied id ?_
        rcases List.mem_append.mp hid with hid | hid
        · exact hid
        · exact absurd (List.mem_singleton.mp hid) heq

/-- A `fetch` whose response cannot be posted. -/
def lostFetch : List (Label ℕ ℕ) :=
  [.call .fetch none, .receive, .settle 1 (.ok 200) (some 0)]

end Lopata.Rpc
