import Lopata.Lib.Machine
import Mathlib.Data.Finset.Card
import Mathlib.Logic.Function.Basic

/-!
# The Open Sockets of a Durable Object

A worker executor that has returned open sockets is not evicted. The ids of these are kept in a set:
an id is added when the result with the socket is handled, and deleted when the worker or the host
closes the socket. The worker may close its half before it returns the other one; the bridge keeps
such a close until the socket is registered, and registers a closed one.

A step is a message or a call that is handled without anything in between. The ids are random, so
none is returned twice.

## Main results

* `stale_step_iff`: what makes an id stay in the set whose socket is closed, and what removes it.
* `accurate_iff`: in a run the set is that of the open sockets exactly if each close that was there
  before its socket is followed by an event that deletes the id.
* `not_accurate`: a close before the result.
-/

namespace Lopata.Executor

/-- A socket that has been returned, and the peer that posts its events to the worker. -/
structure HostSocket where
  closed : Bool
  peerClosed : Bool := false

variable {Id : Type} [DecidableEq Id]

def forgottenCap : ℕ := 1024

def rememberForgotten (forgotten : List Id) (id : Id) : List Id :=
  let forgotten := if id ∈ forgotten then forgotten else forgotten ++ [id]
  if forgottenCap < forgotten.length then forgotten.tail else forgotten

/-- The executor and its bridge, as far as the sockets are concerned. -/
structure Sockets (Id : Type) where
  openFetchWsIds : Finset Id := ∅
  /-- The sockets that have been returned. -/
  sockets : Id → Option HostSocket := fun _ => none
  /-- `_sockets` of the bridge. -/
  entries : Finset Id := ∅
  /-- The ids with a close in `_pendingEvents`. -/
  closing : Finset Id := ∅
  forgotten : List Id := []
  disposed : Bool := false

namespace Sockets

variable (s : Sockets Id) (id : Id)

def forget : Sockets Id :=
  { s with
    entries := s.entries.erase id
    closing := s.closing.erase id
    forgotten := rememberForgotten s.forgotten id }

def setSocket (socket : HostSocket) : Sockets Id :=
  { s with sockets := Function.update s.sockets id (some socket) }

/-- `executeFetch` goes on with a result that has a socket: it is registered. -/
def register : Sockets Id :=
  let closed := decide (id ∈ s.closing)
  let t := { s.setSocket id { closed } with
    entries := insert id s.entries
    closing := s.closing.erase id }
  let t := if closed then t.forget id else t
  { t with openFetchWsIds := insert id t.openFetchWsIds }

def shut : Sockets Id :=
  { s with
    sockets := Function.update s.sockets id
      ((s.sockets id).map fun socket => { socket with closed := true }) }

def deliverRemoteClose : Sockets Id :=
  if id ∈ s.entries then (s.shut id).forget id
  else if id ∈ s.forgotten then s
  else { s with closing := insert id s.closing }

/-- `fetch-ws-close-out`, which is dropped behind the teardown. -/
def closeOut : Sockets Id :=
  if s.disposed then s
  else
    let t := s.deliverRemoteClose id
    { t with openFetchWsIds := t.openFetchWsIds.erase id }

/-- The peer of a socket is told of its close. -/
def tellPeer (socket : HostSocket) : Sockets Id :=
  if socket.peerClosed then s.setSocket id { socket with closed := true }
  else
    let t := { s with openFetchWsIds := s.openFetchWsIds.erase id }
    (t.setSocket id { closed := true, peerClosed := true }).forget id

/-- `close()` of a socket. -/
def close (socket : HostSocket) : Sockets Id :=
  if socket.closed then s else s.tellPeer id socket

/-- `_teardown`, which closes the sockets that the bridge has. -/
def teardown : Sockets Id where
  openFetchWsIds := ∅
  sockets := fun id => (s.sockets id).map fun socket =>
    if id ∈ s.entries then { socket with closed := true } else socket
  entries := ∅
  closing := ∅
  forgotten := []
  disposed := true

/-- A result hands over a socket, the worker closes its half; the client is gone, the host closes
the socket; the executor is torn down. -/
inductive Label (Id : Type)
  | register (id : Id)
  | closeOut (id : Id)
  | disconnect (id : Id)
  | close (id : Id)
  | teardown

def step : Label Id → Option (Sockets Id)
  | .register id => if (s.sockets id).isSome then none else some (s.register id)
  | .closeOut id => some (s.closeOut id)
  | .disconnect id => (s.sockets id).map (s.tellPeer id)
  | .close id => (s.sockets id).map (s.close id)
  | .teardown => some s.teardown

/-- The socket has been returned and is open. -/
def IsOpen : Prop :=
  ∃ socket, s.sockets id = some socket ∧ socket.closed = false

/-- The reaper evicts an object only if the count is zero. -/
def activeWebSocketCount : ℕ := s.openFetchWsIds.card

/-- The set is that of the sockets that have been returned and are open. -/
def Accurate : Prop :=
  ∀ id, id ∈ s.openFetchWsIds ↔ s.IsOpen id

/-- The id is in the set, and its socket is closed. -/
def Stale : Prop :=
  id ∈ s.openFetchWsIds ∧ ∃ socket, s.sockets id = some socket ∧ socket.closed = true

/-- An open socket is known to the bridge and in the set, and its peer is open; what is in the set
has been returned, and its peer is open. Behind the teardown no close is kept, and what is in the
set is open. -/
structure SoundAt : Prop where
  of_open : ∀ socket, s.sockets id = some socket → socket.closed = false →
    id ∈ s.entries ∧ id ∈ s.openFetchWsIds ∧ socket.peerClosed = false
  of_mem : id ∈ s.openFetchWsIds → ∃ socket, s.sockets id = some socket ∧ socket.peerClosed = false
  of_disposed : s.disposed = true → id ∉ s.closing ∧ ¬ s.Stale id

def Sound : Prop := ∀ id, s.SoundAt id

/-- Two states agree on an id. -/
structure SameAt (t : Sockets Id) : Prop where
  disposed : t.disposed = s.disposed
  socket : t.sockets id = s.sockets id
  mem_open : id ∈ t.openFetchWsIds ↔ id ∈ s.openFetchWsIds
  mem_entries : id ∈ t.entries ↔ id ∈ s.entries
  mem_closing : id ∈ t.closing ↔ id ∈ s.closing

/-- The events that delete an id. -/
def Deletes : Label Id → Prop
  | .closeOut id' | .disconnect id' => id' = id
  | .teardown => True
  | _ => False

variable {s id}

omit [DecidableEq Id]

/-- If the set is right, an object is kept alive exactly if it has an open socket. -/
theorem Accurate.activeWebSocketCount_pos_iff (h : s.Accurate) :
    0 < s.activeWebSocketCount ↔ ∃ id, s.IsOpen id := by
  rw [activeWebSocketCount, Finset.card_pos]
  exact exists_congr h

/-- In a sound state, an object with an open socket is not evicted. -/
theorem Sound.activeWebSocketCount_pos (h : s.Sound) (hopen : s.IsOpen id) :
    0 < s.activeWebSocketCount := by
  obtain ⟨socket, hsocket, hopen⟩ := hopen
  exact Finset.card_pos.mpr ⟨id, ((h id).of_open socket hsocket hopen).2.1⟩

/-- In a sound state, the set is right exactly if nothing in it is stale. -/
theorem Sound.accurate_iff_not_stale (h : s.Sound) : s.Accurate ↔ ∀ id, ¬ s.Stale id := by
  constructor
  · rintro haccurate id ⟨hmem, socket, hsocket, hclosed⟩
    obtain ⟨socket', hsocket', hopen⟩ := (haccurate id).mp hmem
    obtain rfl := Option.some.inj (hsocket.symm.trans hsocket')
    exact Bool.false_ne_true (hopen.symm.trans hclosed)
  · intro hstale id
    constructor
    · intro hmem
      obtain ⟨socket, hsocket, -⟩ := (h id).of_mem hmem
      refine ⟨socket, hsocket, Bool.eq_false_iff.mpr fun hclosed => ?_⟩
      exact hstale id ⟨hmem, socket, hsocket, hclosed⟩
    · rintro ⟨socket, hsocket, hopen⟩
      exact ((h id).of_open socket hsocket hopen).2.1

theorem SameAt.stale_iff {t : Sockets Id} (h : s.SameAt id t) : t.Stale id ↔ s.Stale id := by
  rw [Stale, Stale, h.mem_open, h.socket]

theorem SameAt.soundAt {t : Sockets Id} (h : s.SameAt id t) (hs : s.SoundAt id) :
    t.SoundAt id where
  of_open := by
    rw [h.socket, h.mem_entries, h.mem_open]
    exact hs.of_open
  of_mem := by
    rw [h.socket, h.mem_open]
    exact hs.of_mem
  of_disposed := by
    rw [h.disposed, h.mem_closing, h.stale_iff]
    exact hs.of_disposed

variable [DecidableEq Id]

/-! ### What a step does -/

section Frame

variable {id' : Id} (hne : id' ≠ id)

include hne

theorem sameAt_register : s.SameAt id' (s.register id) := by
  by_cases h : id ∈ s.closing <;>
    constructor <;> simp [register, setSocket, forget, h, hne]

theorem sameAt_closeOut : s.SameAt id' (s.closeOut id) := by
  by_cases hdisposed : s.disposed = true
  · rw [closeOut, if_pos hdisposed]
    exact ⟨rfl, rfl, Iff.rfl, Iff.rfl, Iff.rfl⟩
  · rw [closeOut, if_neg hdisposed, deliverRemoteClose]
    split_ifs <;> constructor <;> simp [shut, forget, hne]

theorem sameAt_tellPeer (socket : HostSocket) : s.SameAt id' (s.tellPeer id socket) := by
  rw [tellPeer]
  split_ifs <;> constructor <;> simp [setSocket, forget, hne]

theorem sameAt_close (socket : HostSocket) : s.SameAt id' (s.close id socket) := by
  rw [close]
  split_ifs
  · exact ⟨rfl, rfl, Iff.rfl, Iff.rfl, Iff.rfl⟩
  · exact sameAt_tellPeer hne socket

end Frame

theorem SoundAt.register (h : s.SoundAt id) :
    (s.register id).SoundAt id ∧ ((s.register id).Stale id ↔ id ∈ s.closing) := by
  have hstale : (s.register id).Stale id ↔ id ∈ s.closing := by
    by_cases hclosing : id ∈ s.closing <;>
      simp [Stale, Sockets.register, setSocket, forget, hclosing]
  refine ⟨⟨?_, ?_, fun hdisposed => ?_⟩, hstale⟩
  · by_cases hclosing : id ∈ s.closing <;>
      simp [Sockets.register, setSocket, forget, hclosing]
  · by_cases hclosing : id ∈ s.closing <;>
      simp [Sockets.register, setSocket, forget, hclosing]
  · have hdisposed : s.disposed = true := by
      by_cases hclosing : id ∈ s.closing <;>
        simpa [Sockets.register, setSocket, forget, hclosing] using hdisposed
    have hclosing := (h.of_disposed hdisposed).1
    rw [hstale]
    exact ⟨by simp [Sockets.register, setSocket, hclosing], hclosing⟩

omit [DecidableEq Id] in
/-- A socket that is not in the set and is not open. -/
theorem SoundAt.of_notMem {t : Sockets Id} (hmem : id ∉ t.openFetchWsIds)
    (hclosed : ∀ socket, t.sockets id = some socket → socket.closed = true)
    (hclosing : t.disposed = true → id ∉ t.closing) : t.SoundAt id ∧ ¬ t.Stale id := by
  have hstale : ¬ t.Stale id := fun h => hmem h.1
  refine ⟨⟨fun socket hsocket hopen => ?_, fun h => absurd h hmem, fun hdisposed => ?_⟩, hstale⟩
  · exact absurd (hclosed socket hsocket) (by rw [hopen]; exact Bool.false_ne_true)
  · exact ⟨hclosing hdisposed, hstale⟩

theorem SoundAt.closeOut (h : s.SoundAt id) :
    (s.closeOut id).SoundAt id ∧ ¬ (s.closeOut id).Stale id := by
  by_cases hdisposed : s.disposed = true
  · rw [Sockets.closeOut, if_pos hdisposed]
    exact ⟨h, (h.of_disposed hdisposed).2⟩
  have hclosed (hentry : id ∉ s.entries) :
      ∀ socket, s.sockets id = some socket → socket.closed = true := fun socket hsocket =>
    eq_true_of_ne_false fun hopen => hentry (h.of_open socket hsocket hopen).1
  rw [Sockets.closeOut, if_neg hdisposed, deliverRemoteClose]
  split_ifs with hentry hforgotten
  · apply SoundAt.of_notMem <;> simp [shut, forget]
  · exact SoundAt.of_notMem (by simp) (hclosed hentry) fun h => absurd h hdisposed
  · exact SoundAt.of_notMem (by simp) (hclosed hentry) fun h => absurd h hdisposed

theorem SoundAt.tellPeer (h : s.SoundAt id) {socket : HostSocket}
    (hsocket : s.sockets id = some socket) :
    (s.tellPeer id socket).SoundAt id ∧ ¬ (s.tellPeer id socket).Stale id := by
  rw [Sockets.tellPeer]
  split_ifs with hpeer
  · have hmem : id ∉ s.openFetchWsIds := by
      intro hmem
      obtain ⟨socket', hsocket', hpeer'⟩ := h.of_mem hmem
      obtain rfl := Option.some.inj (hsocket.symm.trans hsocket')
      exact Bool.false_ne_true (hpeer'.symm.trans hpeer)
    refine SoundAt.of_notMem hmem ?_ fun hdisposed => (h.of_disposed hdisposed).1
    simp [setSocket]
  · apply SoundAt.of_notMem <;> simp [setSocket, forget]

theorem SoundAt.close (h : s.SoundAt id) {socket : HostSocket}
    (hsocket : s.sockets id = some socket) :
    (s.close id socket).SoundAt id ∧ ((s.close id socket).Stale id ↔ s.Stale id) := by
  rw [Sockets.close]
  split_ifs with hclosed
  · exact ⟨h, Iff.rfl⟩
  · refine ⟨(h.tellPeer hsocket).1, iff_of_false (h.tellPeer hsocket).2 ?_⟩
    rintro ⟨-, socket', hsocket', hclosed'⟩
    obtain rfl := Option.some.inj (hsocket.symm.trans hsocket')
    exact hclosed hclosed'

theorem SoundAt.teardown (h : s.SoundAt id) : s.teardown.SoundAt id ∧ ¬ s.teardown.Stale id := by
  apply SoundAt.of_notMem
  · simp [Sockets.teardown]
  · intro socket hsocket
    obtain ⟨socket', hsocket', rfl⟩ := Option.map_eq_some_iff.mp hsocket
    by_cases hentry : id ∈ s.entries
    · rw [if_pos hentry]
    · rw [if_neg hentry]
      exact eq_true_of_ne_false fun hopen => hentry (h.of_open socket' hsocket' hopen).1
  · simp [Sockets.teardown]

/-- What makes an id stale in a step, and what ends it. -/
theorem Sound.stale_step_iff (h : s.Sound) {a : Label Id} {t : Sockets Id}
    (hstep : s.step a = some t) :
    t.Sound ∧ ∀ id, t.Stale id ↔
      a = .register id ∧ id ∈ s.closing ∨ s.Stale id ∧ ¬ Deletes id a := by
  suffices hat : ∀ id, t.SoundAt id ∧ (t.Stale id ↔
      a = .register id ∧ id ∈ s.closing ∨ s.Stale id ∧ ¬ Deletes id a) from
    ⟨fun id => (hat id).1, fun id => (hat id).2⟩
  intro id
  have hsame {u : Sockets Id} (hu : s.SameAt id u) (hregister : a ≠ .register id)
      (hdeletes : ¬ Deletes id a) : u.SoundAt id ∧ (u.Stale id ↔
        a = .register id ∧ id ∈ s.closing ∨ s.Stale id ∧ ¬ Deletes id a) := by
    refine ⟨hu.soundAt (h id), ?_⟩
    rw [hu.stale_iff]
    simp [hregister, hdeletes]
  cases a with
  | register id' =>
    obtain ⟨hnew, hstep⟩ := Option.ite_none_left_eq_some.mp hstep
    obtain rfl := Option.some.inj hstep
    by_cases hid : id = id'
    · subst hid
      have hold : ¬ s.Stale id := by
        rintro ⟨-, socket, hsocket, -⟩
        exact hnew (by rw [hsocket]; rfl)
      simp [(h id).register, hold]
    · refine hsame (sameAt_register hid) ?_ ?_ <;> simp [Deletes, Ne.symm hid]
  | closeOut id' =>
    obtain rfl := Option.some.inj hstep
    by_cases hid : id = id'
    · subst hid
      simp [(h id).closeOut, Deletes]
    · refine hsame (sameAt_closeOut hid) ?_ ?_ <;> simp [Deletes, Ne.symm hid]
  | disconnect id' =>
    obtain ⟨socket, hsocket, rfl⟩ := Option.map_eq_some_iff.mp hstep
    by_cases hid : id = id'
    · subst hid
      simp [(h id).tellPeer hsocket, Deletes]
    · refine hsame (sameAt_tellPeer hid socket) ?_ ?_ <;> simp [Deletes, Ne.symm hid]
  | close id' =>
    obtain ⟨socket, hsocket, rfl⟩ := Option.map_eq_some_iff.mp hstep
    by_cases hid : id = id'
    · subst hid
      simp [(h id).close hsocket, Deletes]
    · refine hsame (sameAt_close hid socket) ?_ ?_ <;> simp [Deletes]
  | teardown =>
    obtain rfl := Option.some.inj hstep
    simp [(h id).teardown, Deletes]

omit [DecidableEq Id] in
theorem sound_empty : ({} : Sockets Id).Sound := by
  intro id
  constructor <;> simp [Stale]

/-- What is stale behind a run. -/
theorem stale_play_iff {labels : List (Label Id)} (hplay : play step {} labels = some s) :
    s.Sound ∧ ∀ id, s.Stale id ↔
      ∃ pre post u, labels = pre ++ .register id :: post ∧ play step {} pre = some u ∧
        id ∈ u.closing ∧ ∀ a ∈ post, ¬ Deletes id a := by
  induction labels using List.reverseRecOn generalizing s with
  | nil =>
    obtain rfl := Option.some.inj hplay
    refine ⟨sound_empty, fun id => iff_of_false (by simp [Stale]) ?_⟩
    rintro ⟨pre, post, u, hlabels, -⟩
    simp at hlabels
  | append_singleton labels a ih =>
    obtain ⟨t, ht, hstep⟩ := Option.bind_eq_some_iff.mp ((play_concat ..).symm.trans hplay)
    obtain ⟨hsound, hstale⟩ := ih ht
    obtain ⟨hsound, hstep⟩ := hsound.stale_step_iff hstep
    refine ⟨hsound, fun id => ?_⟩
    rw [hstep id, hstale id]
    constructor
    · rintro (⟨rfl, hclosing⟩ | ⟨⟨pre, post, u, rfl, hu, hclosing, hpost⟩, ha⟩)
      · exact ⟨labels, [], t, rfl, ht, hclosing, List.forall_mem_nil _⟩
      · refine ⟨pre, post ++ [a], u, by simp, hu, hclosing, ?_⟩
        exact List.forall_mem_append.mpr ⟨hpost, List.forall_mem_singleton.mpr ha⟩
    · rintro ⟨pre, post, u, hlabels, hu, hclosing, hpost⟩
      rcases List.eq_nil_or_concat post with rfl | ⟨post, b, rfl⟩
      · obtain ⟨rfl, rfl⟩ := List.append_singleton_inj.mp hlabels
        obtain rfl := Option.some.inj (ht.symm.trans hu)
        exact .inl ⟨rfl, hclosing⟩
      · rw [List.concat_eq_append] at hlabels hpost
        rw [← List.cons_append, ← List.append_assoc] at hlabels
        obtain ⟨rfl, rfl⟩ := List.append_singleton_inj.mp hlabels
        obtain ⟨hpost, ha⟩ := List.forall_mem_append.mp hpost
        exact .inr ⟨⟨pre, post, u, rfl, hu, hclosing, hpost⟩, ha a (List.mem_singleton_self a)⟩

/-- The ids in the set are those of the open sockets exactly if each socket whose close was there
before it is followed by an event that deletes its id. -/
theorem accurate_iff {labels : List (Label Id)} (hplay : play step {} labels = some s) :
    s.Accurate ∧ (0 < s.activeWebSocketCount ↔ ∃ id, s.IsOpen id) ↔
      ∀ pre id post u, labels = pre ++ .register id :: post → play step {} pre = some u →
        id ∈ u.closing → ∃ a ∈ post, Deletes id a := by
  obtain ⟨hsound, hstale⟩ := stale_play_iff hplay
  have haccurate : s.Accurate ∧ (0 < s.activeWebSocketCount ↔ ∃ id, s.IsOpen id) ↔ s.Accurate :=
    and_iff_left_of_imp Accurate.activeWebSocketCount_pos_iff
  rw [haccurate, hsound.accurate_iff_not_stale]
  constructor
  · intro hnot pre id post u hlabels hu hclosing
    by_contra hpost
    refine hnot id ((hstale id).mpr ⟨pre, post, u, hlabels, hu, hclosing, fun a ha hdeletes => ?_⟩)
    exact hpost ⟨a, ha, hdeletes⟩
  · intro hdeleted id hstale'
    obtain ⟨pre, post, u, hlabels, hu, hclosing, hpost⟩ := (hstale id).mp hstale'
    obtain ⟨a, ha, hdeletes⟩ := hdeleted pre id post u hlabels hu hclosing
    exact hpost a ha hdeletes

/-- A client that goes away behind such a close ends it. -/
theorem accurate_iff_disconnect :
    ∃ s : Sockets ℕ, play step {} [.closeOut 0, .register 0, .disconnect 0] = some s ∧
      s.Accurate := by
  refine ⟨_, rfl, ((@accurate_iff ℕ _ _ [.closeOut 0, .register 0, .disconnect 0] rfl).mpr
    fun pre id post u hlabels _ _ => ?_).1⟩
  match pre with
  | [_] =>
      simp only [List.cons_append, List.nil_append, List.cons.injEq, Label.register.injEq]
        at hlabels
      obtain ⟨-, rfl, rfl⟩ := hlabels
      exact ⟨.disconnect 0, List.mem_singleton_self _, rfl⟩
  | [] => simp at hlabels
  | [_, _] => simp at hlabels
  | _ :: _ :: _ :: pre => simp at hlabels

/-- The worker closes its half before it returns the other one: the socket that is registered is
closed, and the object is kept alive. -/
theorem not_accurate :
    ¬ ∀ (labels : List (Label ℕ)) (s : Sockets ℕ), play step {} labels = some s →
      s.Accurate ∧ (0 < s.activeWebSocketCount ↔ ∃ id, s.IsOpen id) := by
  intro h
  obtain ⟨-, hcount⟩ := h [.closeOut 0, .register 0] _ rfl
  obtain ⟨id, socket, hsocket, hopen⟩ := hcount.mp (by decide)
  obtain rfl | hid := eq_or_ne id 0
  · obtain rfl := Option.some.inj hsocket
    exact Bool.false_ne_true hopen.symm
  · rw [(sameAt_register hid).socket, (sameAt_closeOut hid).socket] at hsocket
    cases hsocket

end Sockets

end Lopata.Executor
