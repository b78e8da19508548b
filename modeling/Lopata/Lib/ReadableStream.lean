import Mathlib.Data.List.Infix
import Mathlib.Data.Nat.Notation

/-!
# Readable Streams

The default stream of the platform: a queue between a source, which enqueues chunks and closes or
errors the stream, and a reader, whose requests wait while the queue is empty. The stream calls
the source's pull algorithm while it wants more, one call at a time. What the reader is given is
logged in order.

## Main results

* `ReadableStream.Fed`: the reader has been given the source's chunks in order up to those still
  in the queue, and the source's end after the last of them; each operation keeps this.
* `ReadableStream.Prompt`: a stream that still wants more has just pulled, or will pull again once
  the pull that is under way is done; each operation makes it so.
* `ReadableStream.callPull_work`: an attempt to pull costs two units of the work still due.
-/

namespace Lopata

/-- What a source gives and a reader observes. -/
inductive StreamEvent (α ε : Type*)
  | chunk (a : α)
  | close
  | error (e : ε)
deriving DecidableEq

/-- The stream goes on after the event. -/
def StreamEvent.IsChunk {α ε : Type*} : StreamEvent α ε → Prop
  | .chunk _ => True
  | .close | .error _ => False

instance {α ε : Type*} : (ev : StreamEvent α ε) → Decidable ev.IsChunk
  | .chunk _ => .isTrue trivial
  | .close | .error _ => .isFalse id

/-- How many of the events are chunks. -/
def chunkCount {α ε : Type*} (evs : List (StreamEvent α ε)) : ℕ :=
  evs.countP fun ev => ev.IsChunk

inductive StreamStatus (ε : Type*)
  | readable
  | closed
  | errored (e : ε)
deriving DecidableEq

def StreamStatus.isReadable {ε : Type*} : StreamStatus ε → Bool
  | .readable => true
  | .closed | .errored _ => false

structure ReadableStream (α ε : Type*) where
  highWaterMark : ℕ
  status : StreamStatus ε := .readable
  queue : List α := []
  closeRequested : Bool := false
  /-- The reaction to the start algorithm has run. -/
  started : Bool := false
  /-- A call of the pull algorithm has not settled. -/
  pulling : Bool := false
  pullAgain : Bool := false
  /-- The reads that wait for a chunk. -/
  readRequests : ℕ := 0
  /-- How often the pull algorithm has been called. -/
  pulls : ℕ := 0
  /-- What the reader has been given. -/
  observed : List (StreamEvent α ε) := []
deriving DecidableEq

namespace ReadableStream

variable {α ε : Type*} {s : ReadableStream α ε} {a : α} {e : ε} {d : List (StreamEvent α ε)}

/-! ### The operations -/

/-- Chunks can be enqueued, and the stream can be closed. -/
def CanCloseOrEnqueue (s : ReadableStream α ε) : Prop :=
  s.status.isReadable = true ∧ s.closeRequested = false

instance (s : ReadableStream α ε) : Decidable s.CanCloseOrEnqueue :=
  inferInstanceAs (Decidable (_ ∧ _))

def ShouldPull (s : ReadableStream α ε) : Prop :=
  s.CanCloseOrEnqueue ∧ s.started = true ∧
    (0 < s.readRequests ∨ s.queue.length < s.highWaterMark)

instance (s : ReadableStream α ε) : Decidable s.ShouldPull :=
  inferInstanceAs (Decidable (_ ∧ _ ∧ _))

/-- Call the pull algorithm if more is wanted; during a call only note that it is. -/
def callPull (s : ReadableStream α ε) : ReadableStream α ε :=
  if s.ShouldPull then
    if s.pulling then { s with pullAgain := true }
    else { s with pulling := true, pulls := s.pulls + 1 }
  else s

/-- The reaction to the start algorithm. -/
def start (s : ReadableStream α ε) : ReadableStream α ε :=
  callPull { s with started := true }

/-- The reaction to a settled call of the pull algorithm. -/
def pulled (s : ReadableStream α ε) : ReadableStream α ε :=
  if s.pullAgain then callPull { s with pulling := false, pullAgain := false }
  else { s with pulling := false }

/-- The stream is closed; reads that wait get no chunk. -/
def finish (s : ReadableStream α ε) : ReadableStream α ε :=
  { s with status := .closed, readRequests := 0, observed := s.observed ++ [.close] }

/-- Enqueue a chunk, or hand it to a read that waits; throws on a stream that is over. -/
def enqueue (s : ReadableStream α ε) (a : α) : Option (ReadableStream α ε) :=
  if s.CanCloseOrEnqueue then
    some (callPull (if 0 < s.readRequests then
      { s with readRequests := s.readRequests - 1, observed := s.observed ++ [.chunk a] }
    else { s with queue := s.queue ++ [a] }))
  else none

/-- Close the stream once the queue has been read; throws on a stream that is over. -/
def close (s : ReadableStream α ε) : Option (ReadableStream α ε) :=
  if s.CanCloseOrEnqueue then
    some (if s.queue = [] then finish { s with closeRequested := true }
      else { s with closeRequested := true })
  else none

/-- Error the stream; the queue is dropped. -/
def error (s : ReadableStream α ε) (e : ε) : ReadableStream α ε :=
  match s.status with
  | .readable =>
      { s with
        status := .errored e
        queue := []
        readRequests := 0
        observed := s.observed ++ [.error e] }
  | _ => s

/-- One of the three. -/
def feed (s : ReadableStream α ε) : StreamEvent α ε → Option (ReadableStream α ε)
  | .chunk a => s.enqueue a
  | .close => s.close
  | .error e => some (s.error e)

/-- A read; on a stream that is over it settles at once. -/
def read (s : ReadableStream α ε) : ReadableStream α ε :=
  match s.status with
  | .readable =>
      match s.queue with
      | [] => callPull { s with readRequests := s.readRequests + 1 }
      | a :: rest =>
          if s.closeRequested ∧ rest = [] then
            finish { s with queue := [], observed := s.observed ++ [.chunk a] }
          else callPull { s with queue := rest, observed := s.observed ++ [.chunk a] }
  | _ => s

/-- The reader gives the stream up; on a stream that is over nothing happens. -/
def cancel (s : ReadableStream α ε) : ReadableStream α ε :=
  match s.status with
  | .readable => { finish s with queue := [] }
  | _ => s

/-! ### What the reader has been given -/

@[simp] theorem highWaterMark_callPull : s.callPull.highWaterMark = s.highWaterMark := by
  unfold callPull; split <;> try split
  all_goals rfl

@[simp] theorem status_callPull : s.callPull.status = s.status := by
  unfold callPull; split <;> try split
  all_goals rfl

@[simp] theorem queue_callPull : s.callPull.queue = s.queue := by
  unfold callPull; split <;> try split
  all_goals rfl

@[simp] theorem closeRequested_callPull : s.callPull.closeRequested = s.closeRequested := by
  unfold callPull; split <;> try split
  all_goals rfl

@[simp] theorem started_callPull : s.callPull.started = s.started := by
  unfold callPull; split <;> try split
  all_goals rfl

@[simp] theorem readRequests_callPull : s.callPull.readRequests = s.readRequests := by
  unfold callPull; split <;> try split
  all_goals rfl

@[simp] theorem observed_callPull : s.callPull.observed = s.observed := by
  unfold callPull; split <;> try split
  all_goals rfl

/-- The stream has been fed with the events `d`: the reader has been given the chunks before the
queue, and the end once the queue is empty. An error overtakes the queue. -/
inductive Fed (s : ReadableStream α ε) (d : List (StreamEvent α ε)) : Prop
  | flowing (cs : List α) (hstatus : s.status = .readable) (hclose : s.closeRequested = false)
      (hwaits : 0 < s.readRequests → s.queue = []) (hobserved : s.observed = cs.map .chunk)
      (hd : d = (cs ++ s.queue).map .chunk)
  | draining (cs : List α) (hstatus : s.status = .readable) (hclose : s.closeRequested = true)
      (hqueue : s.queue ≠ []) (hwaits : s.readRequests = 0) (hobserved : s.observed = cs.map .chunk)
      (hd : d = (cs ++ s.queue).map .chunk ++ [.close])
  | closed (cs : List α) (hstatus : s.status = .closed)
      (hobserved : s.observed = cs.map .chunk ++ [.close]) (hd : d = cs.map .chunk ++ [.close])
  | errored (e : ε) (cs cs' : List α) (hstatus : s.status = .errored e)
      (hobserved : s.observed = cs.map .chunk ++ [.error e])
      (hd : d = (cs ++ cs').map .chunk ++ [.error e])

theorem Fed.new (n : ℕ) : Fed ({ highWaterMark := n } : ReadableStream α ε) [] :=
  .flowing [] rfl rfl (fun _ => rfl) rfl rfl

/-- What a stream has been fed with can be seen from four of its fields. -/
theorem Fed.congr {s' : ReadableStream α ε} (h : Fed s d) (hstatus : s'.status = s.status)
    (hqueue : s'.queue = s.queue) (hclose : s'.closeRequested = s.closeRequested)
    (hrequests : s'.readRequests = s.readRequests) (hobserved : s'.observed = s.observed) :
    Fed s' d := by
  cases h with
  | flowing cs h₁ h₂ h₃ h₄ h₅ =>
    refine .flowing cs (hstatus.trans h₁) (hclose.trans h₂) ?_ (hobserved.trans h₄) ?_
    · rw [hqueue, hrequests]
      exact h₃
    · rw [hqueue]
      exact h₅
  | draining cs h₁ h₂ h₃ h₄ h₅ h₆ =>
    refine .draining cs (hstatus.trans h₁) (hclose.trans h₂) ?_ (hrequests.trans h₄)
      (hobserved.trans h₅) ?_
    · rw [hqueue]
      exact h₃
    · rw [hqueue]
      exact h₆
  | closed cs h₁ h₂ h₃ => exact .closed cs (hstatus.trans h₁) (hobserved.trans h₂) h₃
  | errored e cs cs' h₁ h₂ h₃ =>
    exact .errored e cs cs' (hstatus.trans h₁) (hobserved.trans h₂) h₃

theorem Fed.callPull (h : Fed s d) : Fed s.callPull d :=
  h.congr (by simp) (by simp) (by simp) (by simp) (by simp)

theorem Fed.start (h : Fed s d) : Fed s.start d :=
  Fed.callPull (h.congr rfl rfl rfl rfl rfl)

theorem Fed.pulled (h : Fed s d) : Fed s.pulled d := by
  unfold ReadableStream.pulled
  split
  · exact Fed.callPull (h.congr rfl rfl rfl rfl rfl)
  · exact h.congr rfl rfl rfl rfl rfl

theorem read_of_nil (hstatus : s.status = .readable) (hqueue : s.queue = []) :
    s.read = callPull { s with readRequests := s.readRequests + 1 } := by
  simp [ReadableStream.read, hstatus, hqueue]

theorem read_of_cons {rest : List α} (hstatus : s.status = .readable)
    (hqueue : s.queue = a :: rest) (hmore : s.closeRequested = true → rest ≠ []) :
    s.read = callPull { s with queue := rest, observed := s.observed ++ [.chunk a] } := by
  have hnot : ¬ (s.closeRequested = true ∧ rest = []) := fun h => hmore h.1 h.2
  simp only [ReadableStream.read, hstatus, hqueue, hnot, if_false]

theorem read_of_last (hstatus : s.status = .readable) (hqueue : s.queue = [a])
    (hclose : s.closeRequested = true) :
    s.read = finish { s with queue := [], observed := s.observed ++ [.chunk a] } := by
  simp only [ReadableStream.read, hstatus, hqueue, hclose, and_self, if_true]

theorem read_of_over (hstatus : s.status ≠ .readable) : s.read = s := by
  unfold ReadableStream.read
  split
  · next h => exact absurd h hstatus
  · rfl

/-- **A read** gives the reader the next chunk, and the end after the last one. -/
theorem Fed.read (h : Fed s d) : Fed s.read d := by
  cases h with
  | flowing cs hstatus hclose hwaits hobserved hd =>
    cases hqueue : s.queue with
    | nil =>
      rw [read_of_nil hstatus hqueue]
      exact Fed.callPull (.flowing cs hstatus hclose (fun _ => hqueue) hobserved hd)
    | cons a rest =>
      have hnone : ¬ 0 < s.readRequests := fun hpos => by
        rw [hwaits hpos] at hqueue
        cases hqueue
      rw [read_of_cons hstatus hqueue (by simp [hclose])]
      refine Fed.callPull (.flowing (cs ++ [a]) hstatus hclose (fun hpos => absurd hpos hnone)
        ?_ ?_)
      · simp [hobserved]
      · simp [hd, hqueue]
  | draining cs hstatus hclose hne hwaits hobserved hd =>
    cases hqueue : s.queue with
    | nil => exact absurd hqueue hne
    | cons a rest =>
      by_cases hlast : rest = []
      · subst hlast
        rw [read_of_last hstatus hqueue hclose]
        refine .closed (cs ++ [a]) rfl ?_ ?_
        · simp [finish, hobserved]
        · simp [hd, hqueue]
      · rw [read_of_cons hstatus hqueue fun _ => hlast]
        refine Fed.callPull (.draining (cs ++ [a]) hstatus hclose hlast hwaits ?_ ?_)
        · simp [hobserved]
        · simp [hd, hqueue]
  | closed cs hstatus hobserved hd =>
    rw [read_of_over (by simp [hstatus])]
    exact .closed cs hstatus hobserved hd
  | errored e cs cs' hstatus hobserved hd =>
    rw [read_of_over (by simp [hstatus])]
    exact .errored e cs cs' hstatus hobserved hd

/-- A stream that has been fed with chunks only takes more. -/
theorem Fed.flowing_of_chunks (h : Fed s d) (hd : ∀ ev ∈ d, ev.IsChunk) :
    s.CanCloseOrEnqueue ∧ (0 < s.readRequests → s.queue = []) ∧
      ∃ cs, s.observed = cs.map .chunk ∧ d = (cs ++ s.queue).map .chunk := by
  cases h with
  | flowing cs hstatus hclose hwaits hobserved hd' =>
    exact ⟨⟨by rw [hstatus]; rfl, hclose⟩, hwaits, cs, hobserved, hd'⟩
  | draining cs _ _ _ _ _ hd' => exact (hd .close (by simp [hd'])).elim
  | closed cs _ _ hd' => exact (hd .close (by simp [hd'])).elim
  | errored e cs cs' _ _ hd' => exact (hd (.error e) (by simp [hd'])).elim

/-- **An event after chunks** is taken. -/
theorem Fed.feed (h : Fed s d) (hd : ∀ ev ∈ d, ev.IsChunk) (ev : StreamEvent α ε) :
    ∃ s', s.feed ev = some s' ∧ Fed s' (d ++ [ev]) := by
  obtain ⟨hcan, hwaits, cs, hobserved, rfl⟩ := h.flowing_of_chunks hd
  have hstatus : s.status = .readable := by
    cases hs : s.status with
    | readable => rfl
    | closed => cases hs ▸ hcan.1
    | errored e => cases hs ▸ hcan.1
  cases ev with
  | chunk a =>
    refine ⟨_, if_pos hcan, Fed.callPull ?_⟩
    by_cases hpos : 0 < s.readRequests
    · rw [if_pos hpos]
      refine .flowing (cs ++ [a]) hstatus hcan.2 (fun _ => hwaits hpos) ?_ ?_
      · simp [hobserved]
      · simp [hwaits hpos]
    · rw [if_neg hpos]
      refine .flowing cs hstatus hcan.2 (fun h => absurd h hpos) hobserved ?_
      simp
  | close =>
    refine ⟨_, if_pos hcan, ?_⟩
    by_cases hqueue : s.queue = []
    · rw [if_pos hqueue]
      refine .closed cs rfl ?_ ?_
      · simp [finish, hobserved]
      · simp [hqueue]
    · rw [if_neg hqueue]
      have hnone : s.readRequests = 0 := by
        by_contra hpos
        exact hqueue (hwaits (Nat.pos_of_ne_zero hpos))
      exact .draining cs hstatus rfl hqueue hnone hobserved rfl
  | error e =>
    refine ⟨_, rfl, ?_⟩
    refine .errored e cs s.queue ?_ ?_ rfl
    · simp [ReadableStream.error, hstatus]
    · simp [ReadableStream.error, hstatus, hobserved]

/-! ### A stream that is not asked to close goes on -/

theorem CanCloseOrEnqueue.callPull (h : s.CanCloseOrEnqueue) : s.callPull.CanCloseOrEnqueue :=
  ⟨by rw [status_callPull]; exact h.1, by rw [closeRequested_callPull]; exact h.2⟩

theorem CanCloseOrEnqueue.start (h : s.CanCloseOrEnqueue) : s.start.CanCloseOrEnqueue :=
  CanCloseOrEnqueue.callPull h

theorem CanCloseOrEnqueue.pulled (h : s.CanCloseOrEnqueue) : s.pulled.CanCloseOrEnqueue := by
  unfold ReadableStream.pulled
  split
  · exact CanCloseOrEnqueue.callPull h
  · exact h

theorem CanCloseOrEnqueue.read (h : s.CanCloseOrEnqueue) : s.read.CanCloseOrEnqueue := by
  by_cases hstatus : s.status = .readable
  · cases hqueue : s.queue with
    | nil =>
      rw [read_of_nil hstatus hqueue]
      exact CanCloseOrEnqueue.callPull h
    | cons a rest =>
      rw [read_of_cons hstatus hqueue (by simp [h.2])]
      exact CanCloseOrEnqueue.callPull h
  · rw [read_of_over hstatus]
    exact h

theorem CanCloseOrEnqueue.enqueue (h : s.CanCloseOrEnqueue) (a : α) :
    ∃ s', s.feed (.chunk a) = some s' ∧ s'.CanCloseOrEnqueue := by
  refine ⟨_, if_pos h, CanCloseOrEnqueue.callPull ?_⟩
  split <;> exact h

/-! ### What has been given stays given -/

theorem observed_finish : s.observed <+: s.finish.observed :=
  List.prefix_append _ _

theorem observed_start : s.start.observed = s.observed :=
  observed_callPull

theorem observed_pulled : s.pulled.observed = s.observed := by
  unfold pulled
  split
  · exact observed_callPull
  · rfl

theorem observed_cancel : s.observed <+: s.cancel.observed := by
  unfold cancel
  split
  · exact observed_finish
  · exact List.prefix_refl _

theorem observed_read : s.observed <+: s.read.observed := by
  by_cases hstatus : s.status = .readable
  · cases hqueue : s.queue with
    | nil =>
      rw [read_of_nil hstatus hqueue, observed_callPull]
    | cons a rest =>
      by_cases hmore : s.closeRequested = true → rest ≠ []
      · rw [read_of_cons hstatus hqueue hmore, observed_callPull]
        exact List.prefix_append _ _
      · push Not at hmore
        obtain ⟨hclose, rfl⟩ := hmore
        rw [read_of_last hstatus hqueue hclose]
        exact (List.prefix_append _ [StreamEvent.chunk a]).trans (List.prefix_append _ _)
  · rw [read_of_over hstatus]

theorem observed_feed {s' : ReadableStream α ε} {ev : StreamEvent α ε}
    (h : s.feed ev = some s') : s.observed <+: s'.observed := by
  cases ev with
  | chunk a =>
    have h : s.enqueue a = some s' := h
    obtain ⟨-, h⟩ := Option.ite_none_right_eq_some.mp h
    obtain rfl := Option.some.inj h
    rw [observed_callPull]
    split
    · exact List.prefix_append _ _
    · exact List.prefix_refl _
  | close =>
    have h : s.close = some s' := h
    obtain ⟨-, h⟩ := Option.ite_none_right_eq_some.mp h
    obtain rfl := Option.some.inj h
    split
    · exact List.prefix_append _ _
    · exact List.prefix_refl _
  | error e =>
    obtain rfl := Option.some.inj h
    unfold error
    split
    · exact List.prefix_append _ _
    · exact List.prefix_refl _

/-! ### Pulls -/

/-- **A stream that still wants more** has just pulled, or will pull again. -/
theorem shouldPull_callPull (h : s.callPull.ShouldPull) :
    s.callPull.pullAgain = true ∨ s.callPull.pulls = s.pulls + 1 := by
  have hs : s.ShouldPull := by
    simpa [ShouldPull, CanCloseOrEnqueue] using h
  rw [callPull, if_pos hs]
  split
  · exact .inl rfl
  · exact .inr rfl

/-- The stream has pulled `n` times, or will pull again without being asked. -/
def Prompt (n : ℕ) (s : ReadableStream α ε) : Prop :=
  (s.pullAgain = true → s.pulling = true) ∧
    (s.ShouldPull → s.pullAgain = false → n ≤ s.pulls)

theorem prompt_callPull {n : ℕ} (h : s.pullAgain = true → s.pulling = true)
    (hn : n ≤ s.pulls + 1) : Prompt n s.callPull := by
  constructor
  · unfold callPull
    split
    · split
      · next hpulling => exact fun _ => hpulling
      · exact fun _ => rfl
    · exact h
  · intro hshould hagain
    rcases shouldPull_callPull hshould with hnow | hpulls
    · cases hnow.symm.trans hagain
    · omega

theorem prompt_of_not {n : ℕ} (h : s.pullAgain = true → s.pulling = true)
    (hnot : ¬ s.CanCloseOrEnqueue) : Prompt n s :=
  ⟨h, fun hshould => absurd hshould.1 hnot⟩

theorem Prompt.new (m n : ℕ) : Prompt m ({ highWaterMark := n } : ReadableStream α ε) :=
  ⟨fun hagain => (by cases hagain), fun hshould => (by cases hshould.2.1)⟩

theorem Prompt.start {n m : ℕ} (h : Prompt n s) (hm : m ≤ s.pulls + 1) : Prompt m s.start :=
  prompt_callPull h.1 hm

theorem Prompt.pulled {n : ℕ} (h : Prompt n s) (hn : n ≤ s.pulls + 1) : Prompt n s.pulled := by
  unfold ReadableStream.pulled
  split
  · exact prompt_callPull (fun hagain => by cases hagain) hn
  · next hnot =>
      refine ⟨fun hagain => absurd hagain hnot, fun hshould hagain => h.2 hshould hagain⟩

theorem Prompt.read {n : ℕ} (h : Prompt n s) (hn : n ≤ s.pulls + 1) : Prompt n s.read := by
  by_cases hstatus : s.status = .readable
  · cases hqueue : s.queue with
    | nil =>
      rw [read_of_nil hstatus hqueue]
      exact prompt_callPull h.1 hn
    | cons a rest =>
      by_cases hmore : s.closeRequested = true → rest ≠ []
      · rw [read_of_cons hstatus hqueue hmore]
        exact prompt_callPull h.1 hn
      · push Not at hmore
        obtain ⟨hclose, rfl⟩ := hmore
        rw [read_of_last hstatus hqueue hclose]
        exact prompt_of_not h.1 fun hcan => by cases hcan.1
  · rw [read_of_over hstatus]
    exact h

theorem Prompt.feed {n m : ℕ} {s' : ReadableStream α ε} {ev : StreamEvent α ε} (h : Prompt n s)
    (hm : m ≤ s.pulls + 1) (hfeed : s.feed ev = some s') : Prompt m s' := by
  cases ev with
  | chunk a =>
    have hfeed : s.enqueue a = some s' := hfeed
    obtain ⟨-, hfeed⟩ := Option.ite_none_right_eq_some.mp hfeed
    obtain rfl := Option.some.inj hfeed
    split
    · exact prompt_callPull h.1 hm
    · exact prompt_callPull h.1 hm
  | close =>
    have hfeed : s.close = some s' := hfeed
    obtain ⟨-, hfeed⟩ := Option.ite_none_right_eq_some.mp hfeed
    obtain rfl := Option.some.inj hfeed
    split
    · exact prompt_of_not h.1 fun hcan => by cases hcan.1
    · exact prompt_of_not h.1 fun hcan => by cases hcan.2
  | error e =>
    obtain rfl := Option.some.inj hfeed
    unfold error
    cases hstatus : s.status with
    | readable => exact prompt_of_not h.1 fun hcan => by cases hcan.1
    | closed => exact prompt_of_not h.1 fun hcan => by cases hstatus ▸ hcan.1
    | errored e' => exact prompt_of_not h.1 fun hcan => by cases hstatus ▸ hcan.1

/-! ### Work -/

/-- The work the stream has still to do. -/
def due (s : ReadableStream α ε) : ℕ :=
  (if s.started then 0 else 3) + (if s.pulling then 1 else 0) + (if s.pullAgain then 2 else 0)

/-- An attempt to pull pulls once at most, and makes two units of work at most. -/
theorem callPull_work (s : ReadableStream α ε) :
    s.pulls ≤ s.callPull.pulls ∧ s.callPull.due + s.callPull.pulls ≤ s.due + s.pulls + 2 := by
  unfold callPull
  split
  · split
    · next hpulling =>
        refine ⟨Nat.le_refl _, ?_⟩
        simp only [due, hpulling, if_true]
        split <;> omega
    · next hidle =>
        refine ⟨Nat.le_succ _, ?_⟩
        simp only [due, hidle, if_true]
        omega
  · exact ⟨Nat.le_refl _, Nat.le_add_right _ _⟩

theorem start_work (h : s.started = false) :
    s.pulls ≤ s.start.pulls ∧ s.start.due + s.start.pulls + 1 ≤ s.due + s.pulls := by
  obtain ⟨hpulls, hdue⟩ := callPull_work { s with started := true }
  refine ⟨hpulls, ?_⟩
  unfold start
  simp only [due, h, if_true, Bool.false_eq_true, if_false] at hdue ⊢
  omega

theorem pulled_work (h : s.pulling = true) :
    s.pulls ≤ s.pulled.pulls ∧ s.pulled.due + s.pulled.pulls + 1 ≤ s.due + s.pulls := by
  unfold pulled
  split
  · next hagain =>
      obtain ⟨hpulls, hdue⟩ := callPull_work { s with pulling := false, pullAgain := false }
      refine ⟨hpulls, ?_⟩
      simp only [due, h, hagain, if_true, Bool.false_eq_true, if_false] at hdue ⊢
      omega
  · refine ⟨Nat.le_refl _, ?_⟩
    simp only [due, h, if_true, Bool.false_eq_true, if_false]
    omega

theorem read_work (s : ReadableStream α ε) :
    s.pulls ≤ s.read.pulls ∧ s.read.due + s.read.pulls ≤ s.due + s.pulls + 2 := by
  by_cases hstatus : s.status = .readable
  · cases hqueue : s.queue with
    | nil =>
      rw [read_of_nil hstatus hqueue]
      exact callPull_work { s with readRequests := s.readRequests + 1 }
    | cons a rest =>
      by_cases hmore : s.closeRequested = true → rest ≠ []
      · rw [read_of_cons hstatus hqueue hmore]
        exact callPull_work { s with queue := rest, observed := s.observed ++ [.chunk a] }
      · push Not at hmore
        obtain ⟨hclose, rfl⟩ := hmore
        rw [read_of_last hstatus hqueue hclose]
        exact ⟨Nat.le_refl _, Nat.le_add_right _ _⟩
  · rw [read_of_over hstatus]
    exact ⟨Nat.le_refl _, Nat.le_add_right _ _⟩

theorem pulls_cancel : s.cancel.pulls = s.pulls := by
  unfold cancel
  split <;> rfl

theorem feed_work {s' : ReadableStream α ε} {ev : StreamEvent α ε} (h : s.feed ev = some s') :
    s.pulls ≤ s'.pulls ∧ s'.due + s'.pulls ≤ s.due + s.pulls + 2 := by
  cases ev with
  | chunk a =>
    have h : s.enqueue a = some s' := h
    obtain ⟨-, h⟩ := Option.ite_none_right_eq_some.mp h
    obtain rfl := Option.some.inj h
    split
    · exact callPull_work
        { s with readRequests := s.readRequests - 1, observed := s.observed ++ [.chunk a] }
    · exact callPull_work { s with queue := s.queue ++ [a] }
  | close =>
    have h : s.close = some s' := h
    obtain ⟨-, h⟩ := Option.ite_none_right_eq_some.mp h
    obtain rfl := Option.some.inj h
    split <;> exact ⟨Nat.le_refl _, Nat.le_add_right _ _⟩
  | error e =>
    obtain rfl := Option.some.inj h
    unfold error
    split <;> exact ⟨Nat.le_refl _, Nat.le_add_right _ _⟩

end ReadableStream

end Lopata
