import Lopata.Lib.Machine
import Mathlib.Data.List.Basic
import Mathlib.Data.Nat.Notation
import Mathlib.Order.Nat

/-!
# Serialized Reloads

`GenerationManager.reload` lets one `_doReload` run at a time. A call that finds one running gets
the promise of a follow-up, `this._reloading.catch(() => {}).then(() => this.reload())`, which is
shared by all calls that find the same run. What keeps this sound is the order of the promise
jobs of a run: the call that started it resumes first and clears both fields, then the `catch`
passes the outcome on, then the follow-up calls `reload` again. Calls of others may come
anywhere in between.

Runs and calls are numbered in the order in which they begin. The jobs of this protocol form a
queue, first in, first out. A promise that takes over the outcome of another one does so some
time after that has settled.

## Main results

* `Serial.step`: the invariant is kept by every step.
* `reloads_serialized`: in every state, at most one `_doReload` runs, a settled call has the
  outcome of a run that began no earlier than the call, and when everything has come to rest
  all calls are settled.
-/

namespace Lopata.Generations

/-- The promise jobs that a settled `_doReload` gives rise to. -/
inductive Job
  /-- The call that awaits the run goes on: its `finally` block. -/
  | resume (run : ℕ)
  /-- `.catch(() => {})`. -/
  | pass (run : ℕ)
  /-- `.then(() => this.reload())`. -/
  | followUp (run : ℕ)
  deriving DecidableEq, Repr

/-- The run a job belongs to. -/
def Job.run : Job → ℕ
  | .resume run | .pass run | .followUp run => run

/-- What a call of `reload` returns the outcome of. -/
inductive Target
  /-- The run it has started. -/
  | own (run : ℕ)
  /-- The follow-up of a run. -/
  | follow (run : ℕ)
  deriving DecidableEq, Repr

/-- A call of `reload`. -/
structure Call (O : Type) where
  target : Target
  /-- The number of runs that began before it. -/
  since : ℕ
  /-- How its promise has settled. -/
  outcome : Option O

/-- The promise of a follow-up. -/
structure FollowUp (O : Type) where
  /-- The call of `reload` it makes, once it has. -/
  call : Option ℕ
  /-- How the promise has settled. -/
  outcome : Option O

/-- `GenerationManager`, with the promises of its reloads; `O` are the outcomes of `_doReload`. -/
structure Reloads (O : Type) where
  /-- `_reloading`, by its run. -/
  reloading : Option ℕ
  /-- `_pendingReloadPromise`, by the run it follows. -/
  pendingReload : Option ℕ
  /-- The number of runs that have begun. -/
  begun : ℕ
  /-- How the promise of a run has settled. -/
  outcome : ℕ → Option O
  follow : ℕ → Option (FollowUp O)
  /-- The number of calls of `reload`. -/
  made : ℕ
  call : ℕ → Option (Call O)
  jobs : List Job

variable {O : Type}

namespace Reloads

variable (s : Reloads O)

/-- A new manager. -/
def start : Reloads O :=
  ⟨none, none, 0, fun _ => none, fun _ => none, 0, fun _ => none, []⟩

/-- A call that returns the outcome of its target. -/
def addCall (target : Target) : Reloads O :=
  { s with
    made := s.made + 1
    call := Function.update s.call s.made (some ⟨target, s.begun, none⟩) }

/-- The follow-up of a run is as given. -/
def setFollow (k : ℕ) (f : FollowUp O) : Reloads O :=
  { s with follow := Function.update s.follow k (some f) }

/-- `this._pendingReloadPromise = this._reloading.catch(...).then(...)`; the promise of the run
may have settled already. -/
def attach (k : ℕ) : Reloads O :=
  { s.setFollow k ⟨none, none⟩ with
    pendingReload := some k
    jobs := if (s.outcome k).isSome then s.jobs ++ [.pass k] else s.jobs }

/-- `this._reloading = this._doReload()`. -/
def begin : Reloads O :=
  { s with reloading := some s.begun, begun := s.begun + 1 }

/-- `reload`, up to its first `await` or its return. -/
def reload : Reloads O :=
  match s.reloading with
  | some k =>
      match s.pendingReload with
      | some k' => s.addCall (.follow k')
      | none => (s.attach k).addCall (.follow k)
  | none => (s.addCall (.own s.begun)).begin

/-- The promise of a run settles: the call that awaits it first, then the follow-up. -/
def complete (k : ℕ) (o : O) : Reloads O :=
  { s with
    outcome := Function.update s.outcome k (some o)
    jobs := s.jobs ++ .resume k :: if (s.follow k).isSome then [.pass k] else [] }

/-- The `finally` block, and the outcome of the call. -/
def resume (k : ℕ) : Reloads O :=
  { s with
    reloading := none
    pendingReload := none
    call := fun c => (s.call c).map fun x =>
      if x.target = .own k then { x with outcome := s.outcome k } else x }

/-- `() => this.reload()`: the follow-up takes over the outcome of the call. -/
def callAgain (k : ℕ) : Reloads O :=
  s.reload.setFollow k ⟨some s.made, none⟩

/-- A job of the queue. -/
def runJob : Job → Reloads O
  | .resume k => s.resume k
  | .pass k => { s with jobs := s.jobs ++ [.followUp k] }
  | .followUp k => s.callAgain k

/-- A call that was given a follow-up takes over its outcome. -/
def adopt (c : ℕ) : Option (Reloads O) :=
  match s.call c with
  | some ⟨.follow k, since, none⟩ =>
      match s.follow k with
      | some ⟨_, some o⟩ =>
          some { s with call := Function.update s.call c (some ⟨.follow k, since, some o⟩) }
      | _ => none
  | _ => none

/-- A follow-up takes over the outcome of its call. -/
def adoptFollow (k : ℕ) : Option (Reloads O) :=
  match s.follow k with
  | some ⟨some c, none⟩ =>
      match s.call c with
      | some ⟨_, _, some o⟩ => some (s.setFollow k ⟨some c, some o⟩)
      | _ => none
  | _ => none

end Reloads

/-- One step, with what its environment chose. -/
inductive ReloadStep (O : Type)
  /-- Somebody calls `reload`. -/
  | reload
  /-- The promise of a run settles. -/
  | complete (run : ℕ) (o : O)
  /-- The next job of the queue. -/
  | job
  /-- A promise takes over an outcome. -/
  | adopt (call : ℕ)
  | adoptFollow (run : ℕ)

/-- What a step does, `none` if it cannot be taken. -/
def Reloads.step (s : Reloads O) : ReloadStep O → Option (Reloads O)
  | .reload => some s.reload
  | .complete k o => if k < s.begun ∧ (s.outcome k).isNone then some (s.complete k o) else none
  | .job =>
      match s.jobs with
      | [] => none
      | j :: jobs => some ({ s with jobs }.runJob j)
  | .adopt c => s.adopt c
  | .adoptFollow k => s.adoptFollow k

/-! ### The invariant -/

/-- Of the jobs of one run the resume comes first, and the others are not there twice. -/
def precedes (j j' : Job) : Prop :=
  j.run = j'.run → j = .resume j.run ∧ j' ≠ .resume j.run

/-- The invariant of the protocol. -/
structure Serial (s : Reloads O) : Prop where
  /-- `_reloading` is the last run, and all others have ended. -/
  latest : ∀ k, s.reloading = some k → k + 1 = s.begun
  ended : ∀ k, k < s.begun → s.reloading ≠ some k → s.outcome k ≠ none
  unbegun : ∀ k, s.begun ≤ k → s.outcome k = none ∧ s.follow k = none
  /-- `_pendingReloadPromise` is the follow-up of `_reloading`, if it has one. -/
  pending : ∀ k, s.pendingReload = some k → s.reloading = some k ∧ s.follow k ≠ none
  joined : ∀ k f, s.reloading = some k → s.follow k = some f →
    s.pendingReload = some k ∧ f.call = none
  /-- The jobs: a settled `_reloading` has its resume, a follow-up its `catch` and `then`. -/
  resumes : ∀ k, .resume k ∈ s.jobs ↔ s.reloading = some k ∧ s.outcome k ≠ none
  passes : ∀ k, .pass k ∈ s.jobs →
    s.outcome k ≠ none ∧ ∃ f, s.follow k = some f ∧ f.call = none
  followUps : ∀ k, .followUp k ∈ s.jobs →
    s.reloading ≠ some k ∧ ∃ f, s.follow k = some f ∧ f.call = none
  order : s.jobs.Pairwise precedes
  /-- A follow-up that has not called is on its way; one that has, called after its run. -/
  waiting : ∀ k f, s.follow k = some f → f.call = none →
    f.outcome = none ∧ (s.outcome k = none ∨ .pass k ∈ s.jobs ∨ .followUp k ∈ s.jobs)
  called : ∀ k f c, s.follow k = some f → f.call = some c →
    ∃ x, s.call c = some x ∧ k < x.since
  /-- The calls. -/
  made : ∀ c, s.call c = none ↔ s.made ≤ c
  since : ∀ c x, s.call c = some x → x.since ≤ s.begun
  own : ∀ c x k, s.call c = some x → x.target = .own k →
    x.since ≤ k ∧ k < s.begun ∧ (x.outcome = none → s.reloading = some k)
  follows : ∀ c x k, s.call c = some x → x.target = .follow k →
    x.since ≤ k + 1 ∧ ∃ f, s.follow k = some f ∧ ∀ c', f.call = some c' → c < c'
  /-- The outcomes. -/
  settled : ∀ c x o, s.call c = some x → x.outcome = some o →
    ∃ k, x.since ≤ k ∧ s.outcome k = some o
  followed : ∀ k f o, s.follow k = some f → f.outcome = some o →
    ∃ k', k < k' ∧ s.outcome k' = some o

namespace Serial

variable {s s' : Reloads O} {k c : ℕ} {o : O}

theorem start : Serial (.start : Reloads O) where
  latest _ h := nomatch h
  ended _ h := nomatch h
  unbegun _ _ := ⟨rfl, rfl⟩
  pending _ h := nomatch h
  joined _ _ h := nomatch h
  resumes _ := ⟨fun h => (nomatch h), fun h => (nomatch h.1)⟩
  passes _ h := nomatch h
  followUps _ h := nomatch h
  order := List.Pairwise.nil
  waiting _ _ h := nomatch h
  called _ _ _ h := nomatch h
  made _ := ⟨fun _ => Nat.zero_le _, fun _ => rfl⟩
  since _ _ h := nomatch h
  own _ _ _ h := nomatch h
  follows _ _ _ h := nomatch h
  settled _ _ _ h := nomatch h
  followed _ _ _ h := nomatch h

/-- A run without an outcome is `_reloading`. -/
theorem reloading_of_running (h : Serial s) (hk : k < s.begun) (hrun : s.outcome k = none) :
    s.reloading = some k := by
  by_contra hne
  exact h.ended k hk hne hrun

theorem lt_begun_of_follow (h : Serial s) {f : FollowUp O} (hf : s.follow k = some f) :
    k < s.begun := by
  by_contra hge
  cases hf.symm.trans (h.unbegun k (Nat.le_of_not_lt hge)).2

/-! ### Calls -/

/-- The calls after a new one. -/
theorem call_addCall (s : Reloads O) (target : Target) (c : ℕ) :
    (s.addCall target).call c =
      if c = s.made then some ⟨target, s.begun, none⟩ else s.call c :=
  Function.update_apply ..

/-- An old call is not the new one. -/
theorem ne_made (h : Serial s) {x : Call O} (hx : s.call c = some x) : c ≠ s.made := by
  rintro rfl
  cases hx.symm.trans ((h.made s.made).mpr le_rfl)

/-- A call that is given a follow-up that has not called yet. -/
theorem join (h : Serial s) {f : FollowUp O} (hk : s.reloading = some k)
    (hf : s.follow k = some f) (hcall : f.call = none) : Serial (s.addCall (.follow k)) where
  latest := h.latest
  ended := h.ended
  unbegun := h.unbegun
  pending := h.pending
  joined := h.joined
  resumes := h.resumes
  passes := h.passes
  followUps := h.followUps
  order := h.order
  waiting := h.waiting
  called k' f' c hf' hc := by
    obtain ⟨x, hx, hlt⟩ := h.called k' f' c hf' hc
    exact ⟨x, by rw [call_addCall, if_neg (h.ne_made hx), hx], hlt⟩
  made c := by
    rw [call_addCall]
    show _ ↔ s.made + 1 ≤ c
    split
    · next heq => exact ⟨fun hx => (nomatch hx), fun hle => by omega⟩
    · next hne =>
        rw [h.made c]
        omega
  since c x hx := by
    rw [call_addCall] at hx
    split at hx
    · obtain rfl := Option.some.inj hx
      exact le_rfl
    · exact h.since c x hx
  own c x k' hx htarget := by
    rw [call_addCall] at hx
    split at hx
    · obtain rfl := Option.some.inj hx
      cases htarget
    · exact h.own c x k' hx htarget
  follows c x k' hx htarget := by
    rw [call_addCall] at hx
    split at hx
    · obtain rfl := Option.some.inj hx
      obtain rfl : k = k' := Target.follow.inj htarget
      refine ⟨(h.latest k hk).ge, f, hf, fun c' hc' => ?_⟩
      cases hcall.symm.trans hc'
    · exact h.follows c x k' hx htarget
  settled c x o hx ho := by
    rw [call_addCall] at hx
    split at hx
    · obtain rfl := Option.some.inj hx
      cases ho
    · exact h.settled c x o hx ho
  followed := h.followed

theorem follow_setFollow (s : Reloads O) (k : ℕ) (f : FollowUp O) (k' : ℕ) :
    (s.setFollow k f).follow k' = if k' = k then some f else s.follow k' :=
  Function.update_apply ..

/-- The follow-ups after a new one. -/
theorem follow_attach (s : Reloads O) (k k' : ℕ) :
    (s.attach k).follow k' = if k' = k then some ⟨none, none⟩ else s.follow k' :=
  Function.update_apply ..

/-- A new follow-up adds a job if its run has settled. -/
theorem mem_jobs_attach (s : Reloads O) (k : ℕ) {j : Job} :
    j ∈ (s.attach k).jobs ↔ j ∈ s.jobs ∨ (s.outcome k ≠ none ∧ j = .pass k) := by
  show j ∈ (if (s.outcome k).isSome then s.jobs ++ [.pass k] else s.jobs) ↔ _
  split
  · next hsome =>
      have hne : s.outcome k ≠ none := Option.isSome_iff_ne_none.mp hsome
      simp [hne]
  · next hnone =>
      have heq : s.outcome k = none := by simpa using hnone
      simp [heq]

/-- A follow-up of the last run. -/
theorem attach (h : Serial s) (hk : s.reloading = some k) (hf : s.follow k = none) :
    Serial (s.attach k) where
  latest := h.latest
  ended := h.ended
  unbegun k' hle := by
    have hlast := h.latest k hk
    have hle : s.begun ≤ k' := hle
    refine ⟨(h.unbegun k' hle).1, ?_⟩
    rw [follow_attach, if_neg (by omega)]
    exact (h.unbegun k' hle).2
  pending k' hp := by
    obtain rfl : k = k' := Option.some.inj hp
    exact ⟨hk, by rw [follow_attach, if_pos rfl]; exact nofun⟩
  joined k' f hk' hf' := by
    obtain rfl : k = k' := Option.some.inj (hk.symm.trans hk')
    rw [follow_attach, if_pos rfl] at hf'
    obtain rfl := Option.some.inj hf'
    exact ⟨rfl, rfl⟩
  resumes k' := by
    refine Iff.trans ?_ (h.resumes k')
    rw [mem_jobs_attach]
    exact ⟨fun hj => hj.resolve_right nofun, .inl⟩
  passes k' hj := by
    rcases mem_jobs_attach s k |>.mp hj with hj | ⟨hne, hj⟩
    · obtain ⟨hne, f, hf', hcall⟩ := h.passes k' hj
      refine ⟨hne, f, ?_, hcall⟩
      rw [follow_attach, if_neg, hf']
      rintro rfl
      cases hf.symm.trans hf'
    · obtain rfl := Job.pass.inj hj
      exact ⟨hne, ⟨none, none⟩, by rw [follow_attach, if_pos rfl], rfl⟩
  followUps k' hj := by
    obtain ⟨hne, f, hf', hcall⟩ := h.followUps k'
      ((mem_jobs_attach s k |>.mp hj).resolve_right nofun)
    refine ⟨hne, f, ?_, hcall⟩
    rw [follow_attach, if_neg, hf']
    rintro rfl
    cases hf.symm.trans hf'
  order := by
    show (if (s.outcome k).isSome then s.jobs ++ [.pass k] else s.jobs).Pairwise precedes
    split
    · refine List.pairwise_append.mpr ⟨h.order, List.pairwise_singleton .., fun j hj j' hj' => ?_⟩
      obtain rfl := List.mem_singleton.mp hj'
      intro hrun
      -- of this run there is at most the resume: the follow-up is new
      cases j with
      | resume k' => exact ⟨rfl, nofun⟩
      | pass k' =>
        obtain rfl : k' = k := hrun
        obtain ⟨-, f, hf', -⟩ := h.passes k' hj
        cases hf.symm.trans hf'
      | followUp k' =>
        obtain rfl : k' = k := hrun
        obtain ⟨-, f, hf', -⟩ := h.followUps k' hj
        cases hf.symm.trans hf'
    · exact h.order
  waiting k' f hf' hcall := by
    rw [follow_attach] at hf'
    split at hf'
    · next heq =>
        obtain rfl := Option.some.inj hf'
        subst heq
        refine ⟨rfl, ?_⟩
        by_cases hnone : s.outcome k' = none
        · exact .inl hnone
        · exact .inr (.inl ((mem_jobs_attach s k').mpr (.inr ⟨hnone, rfl⟩)))
    · obtain ⟨hout, hwhere⟩ := h.waiting k' f hf' hcall
      refine ⟨hout, hwhere.imp_right (Or.imp ?_ ?_)⟩
      · exact fun hj => (mem_jobs_attach s k).mpr (.inl hj)
      · exact fun hj => (mem_jobs_attach s k).mpr (.inl hj)
  called k' f c hf' hc := by
    rw [follow_attach] at hf'
    split at hf'
    · obtain rfl := Option.some.inj hf'
      cases hc
    · exact h.called k' f c hf' hc
  made := h.made
  since := h.since
  own := h.own
  follows c x k' hx htarget := by
    obtain ⟨hsince, f, hf', hlt⟩ := h.follows c x k' hx htarget
    refine ⟨hsince, f, ?_, hlt⟩
    rw [follow_attach, if_neg, hf']
    rintro rfl
    cases hf.symm.trans hf'
  settled := h.settled
  followed k' f o hf' ho := by
    rw [follow_attach] at hf'
    split at hf'
    · obtain rfl := Option.some.inj hf'
      cases ho
    · exact h.followed k' f o hf' ho

/-- A call that starts a run. -/
theorem begin (h : Serial s) (hnone : s.reloading = none) :
    Serial (s.addCall (.own s.begun)).begin where
  latest k hk := by
    obtain rfl := Option.some.inj hk
    rfl
  ended k hlt hne := by
    have hlt : k < s.begun + 1 := hlt
    have hne : some s.begun ≠ some k := hne
    have hother : s.begun ≠ k := fun heq => hne (congrArg some heq)
    exact h.ended k (by omega) (by simp [hnone])
  unbegun k hle := by
    have hle : s.begun + 1 ≤ k := hle
    exact h.unbegun k (by omega)
  pending k hp := nomatch hnone.symm.trans (h.pending k hp).1
  joined k f hk hf := by
    obtain rfl := Option.some.inj hk
    cases hf.symm.trans (h.unbegun _ le_rfl).2
  resumes k := by
    constructor
    · exact fun hj => nomatch hnone.symm.trans ((h.resumes k).mp hj).1
    · rintro ⟨hk, hout⟩
      obtain rfl := Option.some.inj hk
      exact absurd (h.unbegun _ le_rfl).1 hout
  passes := h.passes
  followUps k hj := by
    obtain ⟨-, f, hf, hcall⟩ := h.followUps k hj
    refine ⟨?_, f, hf, hcall⟩
    have hlt := h.lt_begun_of_follow hf
    exact fun heq => hlt.ne (Option.some.inj heq).symm
  order := h.order
  waiting := h.waiting
  called k f c hf hc := by
    obtain ⟨x, hx, hlt⟩ := h.called k f c hf hc
    exact ⟨x, (call_addCall ..).trans (by rw [if_neg (h.ne_made hx), hx]), hlt⟩
  made c := by
    refine (call_addCall s (.own s.begun) c) ▸ ?_
    show _ ↔ s.made + 1 ≤ c
    split
    · next heq => exact ⟨fun hx => (nomatch hx), fun hle => by omega⟩
    · next hne =>
        rw [h.made c]
        omega
  since c x hx := by
    have hx := (call_addCall ..).symm.trans hx
    show x.since ≤ s.begun + 1
    split at hx
    · obtain rfl := Option.some.inj hx
      exact Nat.le_succ _
    · exact Nat.le_succ_of_le (h.since c x hx)
  own c x k hx htarget := by
    have hx := (call_addCall ..).symm.trans hx
    show x.since ≤ k ∧ k < s.begun + 1 ∧ (x.outcome = none → some s.begun = some k)
    split at hx
    · obtain rfl := Option.some.inj hx
      obtain rfl : s.begun = k := Target.own.inj htarget
      exact ⟨le_rfl, Nat.lt_succ_self _, fun _ => rfl⟩
    · obtain ⟨hsince, hlt, hout⟩ := h.own c x k hx htarget
      exact ⟨hsince, Nat.lt_succ_of_lt hlt, fun hx => nomatch hnone.symm.trans (hout hx)⟩
  follows c x k hx htarget := by
    have hx := (call_addCall ..).symm.trans hx
    split at hx
    · obtain rfl := Option.some.inj hx
      cases htarget
    · exact h.follows c x k hx htarget
  settled c x o hx ho := by
    have hx := (call_addCall ..).symm.trans hx
    split at hx
    · obtain rfl := Option.some.inj hx
      cases ho
    · exact h.settled c x o hx ho
  followed := h.followed

theorem reload (h : Serial s) : Serial s.reload := by
  simp only [Reloads.reload]
  split
  · next k hk =>
      split
      · next k' hk' =>
          obtain ⟨hreloading, hne⟩ := h.pending k' hk'
          obtain ⟨f, hf⟩ := Option.ne_none_iff_exists'.mp hne
          exact h.join hreloading hf (h.joined k' f hreloading hf).2
      · next hnone =>
          have hf : s.follow k = none := by
            refine Option.eq_none_iff_forall_ne_some.mpr fun f hf => ?_
            cases hnone.symm.trans (h.joined k f hk hf).1
          exact (h.attach hk hf).join hk (by rw [follow_attach, if_pos rfl]) rfl
  · next hnone => exact h.begin hnone

/-! ### Runs -/

theorem outcome_complete (s : Reloads O) (k : ℕ) (o : O) (k' : ℕ) :
    (s.complete k o).outcome k' = if k' = k then some o else s.outcome k' :=
  Function.update_apply ..

/-- The jobs of a run that has just settled. -/
theorem mem_jobs_complete (s : Reloads O) (k : ℕ) (o : O) {j : Job} :
    j ∈ (s.complete k o).jobs ↔
      j ∈ s.jobs ∨ j = .resume k ∨ (s.follow k ≠ none ∧ j = .pass k) := by
  show j ∈ s.jobs ++ .resume k :: (if (s.follow k).isSome then [Job.pass k] else []) ↔ _
  split
  · next hsome =>
      have hne : s.follow k ≠ none := Option.isSome_iff_ne_none.mp hsome
      simp [hne]
  · next hnone =>
      have heq : s.follow k = none := by simpa using hnone
      simp [heq]

/-- The promise of the run settles. -/
theorem complete (h : Serial s) (hk : k < s.begun) (hrun : s.outcome k = none) (o : O) :
    Serial (s.complete k o) := by
  have hreloading : s.reloading = some k := h.reloading_of_running hk hrun
  -- no job of this run is in the queue yet
  have hfresh : ∀ j ∈ s.jobs, j.run ≠ k := by
    rintro j hj rfl
    cases j with
    | resume k => exact ((h.resumes k).mp hj).2 hrun
    | pass k => exact (h.passes k hj).1 hrun
    | followUp k => exact (h.followUps k hj).1 hreloading
  have hkept : ∀ {k' o'}, s.outcome k' = some o' → (s.complete k o).outcome k' = some o' := by
    intro k' o' hout
    rw [outcome_complete, if_neg, hout]
    rintro rfl
    cases hrun.symm.trans hout
  refine
    { h with
      ended := fun k' hlt hne => ?_
      unbegun := fun k' hle => ?_
      resumes := fun k' => ?_
      passes := fun k' hj => ?_
      followUps := fun k' hj => ?_
      order := ?_
      waiting := fun k' f hf hcall => ?_
      settled := fun c x o' hx ho => ?_
      followed := fun k' f o' hf ho => ?_ }
  · obtain ⟨o', hout⟩ := Option.ne_none_iff_exists'.mp (h.ended k' hlt hne)
    rw [hkept hout]
    exact nofun
  · have hle : s.begun ≤ k' := hle
    rw [outcome_complete, if_neg (by omega)]
    exact h.unbegun k' hle
  · rw [mem_jobs_complete, h.resumes k', outcome_complete]
    show _ ↔ s.reloading = some k' ∧ _
    by_cases heq : k' = k
    · subst heq
      simp [hreloading]
    · have hother : s.reloading ≠ some k' := by
        rw [hreloading]
        exact fun hsome => heq (Option.some.inj hsome).symm
      simp [heq, hother]
  · rw [mem_jobs_complete] at hj
    rcases hj with hj | hj | ⟨hne, hj⟩
    · obtain ⟨hout, hf⟩ := h.passes k' hj
      obtain ⟨o', hout⟩ := Option.ne_none_iff_exists'.mp hout
      refine ⟨?_, hf⟩
      rw [hkept hout]
      exact nofun
    · cases hj
    · obtain rfl := Job.pass.inj hj
      obtain ⟨f, hf⟩ := Option.ne_none_iff_exists'.mp hne
      refine ⟨?_, f, hf, (h.joined k' f hreloading hf).2⟩
      rw [outcome_complete, if_pos rfl]
      exact nofun
  · refine h.followUps k' (((mem_jobs_complete s k o).mp hj).resolve_right ?_)
    rintro (hj | ⟨-, hj⟩)
    · cases hj
    · cases hj
  · have hnew : (.resume k :: if (s.follow k).isSome then [Job.pass k] else []).Pairwise
        precedes := by
      split
      · refine List.pairwise_pair.mpr fun _ => ⟨rfl, nofun⟩
      · exact List.pairwise_singleton ..
    refine List.pairwise_append.mpr ⟨h.order, hnew, fun j hj j' hj' hrun' => ?_⟩
    have hk' : j'.run = k := by
      rcases List.mem_cons.mp hj' with rfl | hj'
      · rfl
      · split at hj'
        · obtain rfl := List.mem_singleton.mp hj'
          rfl
        · cases hj'
    exact absurd (hrun'.trans hk') (hfresh j hj)
  · obtain ⟨hout, hwhere⟩ := h.waiting k' f hf hcall
    refine ⟨hout, ?_⟩
    by_cases heq : k' = k
    · subst heq
      refine .inr (.inl ((mem_jobs_complete s k' o).mpr (.inr (.inr ⟨?_, rfl⟩))))
      have hf : s.follow k' = some f := hf
      rw [hf]
      exact nofun
    · rw [outcome_complete, if_neg heq]
      refine hwhere.imp_right (Or.imp ?_ ?_)
      · exact fun hj => (mem_jobs_complete s k o).mpr (.inl hj)
      · exact fun hj => (mem_jobs_complete s k o).mpr (.inl hj)
  · obtain ⟨k', hle, hout⟩ := h.settled c x o' hx ho
    exact ⟨k', hle, hkept hout⟩
  · obtain ⟨k'', hlt, hout⟩ := h.followed k' f o' hf ho
    exact ⟨k'', hlt, hkept hout⟩

/-! ### Jobs -/

variable {jobs : List Job}

/-- The jobs behind one of a run are not of this run, unless it is the resume. -/
theorem run_ne_of_mem (h : Serial s) {j j' : Job} (hjobs : s.jobs = j :: jobs)
    (hj : ∀ k, j ≠ .resume k) (hj' : j' ∈ jobs) : j'.run ≠ j.run := by
  have horder := h.order
  rw [hjobs] at horder
  intro hrun
  exact hj _ ((List.pairwise_cons.mp horder).1 j' hj' hrun.symm).1

theorem order_tail (h : Serial s) {j : Job} (hjobs : s.jobs = j :: jobs) :
    jobs.Pairwise precedes := by
  have horder := h.order
  rw [hjobs] at horder
  exact (List.pairwise_cons.mp horder).2

/-- What is in the queue and not at its head is behind it. -/
theorem mem_tail {j j' : Job} (hjobs : s.jobs = j :: jobs) (hj' : j' ∈ s.jobs) (hne : j' ≠ j) :
    j' ∈ jobs := by
  rw [hjobs] at hj'
  exact (List.mem_cons.mp hj').resolve_left hne

theorem mem_of_mem_tail {j j' : Job} (hjobs : s.jobs = j :: jobs) (hj' : j' ∈ jobs) :
    j' ∈ s.jobs := by
  rw [hjobs]
  exact List.mem_cons_of_mem j hj'

/-- The call that started the run goes on. -/
theorem resume (h : Serial s) (hjobs : s.jobs = .resume k :: jobs) :
    Serial ({ s with jobs } |>.resume k) := by
  obtain ⟨hreloading, hout⟩ : s.reloading = some k ∧ s.outcome k ≠ none :=
    (h.resumes k).mp (hjobs ▸ List.mem_cons_self)
  have hback : ∀ {c x}, ({ s with jobs } |>.resume k).call c = some x →
      ∃ x', s.call c = some x' ∧ x.target = x'.target ∧ x.since = x'.since ∧
        x.outcome = if x'.target = .own k then s.outcome k else x'.outcome := by
    intro c x hx
    obtain ⟨x', hx', rfl⟩ := Option.map_eq_some_iff.mp hx
    refine ⟨x', hx', ?_⟩
    split
    · exact ⟨rfl, rfl, rfl⟩
    · exact ⟨rfl, rfl, rfl⟩
  refine ⟨fun k' hk' => (nomatch hk'), fun k' hlt _ => ?_, h.unbegun, fun k' hp => (nomatch hp),
    fun k' f hk' => (nomatch hk'), fun k' => ⟨fun hj => ?_, fun hk' => (nomatch hk'.1)⟩,
    fun k' hj => h.passes k' (mem_of_mem_tail hjobs hj),
    fun k' hj => ⟨nofun, (h.followUps k' (mem_of_mem_tail hjobs hj)).2⟩, h.order_tail hjobs,
    fun k' f hf hcall => ?_, fun k' f c hf hc => ?_, fun c => ?_, fun c x hx => ?_,
    fun c x k' hx htarget => ?_, fun c x k' hx htarget => ?_, fun c x o hx ho => ?_, h.followed⟩
  · by_cases heq : k' = k
    · subst heq
      exact hout
    · refine h.ended k' hlt ?_
      rw [hreloading]
      exact fun hsome => heq (Option.some.inj hsome).symm
  · -- two resumes in the queue would be of one run
    have hk' := ((h.resumes k').mp (mem_of_mem_tail hjobs hj)).1
    obtain rfl : k = k' := Option.some.inj (hreloading.symm.trans hk')
    have horder := h.order
    rw [hjobs] at horder
    exact absurd rfl ((List.pairwise_cons.mp horder).1 _ hj rfl).2
  · obtain ⟨hnone, hwhere⟩ := h.waiting k' f hf hcall
    refine ⟨hnone, hwhere.imp_right (Or.imp ?_ ?_)⟩
    · exact fun hj => mem_tail hjobs hj nofun
    · exact fun hj => mem_tail hjobs hj nofun
  · obtain ⟨x, hx, hlt⟩ := h.called k' f c hf hc
    show ∃ x', Option.map _ (s.call c) = some x' ∧ _
    rw [hx]
    refine ⟨_, rfl, ?_⟩
    show k' < (if x.target = .own k then { x with outcome := s.outcome k } else x).since
    split
    · exact hlt
    · exact hlt
  · show Option.map _ (s.call c) = none ↔ _
    rw [Option.map_eq_none_iff]
    exact h.made c
  · obtain ⟨x', hx', -, hsince, -⟩ := hback hx
    exact hsince ▸ h.since c x' hx'
  · obtain ⟨x', hx', htarget', hsince, hoc⟩ := hback hx
    obtain ⟨hle, hlt, hpending⟩ := h.own c x' k' hx' (htarget'.symm.trans htarget)
    refine ⟨hsince ▸ hle, hlt, fun hnone => ?_⟩
    rw [hoc] at hnone
    split at hnone
    · exact absurd hnone hout
    · next hne =>
        obtain rfl : k = k' := Option.some.inj (hreloading.symm.trans (hpending hnone))
        exact absurd (htarget'.symm.trans htarget) hne
  · obtain ⟨x', hx', htarget', hsince, -⟩ := hback hx
    rw [hsince]
    exact h.follows c x' k' hx' (htarget'.symm.trans htarget)
  · obtain ⟨x', hx', -, hsince, hoc⟩ := hback hx
    rw [hsince]
    rw [hoc] at ho
    split at ho
    · next htarget => exact ⟨k, (h.own c x' k hx' htarget).1, ho⟩
    · exact h.settled c x' o hx' ho

/-- The `catch` of a follow-up hands on to its `then`. -/
theorem pass (h : Serial s) (hjobs : s.jobs = .pass k :: jobs) :
    Serial { s with jobs := jobs ++ [.followUp k] } := by
  obtain ⟨hout, hf⟩ := h.passes k (hjobs ▸ List.mem_cons_self)
  have hbehind : ∀ j ∈ jobs, j.run ≠ k := fun j hj => h.run_ne_of_mem hjobs nofun hj
  have hmem : ∀ {j}, j ∈ jobs ++ [.followUp k] → j ∈ s.jobs ∨ j = .followUp k := by
    intro j hj
    rcases List.mem_append.mp hj with hj | hj
    · exact .inl (mem_of_mem_tail hjobs hj)
    · exact .inr (List.mem_singleton.mp hj)
  refine
    { h with
      resumes := fun k' => ?_
      passes := fun k' hj => h.passes k' ((hmem hj).resolve_right nofun)
      followUps := fun k' hj => ?_
      order := ?_
      waiting := fun k' f hf hcall => ?_ }
  · rw [← h.resumes k']
    constructor
    · exact fun hj => (hmem hj).resolve_right nofun
    · exact fun hj => List.mem_append_left _ (mem_tail hjobs hj nofun)
  · rcases hmem hj with hj | hj
    · exact h.followUps k' hj
    · obtain rfl := Job.followUp.inj hj
      refine ⟨fun hreloading => ?_, hf⟩
      -- its resume would be in the queue, behind the `catch`
      have hresume := mem_tail hjobs ((h.resumes k').mpr ⟨hreloading, hout⟩) nofun
      exact hbehind _ hresume rfl
  · refine List.pairwise_append.mpr
      ⟨h.order_tail hjobs, List.pairwise_singleton .., fun j hj j' hj' hrun => ?_⟩
    obtain rfl := List.mem_singleton.mp hj'
    exact absurd hrun (hbehind j hj)
  · obtain ⟨hnone, hwhere⟩ := h.waiting k' f hf hcall
    refine ⟨hnone, ?_⟩
    rcases hwhere with hrun | hj | hj
    · exact .inl hrun
    · by_cases heq : k' = k
      · subst heq
        exact .inr (.inr (List.mem_append_right _ List.mem_cons_self))
      · exact .inr (.inl (List.mem_append_left _
          (mem_tail hjobs hj fun hsame => heq (Job.pass.inj hsame))))
    · exact .inr (.inr (List.mem_append_left _ (mem_tail hjobs hj nofun)))

/-- A follow-up whose `then` is next, and the call of `reload` that it makes. -/
theorem called_of (h : Serial s) {c : ℕ} {x : Call O} (hjobs : s.jobs = .followUp k :: jobs)
    (hx : s.call c = some x) (hlt : k < x.since)
    (hlast : ∀ c' x', s.call c' = some x' → x'.target = .follow k → c' < c) :
    Serial ({ s with jobs } |>.setFollow k ⟨some c, none⟩) := by
  obtain ⟨hne, f, hf, hcall⟩ := h.followUps k (hjobs ▸ List.mem_cons_self)
  have hbegun : k < s.begun := h.lt_begun_of_follow hf
  have hbehind : ∀ j ∈ jobs, j.run ≠ k := fun j hj => h.run_ne_of_mem hjobs nofun hj
  refine
    { h with
      unbegun := fun k' hle => ⟨(h.unbegun k' hle).1, ?_⟩
      pending := fun k' hp => ⟨(h.pending k' hp).1, ?_⟩
      joined := fun k' f' hk' hf' => ?_
      resumes := fun k' => ?_
      passes := fun k' hj => ?_
      followUps := fun k' hj => ?_
      order := h.order_tail hjobs
      waiting := fun k' f' hf' hcall' => ?_
      called := fun k' f' c' hf' hc' => ?_
      follows := fun c' x' k' hx' htarget => ?_
      followed := fun k' f' o hf' ho => ?_ }
  · have hle : s.begun ≤ k' := hle
    rw [follow_setFollow, if_neg (by omega)]
    exact (h.unbegun k' hle).2
  · rw [follow_setFollow]
    split
    · exact nofun
    · exact (h.pending k' hp).2
  · rw [follow_setFollow] at hf'
    split at hf'
    · next heq => exact absurd (heq ▸ hk') hne
    · exact h.joined k' f' hk' hf'
  · refine Iff.trans ?_ (h.resumes k')
    exact ⟨mem_of_mem_tail hjobs, fun hj => mem_tail hjobs hj nofun⟩
  · obtain ⟨hout, f', hf', hcall'⟩ := h.passes k' (mem_of_mem_tail hjobs hj)
    have hother : k' ≠ k := hbehind _ hj
    exact ⟨hout, f', by rw [follow_setFollow, if_neg hother, hf'], hcall'⟩
  · obtain ⟨hne', f', hf', hcall'⟩ := h.followUps k' (mem_of_mem_tail hjobs hj)
    have hother : k' ≠ k := hbehind _ hj
    exact ⟨hne', f', by rw [follow_setFollow, if_neg hother, hf'], hcall'⟩
  · rw [follow_setFollow] at hf'
    split at hf'
    · obtain rfl := Option.some.inj hf'
      cases hcall'
    · next hother =>
        obtain ⟨hnone, hwhere⟩ := h.waiting k' f' hf' hcall'
        refine ⟨hnone, hwhere.imp_right (Or.imp ?_ ?_)⟩
        · exact fun hj => mem_tail hjobs hj nofun
        · exact fun hj => mem_tail hjobs hj fun hsame => hother (Job.followUp.inj hsame)
  · rw [follow_setFollow] at hf'
    split at hf'
    · next heq =>
        obtain rfl := Option.some.inj hf'
        obtain rfl : c = c' := Option.some.inj hc'
        exact ⟨x, hx, heq ▸ hlt⟩
    · exact h.called k' f' c' hf' hc'
  · obtain ⟨hsince, f', hf', hlt'⟩ := h.follows c' x' k' hx' htarget
    refine ⟨hsince, ?_⟩
    by_cases heq : k' = k
    · subst heq
      refine ⟨⟨some c, none⟩, by rw [follow_setFollow, if_pos rfl], fun c'' hc'' => ?_⟩
      obtain rfl : c = c'' := Option.some.inj hc''
      exact hlast c' x' hx' htarget
    · exact ⟨f', by rw [follow_setFollow, if_neg heq, hf'], hlt'⟩
  · rw [follow_setFollow] at hf'
    split at hf'
    · obtain rfl := Option.some.inj hf'
      cases ho
    · exact h.followed k' f' o hf' ho

/-- The call that `reload` makes. -/
theorem call_reload (s : Reloads O) :
    ∃ target, (∀ c, s.reload.call c =
        if c = s.made then some ⟨target, s.begun, none⟩ else s.call c) ∧
      ∀ k, target = .follow k → s.pendingReload = some k ∨ s.reloading = some k := by
  simp only [Reloads.reload]
  split
  · next k hk =>
      split
      · next k' hk' =>
          refine ⟨.follow k', fun c => call_addCall .., fun k'' heq => .inl ?_⟩
          rw [hk', Target.follow.inj heq]
      · refine ⟨.follow k, fun c => call_addCall .., fun k'' heq => .inr ?_⟩
        rw [hk, Target.follow.inj heq]
  · exact ⟨.own s.begun, fun c => call_addCall .., fun k heq => nomatch heq⟩

/-- `reload` does not look at the queue. -/
theorem reload_cons (s : Reloads O) (j : Job) :
    ({ s with jobs := j :: s.jobs } : Reloads O).reload =
      { s.reload with jobs := j :: s.reload.jobs } := by
  obtain ⟨reloading, pendingReload, begun, outcome, follow, made, call, jobs⟩ := s
  cases reloading with
  | none => rfl
  | some k =>
    cases pendingReload with
    | some k' => rfl
    | none =>
      -- the new follow-up, with or without its job
      cases hout : outcome k with
      | none | some o =>
        simp [Reloads.reload, Reloads.attach, Reloads.addCall, Reloads.setFollow, hout]

/-- The `then` of a follow-up calls `reload`. -/
theorem callAgain (h : Serial s) (hjobs : s.jobs = .followUp k :: jobs) :
    Serial ({ s with jobs } |>.callAgain k) := by
  obtain ⟨hne, f, hf, -⟩ := h.followUps k (hjobs ▸ List.mem_cons_self)
  -- the call first, with the job still in the queue
  have hreload : Serial ({ s with jobs := .followUp k :: jobs } : Reloads O).reload := by
    rw [← hjobs]
    exact h.reload
  rw [reload_cons { s with jobs } (.followUp k)] at hreload
  obtain ⟨target, hcalls, htarget⟩ := call_reload ({ s with jobs } : Reloads O)
  refine hreload.called_of rfl ((hcalls s.made).trans (if_pos rfl)) (h.lt_begun_of_follow hf) ?_
  intro c' x' hx' hfollow
  have hx' := (hcalls c').symm.trans hx'
  split at hx'
  · obtain rfl := Option.some.inj hx'
    rcases htarget k hfollow with hpending | hreloading
    · exact absurd (h.pending k hpending).1 hne
    · exact absurd hreloading hne
  · by_contra hge
    cases hx'.symm.trans ((h.made c').mpr (Nat.le_of_not_lt hge))

/-! ### Adoptions -/

theorem adopt (h : Serial s) (hstep : s.adopt c = some s') : Serial s' := by
  simp only [Reloads.adopt] at hstep
  split at hstep
  · next k since hc =>
      split at hstep
      · next call o hf =>
          obtain rfl := Option.some.inj hstep
          have hget : ∀ c', Function.update s.call c (some ⟨.follow k, since, some o⟩) c' =
              if c' = c then some ⟨.follow k, since, some o⟩ else s.call c' :=
            fun c' => Function.update_apply ..
          -- only the outcome of the call is another
          have hback : ∀ {c' x}, Function.update s.call c (some ⟨.follow k, since, some o⟩) c' =
              some x → ∃ x', s.call c' = some x' ∧ x.target = x'.target ∧ x.since = x'.since ∧
                (c' ≠ c → x = x') ∧ (c' = c → x = ⟨.follow k, since, some o⟩) := by
            intro c' x hx
            rw [hget] at hx
            split at hx
            · next heq =>
                obtain rfl := Option.some.inj hx
                exact ⟨⟨.follow k, since, none⟩, heq ▸ hc, rfl, rfl, fun hne => absurd heq hne,
                  fun _ => rfl⟩
            · next hne => exact ⟨x, hx, rfl, rfl, fun _ => rfl, fun heq => absurd heq hne⟩
          refine
            { h with
              called := fun k' f' c' hf' hc' => ?_
              made := fun c' => ?_
              since := fun c' x hx => ?_
              own := fun c' x k' hx htarget => ?_
              follows := fun c' x k' hx htarget => ?_
              settled := fun c' x o' hx ho => ?_ }
          · obtain ⟨x, hx, hlt⟩ := h.called k' f' c' hf' hc'
            by_cases heq : c' = c
            · subst heq
              obtain rfl := Option.some.inj (hc.symm.trans hx)
              exact ⟨_, (hget c').trans (if_pos rfl), hlt⟩
            · exact ⟨x, (hget c').trans ((if_neg heq).trans hx), hlt⟩
          · show Function.update s.call c _ c' = none ↔ _
            rw [hget]
            split
            · next heq =>
                have hlt := (h.made c').not.mp (by rw [heq, hc]; exact nofun)
                exact ⟨fun hx => (nomatch hx), fun hle => absurd hle hlt⟩
            · exact h.made c'
          · obtain ⟨x', hx', -, hsince, -⟩ := hback hx
            exact hsince ▸ h.since c' x' hx'
          · obtain ⟨x', hx', htarget', -, hother, hself⟩ := hback hx
            by_cases heq : c' = c
            · rw [hself heq] at htarget
              cases htarget
            · rw [hother heq] at htarget ⊢
              exact h.own c' x' k' hx' htarget
          · obtain ⟨x', hx', htarget', hsince, -⟩ := hback hx
            rw [hsince]
            exact h.follows c' x' k' hx' (htarget'.symm.trans htarget)
          · obtain ⟨x', hx', -, hsince, hother, hself⟩ := hback hx
            by_cases heq : c' = c
            · rw [hself heq] at ho ⊢
              obtain rfl : o = o' := Option.some.inj ho
              obtain ⟨k', hlt, hout⟩ := h.followed k _ o hf rfl
              have hle := (h.follows c _ k hc rfl).1
              have hle : since ≤ k' := Nat.le_trans hle hlt
              exact ⟨k', hle, hout⟩
            · rw [hother heq] at ho ⊢
              exact h.settled c' x' o' hx' ho
      · cases hstep
  · cases hstep

theorem adoptFollow (h : Serial s) (hstep : s.adoptFollow k = some s') : Serial s' := by
  simp only [Reloads.adoptFollow] at hstep
  split at hstep
  · next c hf =>
      split at hstep
      · next target since o hc =>
          obtain rfl := Option.some.inj hstep
          -- a follow-up that has called is in no job and not of the last run
          have hback : ∀ {k' f'}, (s.setFollow k ⟨some c, some o⟩).follow k' = some f' →
              ∃ f, s.follow k' = some f ∧ f'.call = f.call ∧
                (f'.call = none ∨ k' ≠ k → f' = f) := by
            intro k' f' hf'
            rw [follow_setFollow] at hf'
            split at hf'
            · next heq =>
                obtain rfl := Option.some.inj hf'
                refine ⟨⟨some c, none⟩, heq ▸ hf, rfl, fun hwhich => ?_⟩
                rcases hwhich with hnone | hne
                · cases hnone
                · exact absurd heq hne
            · exact ⟨f', hf', rfl, fun _ => rfl⟩
          have hforth : ∀ {k' f}, s.follow k' = some f →
              ∃ f', (s.setFollow k ⟨some c, some o⟩).follow k' = some f' ∧ f'.call = f.call := by
            intro k' f hf'
            rw [follow_setFollow]
            split
            · next heq =>
                subst heq
                obtain rfl := Option.some.inj (hf.symm.trans hf')
                exact ⟨_, rfl, rfl⟩
            · exact ⟨f, hf', rfl⟩
          refine
            { h with
              unbegun := fun k' hle => ⟨(h.unbegun k' hle).1, ?_⟩
              pending := fun k' hp => ⟨(h.pending k' hp).1, ?_⟩
              joined := fun k' f' hk' hf' => ?_
              passes := fun k' hj => ⟨(h.passes k' hj).1, ?_⟩
              followUps := fun k' hj => ⟨(h.followUps k' hj).1, ?_⟩
              waiting := fun k' f' hf' hcall => ?_
              called := fun k' f' c' hf' hc' => ?_
              follows := fun c' x k' hx htarget => ?_
              followed := fun k' f' o' hf' ho => ?_ }
          · refine Option.eq_none_iff_forall_ne_some.mpr fun f' hf' => ?_
            obtain ⟨f, hf', -, -⟩ := hback hf'
            cases hf'.symm.trans (h.unbegun k' hle).2
          · obtain ⟨f, hf'⟩ := Option.ne_none_iff_exists'.mp (h.pending k' hp).2
            obtain ⟨f', hf', -⟩ := hforth hf'
            rw [hf']
            exact nofun
          · obtain ⟨f, hf', hcall, -⟩ := hback hf'
            rw [hcall]
            exact h.joined k' f hk' hf'
          · obtain ⟨-, f, hf', hcall⟩ := h.passes k' hj
            obtain ⟨f', hf', heq⟩ := hforth hf'
            exact ⟨f', hf', heq.trans hcall⟩
          · obtain ⟨-, f, hf', hcall⟩ := h.followUps k' hj
            obtain ⟨f', hf', heq⟩ := hforth hf'
            exact ⟨f', hf', heq.trans hcall⟩
          · obtain ⟨f, hf', -, hsame⟩ := hback hf'
            obtain rfl := hsame (.inl hcall)
            exact h.waiting k' f' hf' hcall
          · obtain ⟨f, hf', hcall, -⟩ := hback hf'
            exact h.called k' f c' hf' (hcall.symm.trans hc')
          · obtain ⟨hsince, f, hf', hlt⟩ := h.follows c' x k' hx htarget
            obtain ⟨f', hf', heq⟩ := hforth hf'
            exact ⟨hsince, f', hf', fun c'' hc'' => hlt c'' (heq.symm.trans hc'')⟩
          · obtain ⟨f, hf'', -, hsame⟩ := hback hf'
            by_cases heq : k' = k
            · subst heq
              rw [follow_setFollow, if_pos rfl] at hf'
              obtain rfl := Option.some.inj hf'
              obtain rfl : o = o' := Option.some.inj ho
              obtain ⟨x, hx, hlt⟩ := h.called k' _ c hf rfl
              obtain ⟨k'', hle, hout⟩ := h.settled c _ o hc rfl
              obtain rfl := Option.some.inj (hc.symm.trans hx)
              have hlt : k' < since := hlt
              have hle : since ≤ k'' := hle
              exact ⟨k'', by omega, hout⟩
            · obtain rfl := hsame (.inr heq)
              exact h.followed k' f' o' hf'' ho
      · cases hstep
  · cases hstep

/-! ### Steps -/

theorem step {a : ReloadStep O} (h : Serial s) (hstep : s.step a = some s') : Serial s' := by
  cases a with
  | reload =>
    obtain rfl := Option.some.inj hstep
    exact h.reload
  | complete k o =>
    simp only [Reloads.step] at hstep
    split at hstep
    · next hrun =>
        obtain rfl := Option.some.inj hstep
        exact h.complete hrun.1 (Option.isNone_iff_eq_none.mp hrun.2) o
    · cases hstep
  | job =>
    simp only [Reloads.step] at hstep
    split at hstep
    · cases hstep
    · next j jobs hjobs =>
        obtain rfl := Option.some.inj hstep
        cases j with
        | resume k => exact h.resume hjobs
        | pass k => exact h.pass hjobs
        | followUp k => exact h.callAgain hjobs
  | adopt c => exact h.adopt hstep
  | adoptFollow k => exact h.adoptFollow hstep

theorem of_reaches (hrun : Reaches Reloads.step unguarded .start s) : Serial s :=
  hrun.invariant start fun _ _ _ h _ hstep => h.step hstep

end Serial

/-! ### The result -/

/-- Everything has come to rest: no run goes on, no job waits, no promise takes over another. -/
structure Quiescent (s : Reloads O) : Prop where
  runs : ∀ k, k < s.begun → s.outcome k ≠ none
  jobs : s.jobs = []
  calls : ∀ c, s.adopt c = none
  follows : ∀ k, s.adoptFollow k = none

/-- What the protocol promises of a state. -/
structure Serialized (s : Reloads O) : Prop where
  /-- No two runs overlap. -/
  exclusive : ∀ k k', k < s.begun → k' < s.begun → s.outcome k = none → s.outcome k' = none →
    k = k'
  /-- A call settles with the outcome of a run that began no earlier than the call. -/
  fresh : ∀ c x o, s.call c = some x → x.outcome = some o →
    ∃ k, x.since ≤ k ∧ k < s.begun ∧ s.outcome k = some o
  /-- No call is left unsettled. -/
  settled : Quiescent s → ∀ c x, s.call c = some x → x.outcome ≠ none

namespace Serial

variable {s : Reloads O} {c : ℕ} {x : Call O}

/-- The calls settle from the last one to the first: a follow-up waits for a later call. -/
theorem settled_of_quiescent (h : Serial s) (hrest : Quiescent s) (hx : s.call c = some x) :
    x.outcome ≠ none := by
  induction hn : s.made - c using Nat.strong_induction_on generalizing c x with
  | h n ih =>
    intro hnone
    cases htarget : x.target with
    | own k =>
      obtain ⟨-, hlt, hpending⟩ := h.own c x k hx htarget
      have hjob := (h.resumes k).mpr ⟨hpending hnone, hrest.runs k hlt⟩
      rw [hrest.jobs] at hjob
      cases hjob
    | follow k =>
      obtain ⟨-, f, hf, hlater⟩ := h.follows c x k hx htarget
      obtain ⟨target, since, outcome⟩ := x
      obtain rfl : target = .follow k := htarget
      obtain rfl : outcome = none := hnone
      obtain ⟨call, followed⟩ := f
      cases followed with
      | some o =>
        have hadopt := hrest.calls c
        simp only [Reloads.adopt, hx, hf] at hadopt
        cases hadopt
      | none =>
        cases call with
        | none =>
          rcases (h.waiting k _ hf rfl).2 with hrun | hjob | hjob
          · exact hrest.runs k (h.lt_begun_of_follow hf) hrun
          · rw [hrest.jobs] at hjob
            cases hjob
          · rw [hrest.jobs] at hjob
            cases hjob
        | some c' =>
          have hlt : c < c' := hlater c' rfl
          obtain ⟨⟨target', since', outcome'⟩, hx', -⟩ := h.called k _ c' hf rfl
          have hmade : c' < s.made := by
            by_contra hge
            cases hx'.symm.trans ((h.made c').mpr (Nat.le_of_not_lt hge))
          cases outcome' with
          | none => exact ih (s.made - c') (by omega) hx' rfl rfl
          | some o =>
            have hadopt := hrest.follows k
            simp only [Reloads.adoptFollow, hf, hx'] at hadopt
            cases hadopt

theorem serialized (h : Serial s) : Serialized s where
  exclusive k k' hk hk' hrun hrun' := by
    have hreloading := h.reloading_of_running hk hrun
    exact Option.some.inj (hreloading.symm.trans (h.reloading_of_running hk' hrun'))
  fresh c x o hx ho := by
    obtain ⟨k, hle, hout⟩ := h.settled c x o hx ho
    refine ⟨k, hle, ?_, hout⟩
    by_contra hge
    cases hout.symm.trans (h.unbegun k (Nat.le_of_not_lt hge)).1
  settled hrest c x hx := h.settled_of_quiescent hrest hx

end Serial

/-- **Reloads are serialized.** Whatever calls of `reload` come at whatever moment, and however the
runs end, runs do not overlap, every call settles with the outcome of a run that began no
earlier than the call, and all calls are settled when everything has come to rest. -/
theorem reloads_serialized {s : Reloads O} (hrun : Reaches Reloads.step unguarded .start s) :
    Serialized s :=
  (Serial.of_reaches hrun).serialized

/-- A second call joins the first run and a third one after the run has failed; a fourth starts a
run before the follow-up calls, which then joins that run. -/
def interposed : List (ReloadStep Bool) :=
  [.reload, .reload, .complete 0 false, .reload, .job, .reload, .job, .job, .complete 1 true,
    .job, .job, .job, .complete 2 true, .job, .adoptFollow 1, .adopt 4, .adoptFollow 0,
    .adopt 1, .adopt 2]

theorem reloads_serialized_interposed :
    ∃ s, Reaches Reloads.step unguarded (.start : Reloads Bool) s ∧
      (List.range s.made).map (fun c => (s.call c).bind Call.outcome) =
        [some false, some true, some true, some true, some true, some true] ∧ Serialized s := by
  have hrun : (play (restrict Reloads.step unguarded) .start interposed).any (fun s =>
      (List.range s.made).map (fun c => (s.call c).bind Call.outcome) =
        [some false, some true, some true, some true, some true, some true]) = true := by
    decide
  obtain ⟨s, hreach, hs⟩ := exists_reaches_of_play hrun
  exact ⟨s, hreach, of_decide_eq_true hs, reloads_serialized hreach⟩

end Lopata.Generations
